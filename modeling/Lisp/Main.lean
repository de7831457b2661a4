import Lisp.Program

namespace Lisp.Console

def maxDepth : Nat := 1000000

def describe : IO.Error → String
  | .noFileOrDirectory _ code text => text ++ " (os error " ++ toString code ++ ")"
  | .inappropriateType _ code text => text ++ " (os error " ++ toString code ++ ")"
  | .permissionDenied _ code text => text ++ " (os error " ++ toString code ++ ")"
  | .invalidArgument _ code text => text ++ " (os error " ++ toString code ++ ")"
  | e => toString e

partial def readLine (input : IO.FS.Stream) (line : Array UInt8) : IO (List UInt8) := do
  match (← input.read 1).data[0]? with
  | some b => if b = 10 then return (line.push b).toList else readLine input (line.push b)
  | none => return line.toList

def perform (x : Run InputOutputError Repl Unit) (r : Repl) : IO Repl := do
  let shown (r : Repl) : IO Repl := do
    let stdout ← IO.getStdout
    stdout.putStr r.sink.text
    stdout.flush
    return r.withSink (.buffer "")
  match x r with
  | .value _ r => shown r
  | .error e r =>
    let _ ← shown r
    throw (IO.userError e.message)
  | .exhausted => throw (IO.userError "evaluation too deep")

partial def converse (o : Repl.Options) (input : IO.FS.Stream) (r : Repl) : IO Unit := do
  let r ← perform (Repl.prompt o) r
  match ← readLine input #[] with
  | [] => let _ ← perform (Repl.finish o) r
  | line =>
    match Text.decode? line with
    | some line => converse o input (← perform (Repl.feed maxDepth line) r)
    | none => throw (IO.userError InputOutputError.invalidText.message)

def finish (e : Exit) : IO UInt32 := do
  (← IO.getStdout).putStr e.stdout
  (← IO.getStderr).putStr e.stderr
  return e.code.toUInt32

def serve (o : Repl.Options) (input : IO.FS.Stream) : IO UInt32 := do
  try
    converse o input (← perform (Repl.welcome o) (.start (.start (.buffer "")) .shared))
    return 0
  catch e => finish (.failure "" (describe e))

def script (path : String) : IO UInt32 := do
  match ← (IO.FS.Handle.mk path .read).toBaseIO with
  | .ok handle => serve .quiet (.ofHandle handle)
  | .error e => finish (.cannotOpen path (describe e))

end Lisp.Console

def main (args : List String) : IO UInt32 := do
  match Lisp.Request.ofWords args with
  | .help => Lisp.Console.finish ⟨0, Lisp.Exit.help, ""⟩
  | .version => Lisp.Console.finish ⟨0, Lisp.Exit.version, ""⟩
  | .misuse => Lisp.Console.finish .misuse
  | .session quiet => Lisp.Console.serve (Lisp.Program.optionsOf quiet) (← IO.getStdin)
  | .script path => Lisp.Console.script path
