import Lisp.CommandLine
import Lisp.Files
import Lisp.Repl

namespace Lisp

structure Exit where
  code : UInt8
  stdout : String
  stderr : String

namespace Exit

def version : String :=
  "tinylisp 0.1.0\n"

def usage : String :=
  "Usage: tinylisp [OPTIONS] [FILE]\n"

def help : String :=
  "Interactive evaluator for a small Lisp dialect\n\n" ++ usage ++
  "\nArguments:\n" ++
  "  [FILE]  Evaluate the expressions in this file instead of reading standard input\n" ++
  "\nOptions:\n" ++
  "  -q, --quiet    Suppress the banner, prompts and farewell\n" ++
  "  -h, --help     Print help\n" ++
  "  -V, --version  Print version\n"

def misuse : Exit :=
  ⟨2, "", "error: unexpected argument\n\n" ++ usage ++ "\nFor more information, try '--help'.\n"⟩

def failure (stdout message : String) : Exit :=
  ⟨1, stdout, "Error: " ++ message ++ "\n"⟩

def cannotOpen (path cause : String) : Exit :=
  failure "" ("cannot open " ++ path ++ "\n\nCaused by:\n    " ++ cause)

end Exit

namespace Program

def optionsOf (quiet : Bool) : Repl.Options :=
  if quiet then .quiet else .interactive

/-- A session over the whole of an input, the language and the loop writing to one sink; nothing
if an evaluation goes deeper than `depth`. -/
def session (depth : Nat) (o : Repl.Options) (input : List UInt8) : Option Exit :=
  match Repl.run depth o input (.start (.start (.buffer "")) .shared) with
  | .value _ r => some ⟨0, r.sink.text, ""⟩
  | .error e r => some (.failure r.sink.text e.message)
  | .exhausted => none

def run (depth : Nat) (args : List String) (stdin : List UInt8) (files : Files) : Option Exit :=
  match Request.ofWords args with
  | .help => some ⟨0, Exit.help, ""⟩
  | .version => some ⟨0, Exit.version, ""⟩
  | .misuse => some .misuse
  | .session quiet => session depth (optionsOf quiet) stdin
  | .script path =>
    match files.read path with
    | .ok bytes => session depth .quiet bytes
    | .error .isDirectory => some (.failure "" FileFault.isDirectory.message)
    | .error f => some (.cannotOpen path f.message)

end Program

end Lisp
