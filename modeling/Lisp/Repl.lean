import Lisp.Machine
import Lisp.Text.Bytes

namespace Lisp

inductive InputOutputError where
  | brokenPipe
  | invalidText
  deriving DecidableEq

def InputOutputError.message : InputOutputError → String
  | brokenPipe => "sink closed"
  | invalidText => "stream did not contain valid UTF-8"

inductive Channel where
  | shared
  | own (sink : Sink)

/-- A read-evaluate-print loop between two lines. The text of an expression that is not complete
yet is `pending`. -/
structure Repl where
  machine : Machine
  channel : Channel
  pending : String

namespace Repl

structure Options where
  banner : Bool
  prompt : Bool

def Options.interactive : Options := ⟨true, true⟩

def Options.quiet : Options := ⟨false, false⟩

def start (m : Machine) (channel : Channel) : Repl :=
  ⟨m, channel, ""⟩

def banner : String :=
  "tinylisp\nType expressions to evaluate them, Ctrl+D to exit.\n"

def farewell : String :=
  "Goodbye!\n"

def sink (r : Repl) : Sink :=
  match r.channel with
  | .shared => r.machine.world.sink
  | .own sink => sink

def withSink (r : Repl) (sink : Sink) : Repl :=
  match r.channel with
  | .shared => { r with machine.world.sink := sink }
  | .own _ => { r with channel := .own sink }

def write (text : String) : Run InputOutputError Repl Unit := fun r =>
  match r.sink.write? text with
  | some sink => .value () (r.withSink sink)
  | none => .error .brokenPipe r

def within {α : Type} (x : Run InputOutputError Machine α) : Run InputOutputError Repl α :=
  x.zoom (·.machine) (fun m r => { r with machine := m })

def failureLine (e : Error) : String :=
  "Error: " ++ e.message ++ "\n"

def valueLine (v : Expr) : String :=
  "=> " ++ v.print ++ "\n"

def isPrintCall : Expr → Bool
  | .pair _ (.symbol x) _ => x.name == "PRINT"
  | _ => false

def report (depth : Nat) (e : Expr) : Run InputOutputError Repl Unit := do
  match ← within (Machine.evaluate depth e).attempt with
  | .ok v => if isPrintCall e then pure () else write (valueLine v)
  | .error err => write (failureLine err)

/-- Evaluates the readings of a text of `size` bytes up to one that wants more input, and tells
how many bytes are done with. -/
def settle (depth size : Nat) (done : Nat) : List Reading → Run InputOutputError Repl Nat
  | [] => pure size
  | ⟨.ok d, offset⟩ :: rs => do
    report depth (← within (Machine.realize d))
    settle depth size offset rs
  | ⟨.error e, offset⟩ :: rs => do
    if e.isIncomplete then pure done
    else
      write (failureLine (.read e))
      settle depth size offset rs

def feed (depth : Nat) (line : String) : Run InputOutputError Repl Unit := do
  let text := (← Run.get).pending ++ line
  let done ← settle depth text.utf8ByteSize 0 (Reading.ofString text)
  Run.modify (fun r => { r with pending := String.ofList (Text.dropBytes done text.toList) })

def prompt (o : Options) : Run InputOutputError Repl Unit := do
  if o.prompt then
    let blank := (← Run.get).pending.toList.all Text.isBlank
    write (if blank then "> " else "... ")

def finish (o : Options) : Run InputOutputError Repl Unit := do
  match Reading.first? (← Run.get).pending with
  | some ⟨.error e, _⟩ =>
    if o.prompt then write "\n"
    write (failureLine (.read e))
  | _ => pure ()
  if o.banner then write farewell

def loop (depth : Nat) (o : Options) : List (Option String) → Run InputOutputError Repl Unit
  | [] => do
    prompt o
    finish o
  | none :: _ => do
    prompt o
    Run.throw .invalidText
  | some line :: lines => do
    prompt o
    feed depth line
    loop depth o lines

def welcome (o : Options) : Run InputOutputError Repl Unit := do
  if o.banner then write banner

def run (depth : Nat) (o : Options) (input : List UInt8) : Run InputOutputError Repl Unit := do
  welcome o
  loop depth o ((Text.lines input).map Text.decode?)

end Repl

end Lisp
