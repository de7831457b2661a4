import Lisp.Datum.Read
import Lisp.Eval

namespace Lisp

structure Machine where
  session : Session
  world : World

namespace Machine

def join (id : Nat) (w : World) : Machine :=
  let (global, scopes) := w.scopes.create none
  let session := Session.initial id global
  ⟨session, { w with
    scopes := session.constants.foldl (fun r x => r.define global x (.symbol x)) scopes }⟩

def start (sink : Sink) : Machine :=
  join 0 (.initial sink)

variable {ε α : Type}

@[inline]
def within (act : Session → Run ε World α) : Run ε Machine α := fun m =>
  (act m.session).zoom (·.world) (fun w m => { m with world := w }) m

def intern (raw : String) : Run ε Machine Symbol := fun m =>
  let (x, session) := m.session.intern raw
  .value x { m with session }

def realize (d : Datum) : Run ε Machine Expr := fun m =>
  let (e, supply) := d.toExpr ⟨m.session.symbols, m.world.next⟩
  .value e ⟨{ m.session with symbols := supply.symbols }, { m.world with next := supply.next }⟩

def evaluateIn (depth : Nat) (scope : ScopeId) (e : Expr) : Run Error Machine Expr :=
  within (fun s => eval s depth scope e)

def evaluate (depth : Nat) (e : Expr) : Run Error Machine Expr :=
  within (fun s => eval s depth s.global e)

def apply (depth : Nat) (f : Expr) (vs : List Expr) : Run Error Machine Expr :=
  within (fun s => Lisp.apply s depth f vs)

def readings : List Reading → Run Error Machine (List Expr)
  | [] => pure []
  | r :: rs => do
    match r.result with
    | .ok d =>
      let e ← realize d
      let es ← readings rs
      pure (e :: es)
    | .error e => Run.throw (.read e)

def parse (source : String) : Run Error Machine (List Expr) :=
  readings (Reading.ofString source)

def evaluateFirst (depth : Nat) (source : String) : Run Error Machine Expr :=
  match Reading.first? source with
  | none => Run.throw .nothingToRead
  | some ⟨.error e, _⟩ => Run.throw (.read e)
  | some ⟨.ok d, _⟩ => do evaluate depth (← realize d)

def evaluateReadings (depth : Nat) : List Reading → Run Error Machine (List Expr)
  | [] => pure []
  | r :: rs => do
    match r.result with
    | .ok d =>
      let v ← evaluate depth (← realize d)
      let vs ← evaluateReadings depth rs
      pure (v :: vs)
    | .error e => Run.throw (.read e)

def evaluateAll (depth : Nat) (source : String) : Run Error Machine (List Expr) :=
  evaluateReadings depth (Reading.ofString source)

end Machine

end Lisp
