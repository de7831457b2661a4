import Lisp.Run
import Lisp.Scope

namespace Lisp

/-- Where text is written to. A closed sink refuses every write. -/
inductive Sink where
  | buffer (text : String)
  | closed

namespace Sink

def write? : Sink → String → Option Sink
  | buffer t, text => some (buffer (t ++ text))
  | closed, _ => none

def text : Sink → String
  | buffer t => t
  | closed => ""

end Sink

structure World where
  scopes : Scopes
  next : Ident
  sink : Sink

namespace World

def initial (sink : Sink) : World :=
  ⟨.empty, 0, sink⟩

@[inline]
def fresh (make : Ident → Expr) : Run Error World Expr := fun w =>
  .value (make w.next) { w with next := w.next + 1 }

@[inline]
def chain (vs : List Expr) (tail : Expr) : Run Error World Expr := fun w =>
  .value (Expr.chain w.next vs tail) { w with next := w.next + vs.length }

/-- Writes to the sink. A refused write is not noticed. -/
@[inline]
def emit (text : String) : Run Error World Unit := fun w =>
  match w.sink.write? text with
  | some sink => .value () { w with sink }
  | none => .value () w

@[inline]
def resolve (i : ScopeId) (x : Symbol) : Run Error World Expr := fun w =>
  match w.scopes.resolve i x with
  | .ok v => .value v w
  | .error e => .error e w

@[inline]
def define (i : ScopeId) (x : Symbol) (v : Expr) : Run Error World Unit := fun w =>
  .value () { w with scopes := w.scopes.define i x v }

@[inline]
def set (i : ScopeId) (x : Symbol) (v : Expr) : Run Error World Unit := fun w =>
  .value () { w with scopes := w.scopes.set i x v }

@[inline]
def assign (i : ScopeId) (x : Symbol) (v : Expr) : Run Error World Unit := fun w =>
  match w.scopes.assign i x v with
  | .ok scopes => .value () { w with scopes }
  | .error e => .error e w

@[inline]
def create (parent : Option ScopeId) : Run Error World ScopeId := fun w =>
  let (i, scopes) := w.scopes.create parent
  .value i { w with scopes }

@[inline]
def extend (i : ScopeId) (formals arguments : Expr) : Run Error World ScopeId := fun w =>
  match Scopes.matchUp formals arguments formals arguments with
  | .ok bs =>
    let (j, scopes) := w.scopes.enter i bs
    .value j { w with scopes }
  | .error e => .error e w

end World

end Lisp
