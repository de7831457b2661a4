import Lisp.Error
import Lisp.Expr.Print

namespace Lisp

structure Scope where
  parent : Option ScopeId
  bindings : List (Symbol × Expr)

namespace Scope

def get? (f : Scope) (x : Symbol) : Option Expr :=
  f.bindings.lookup x

def insert (x : Symbol) (v : Expr) : List (Symbol × Expr) → List (Symbol × Expr)
  | [] => [(x, v)]
  | (y, w) :: bs => if y = x then (x, v) :: bs else (y, w) :: insert x v bs

def put (f : Scope) (x : Symbol) (v : Expr) : Scope :=
  { f with bindings := insert x v f.bindings }

end Scope

structure Scopes where
  all : Array Scope

namespace Scopes

def empty : Scopes := ⟨#[]⟩

def create (r : Scopes) (parent : Option ScopeId) : ScopeId × Scopes :=
  (r.all.size, ⟨r.all.push ⟨parent, []⟩⟩)

def own? (r : Scopes) (i : ScopeId) (x : Symbol) : Option Expr :=
  r.all[i]?.bind (·.get? x)

def define (r : Scopes) (i : ScopeId) (x : Symbol) (v : Expr) : Scopes :=
  ⟨r.all.modify i (·.put x v)⟩

def parent? (r : Scopes) (i : ScopeId) : Option ScopeId :=
  r.all[i]?.bind (·.parent)

def chainUpTo (r : Scopes) : Nat → ScopeId → List ScopeId
  | 0, _ => []
  | n + 1, i =>
    i :: match r.parent? i with
      | some p => chainUpTo r n p
      | none => []

def chain (r : Scopes) (i : ScopeId) : List ScopeId :=
  r.chainUpTo r.all.size i

def holder? (r : Scopes) (i : ScopeId) (x : Symbol) : Option ScopeId :=
  (r.chain i).find? (fun j => (r.own? j x).isSome)

def probe (r : Scopes) (i : ScopeId) (x : Symbol) : Option Expr :=
  (r.chain i).findSome? (fun j => r.own? j x)

def resolve (r : Scopes) (i : ScopeId) (x : Symbol) : Except Error Expr :=
  match r.probe i x with
  | some v => .ok v
  | none => .error (.unbound x.name)

def set (r : Scopes) (i : ScopeId) (x : Symbol) (v : Expr) : Scopes :=
  r.define ((r.holder? i x).getD i) x v

def assign (r : Scopes) (i : ScopeId) (x : Symbol) (v : Expr) : Except Error Scopes :=
  match r.holder? i x with
  | some j => .ok (r.define j x v)
  | none => .error (.unbound x.name)

/-- Pairs the parameters that are left with the arguments that are left. A symbol in the place of
a parameter list takes all of them. -/
def matchUp (formals arguments : Expr) : Expr → Expr → Except Error (List (Symbol × Expr))
  | .symbol x, a =>
    if !x.isNil then .ok [(x, a)]
    else if a.isNil then .ok []
    else .error (.tooManyArguments formals.elements.length arguments.elements.length)
  | .pair _ (.symbol x) ps, a =>
    match a with
    | .pair _ v vs =>
      match matchUp formals arguments ps vs with
      | .ok bs => .ok ((x, v) :: bs)
      | .error e => .error e
    | _ =>
      if a.isNil then
        .error (.tooFewArguments formals.elements.length arguments.elements.length)
      else .error (.argumentChain arguments.print)
  | .pair _ p _, _ => .error (.parameter p.print)
  | p, _ => .error (.parameter p.print)

def enter (r : Scopes) (i : ScopeId) (bs : List (Symbol × Expr)) : ScopeId × Scopes :=
  let (j, r) := r.create (some i)
  (j, bs.foldl (fun r b => r.define j b.1 b.2) r)

end Scopes

end Lisp
