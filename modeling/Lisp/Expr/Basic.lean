import Lisp.Symbol

namespace Lisp

/-- Tells strings, pairs and functions apart that were made at different times. -/
abbrev Ident := Nat

abbrev ScopeId := Nat

inductive Expr where
  | symbol (s : Symbol)
  | number (n : Int64)
  | string (id : Ident) (text : String)
  | pair (id : Ident) (head tail : Expr)
  | function (id : Ident) (params body : Expr) (scope : ScopeId)
  deriving DecidableEq

namespace Expr

def keyword (k : Keyword) (table : Nat) : Expr :=
  symbol (k.symbol table)

def nil (table : Nat) : Expr :=
  keyword .nil table

def truth (table : Nat) (b : Bool) : Expr :=
  keyword (if b then .t else .nil) table

def isAtom : Expr → Bool
  | pair _ _ _ => false
  | _ => true

def isNil : Expr → Bool
  | symbol s => s.isNil
  | _ => false

def symbol? : Expr → Option Symbol
  | symbol s => some s
  | _ => none

def elements : Expr → List Expr
  | pair _ h t => h :: t.elements
  | _ => []

def terminator : Expr → Expr
  | pair _ _ t => t.terminator
  | e => e

def isList : Expr → Bool
  | pair _ _ t => t.isList
  | e => e.isNil

def toList? (e : Expr) : Option (List Expr) :=
  if e.terminator.isNil then some e.elements else none

def listLength? : Expr → Option Nat
  | pair _ _ t => t.listLength?.map (· + 1)
  | e => if e.isNil then some 0 else none

def chain (next : Ident) : List Expr → Expr → Expr
  | [], e => e
  | v :: vs, e => pair next v (chain (next + 1) vs e)

end Expr

end Lisp
