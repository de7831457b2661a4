import Lisp.Expr.Basic
import Lisp.Text.Decimal

namespace Lisp

inductive Datum where
  | literal (text : String)
  | string (text : String)
  | quoted (d : Datum)
  | nil
  | pair (head tail : Datum)
  deriving DecidableEq

structure Supply where
  symbols : SymbolTable
  next : Ident

namespace Datum

def chain (reversed : List Datum) (tail : Datum) : Datum :=
  reversed.foldl (fun rest d => pair d rest) tail

def literalExpr (text : String) : StateM Supply Expr := fun s =>
  match Decimal.toInt64? text.toList with
  | some n => (.number n, s)
  | none =>
    let (x, symbols) := s.symbols.intern text
    (.symbol x, { s with symbols })

def fresh (make : Ident → Expr) : StateM Supply Expr := fun s =>
  (make s.next, { s with next := s.next + 1 })

def toExpr : Datum → StateM Supply Expr
  | literal text => literalExpr text
  | string text => fresh (fun i => .string i text)
  | nil => fun s => (.nil s.symbols.id, s)
  | quoted d => do
    let e ← d.toExpr
    let table := (← get).symbols.id
    let operands ← fresh (fun i => .pair i e (.nil table))
    fresh (fun i => .pair i (.keyword .quote table) operands)
  | pair h t => do
    let head ← h.toExpr
    let tail ← t.toExpr
    fresh (fun i => .pair i head tail)

end Datum

end Lisp
