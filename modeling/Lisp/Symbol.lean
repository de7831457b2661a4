import Lisp.Text.Uppercase

namespace Lisp

/-- A symbol is an entry of one symbol table. Two symbols are equal when they are the same entry
of the same table; equal names alone do not make equal symbols. -/
structure Symbol where
  table : Nat
  index : Nat
  name : String
  deriving DecidableEq

inductive Keyword where
  | nil
  | t
  | quote
  | set
  | defun
  | cond
  deriving DecidableEq

namespace Keyword

def all : List Keyword :=
  [nil, t, quote, set, defun, cond]

def index : Keyword → Nat
  | nil => 0
  | t => 1
  | quote => 2
  | set => 3
  | defun => 4
  | cond => 5

def name : Keyword → String
  | nil => "NIL"
  | t => "T"
  | quote => "QUOTE"
  | set => "SET"
  | defun => "DEFUN"
  | cond => "COND"

def symbol (k : Keyword) (table : Nat) : Symbol :=
  ⟨table, k.index, k.name⟩

end Keyword

/-- NIL is told by its name, so the NIL of any table ends a list and is false. -/
def Symbol.isNil (s : Symbol) : Bool :=
  s.name == Keyword.nil.name

structure SymbolTable where
  id : Nat
  names : List String

namespace SymbolTable

def initial (id : Nat) : SymbolTable :=
  ⟨id, Keyword.all.map Keyword.name⟩

def intern (t : SymbolTable) (raw : String) : Symbol × SymbolTable :=
  let name := Text.upcase raw
  (⟨t.id, t.names.idxOf name, name⟩,
    if name ∈ t.names then t else { t with names := t.names ++ [name] })

def keyword? (t : SymbolTable) (s : Symbol) : Option Keyword :=
  Keyword.all.find? (fun k => k.symbol t.id = s)

end SymbolTable

end Lisp
