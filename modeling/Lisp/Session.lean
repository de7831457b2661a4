import Lisp.Datum
import Lisp.Primitive

namespace Lisp

structure Session where
  symbols : SymbolTable
  primitives : List (Symbol × Primitive)
  global : ScopeId

namespace Session

def enrol (s : Session) (entry : String × Primitive) : Session :=
  let (x, symbols) := s.symbols.intern entry.1
  { s with symbols, primitives := s.primitives ++ [(x, entry.2)] }

def initial (id : Nat) (global : ScopeId) : Session :=
  Primitive.names.foldl enrol ⟨.initial id, [], global⟩

def constants (s : Session) : List Symbol :=
  [Keyword.nil.symbol s.symbols.id, Keyword.t.symbol s.symbols.id] ++ s.primitives.map Prod.fst

def nil (s : Session) : Expr :=
  .nil s.symbols.id

def truth (s : Session) (b : Bool) : Expr :=
  .truth s.symbols.id b

def keyword? (s : Session) (x : Symbol) : Option Keyword :=
  s.symbols.keyword? x

def primitive? (s : Session) (x : Symbol) : Option Primitive :=
  s.primitives.lookup x

def intern (s : Session) (raw : String) : Symbol × Session :=
  let (x, symbols) := s.symbols.intern raw
  (x, { s with symbols })

end Session

end Lisp
