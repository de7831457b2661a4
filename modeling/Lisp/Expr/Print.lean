import Lisp.Expr.Basic
import Lisp.Text.Decimal

namespace Lisp

structure Style where
  number : Int64 → List Char
  symbol : String → List Char
  string : String → List Char
  function : List Char

namespace Style

def plain : Style where
  number n := Decimal.ofInt n.toInt
  symbol s := s.toList
  string s := '"' :: (s.toList ++ ['"'])
  function := "#<FUNCTION>".toList

def escaped : List Char → List Char
  | [] => []
  | c :: cs => if c = '"' ∨ c = '\\' then '\\' :: c :: escaped cs else c :: escaped cs

def tagged : Style where
  number n := '#' :: Decimal.ofInt n.toInt
  symbol s := '$' :: s.toList
  string s := '"' :: (escaped s.toList ++ ['"'])
  function := ['&']

def atom (st : Style) : Expr → List Char
  | .symbol s => st.symbol s.name
  | .number n => st.number n
  | .string _ s => st.string s
  | .function _ _ _ _ => st.function
  | .pair _ _ _ => []

end Style

inductive Position where
  | alone
  | rest

namespace Expr

def write (st : Style) : Position → Expr → List Char
  | .alone, pair _ h t => '(' :: (write st .alone h ++ write st .rest t)
  | .rest, pair _ h t => ' ' :: (write st .alone h ++ write st .rest t)
  | .alone, e => st.atom e
  | .rest, e => if e.isNil then [')'] else ' ' :: '.' :: ' ' :: (st.atom e ++ [')'])

def print (e : Expr) : String :=
  String.ofList (e.write .plain .alone)

def tagged (e : Expr) : String :=
  String.ofList (e.write .tagged .alone)

end Expr

end Lisp
