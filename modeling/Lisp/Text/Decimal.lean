namespace Lisp.Decimal

def ofInt : Int → List Char
  | .ofNat n => Nat.toDigits 10 n
  | .negSucc n => '-' :: Nat.toDigits 10 (n + 1)

def toNat? (cs : List Char) : Option Nat :=
  if cs ≠ [] ∧ cs.all Char.isDigit then some (Nat.ofDigitChars 10 cs 0) else none

/-- Digits with at most a minus sign before them; a plus sign is not part of a number. -/
def toInt? : List Char → Option Int
  | '-' :: cs => (toNat? cs).map (fun n => -(n : Int))
  | cs => (toNat? cs).map (fun n => (n : Int))

def toInt64? (cs : List Char) : Option Int64 :=
  match toInt? cs with
  | some n => if Int64.minValue.toInt ≤ n ∧ n ≤ Int64.maxValue.toInt then some (Int64.ofInt n) else none
  | none => none

end Lisp.Decimal
