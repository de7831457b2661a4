namespace Lisp.Text

/-- Cuts after every newline. What follows the last newline is a line of its own if it is not
empty. -/
def lines : List UInt8 → List (List UInt8)
  | [] => []
  | b :: bs =>
    if b = 10 then [b] :: lines bs
    else
      match lines bs with
      | [] => [[b]]
      | l :: ls => (b :: l) :: ls

def decode? (bs : List UInt8) : Option String :=
  String.fromUTF8? bs.toByteArray

def encode (s : String) : List UInt8 :=
  s.toUTF8.data.toList

def dropBytes : Nat → List Char → List Char
  | _, [] => []
  | n, c :: cs => if n = 0 then c :: cs else dropBytes (n - c.utf8Size) cs

end Lisp.Text
