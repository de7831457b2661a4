import Lisp.Datum
import Lisp.Error
import Lisp.Token.Scan

namespace Lisp

/-- An expression that has been opened. Elements are kept last element first; an `improper` list
has had its dot. -/
inductive Opened where
  | quote
  | list (elements : List Datum)
  | improper (elements : List Datum)

/-- What the tokens read so far leave open, innermost first. In `closing`, a dotted list has its
tail and wants nothing but a closing parenthesis. -/
inductive Expecting where
  | datum (opened : List Opened)
  | closing (elements : List Datum) (tail : Datum) (opened : List Opened)

inductive Verdict where
  | shift (e : Expecting)
  | accept (d : Datum)
  | reject (e : ReadError)

namespace Expecting

def initial : Expecting := datum []

def deliver (d : Datum) : List Opened → Verdict
  | [] => .accept d
  | .quote :: os => deliver (.quoted d) os
  | .list ds :: os => .shift (datum (.list (d :: ds) :: os))
  | .improper ds :: os => .shift (closing ds d os)

def step (e : Expecting) (t : Token) : Verdict :=
  match e, t with
  | _, .unterminated => .reject .unterminatedString
  | closing ds d os, .rightParen => deliver (.chain ds d) os
  | closing _ _ _, _ => .reject .expectedClose
  | datum os, .leftParen => .shift (datum (.list [] :: os))
  | datum os, .quote => .shift (datum (.quote :: os))
  | datum os, .string s => deliver (.string s) os
  | datum os, .literal s => deliver (.literal s) os
  | datum (.list ds :: os), .rightParen => deliver (.chain ds .nil) os
  | datum _, .rightParen => .reject .unexpectedClose
  | datum (.list (d :: ds) :: os), .dot => .shift (datum (.improper (d :: ds) :: os))
  | datum _, .dot => .reject .unexpectedDot

def isInitial : Expecting → Bool
  | datum [] => true
  | _ => false

end Expecting

structure Reading where
  result : Except ReadError Datum
  offset : Nat

namespace Reading

/-- The first reading over the tokens and the tokens after it; nothing if there is no token. A
text of `size` bytes that ends inside a datum is used up. -/
def next (size : Nat) : Expecting → List Lexeme → Option (Reading × List Lexeme)
  | e, [] => if e.isInitial then none else some (⟨.error .endOfInput, size⟩, [])
  | e, l :: ls =>
    match e.step l.token with
    | .shift e' => next size e' ls
    | .accept d => some (⟨.ok d, l.stop⟩, ls)
    | .reject r => some (⟨.error r, l.stop⟩, ls)

def all (size : Nat) : Expecting → List Lexeme → List Reading
  | e, [] => if e.isInitial then [] else [⟨.error .endOfInput, size⟩]
  | e, l :: ls =>
    match e.step l.token with
    | .shift e' => all size e' ls
    | .accept d => ⟨.ok d, l.stop⟩ :: all size .initial ls
    | .reject r => ⟨.error r, l.stop⟩ :: all size .initial ls

def first? (source : String) : Option Reading :=
  (next source.utf8ByteSize .initial (Lexeme.scan source)).map Prod.fst

def ofString (source : String) : List Reading :=
  all source.utf8ByteSize .initial (Lexeme.scan source)

end Reading

end Lisp
