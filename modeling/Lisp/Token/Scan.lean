import Lisp.Text.Blank
import Lisp.Token

namespace Lisp

/-- What the characters read so far leave open. Texts are kept last character first. -/
inductive Mode where
  | between
  | comment
  | literal (start : Nat) (text : List Char)
  | string (start : Nat) (text : List Char)
  | escape (start : Nat) (text : List Char)

namespace Mode

def isDelimiter (c : Char) : Bool :=
  Text.isBlank c || c == '(' || c == ')' || c == '\'' || c == ';' || c == '"'

def unescape : Char → Char
  | 'n' => '\n'
  | 't' => '\t'
  | 'r' => '\r'
  | c => c

/-- A token may start at `c`. A dot is a token by itself here and nowhere else. -/
def fresh (offset : Nat) (c : Char) : List Lexeme × Mode :=
  if Text.isBlank c then ([], between)
  else if c = ';' then ([], comment)
  else if c = '"' then ([], string offset [])
  else if c = '(' then ([⟨.leftParen, offset, offset + 1⟩], between)
  else if c = ')' then ([⟨.rightParen, offset, offset + 1⟩], between)
  else if c = '\'' then ([⟨.quote, offset, offset + 1⟩], between)
  else if c = '.' then ([⟨.dot, offset, offset + 1⟩], between)
  else ([], literal offset [c])

def closeLiteral (start : Nat) (text : List Char) (stop : Nat) : Lexeme :=
  ⟨.literal (String.ofList text.reverse), start, stop⟩

def step (offset : Nat) (c : Char) : Mode → List Lexeme × Mode
  | between => fresh offset c
  | comment => ([], if c = '\n' then between else comment)
  | literal start text =>
    if isDelimiter c then
      let (ls, m) := fresh offset c
      (closeLiteral start text offset :: ls, m)
    else ([], literal start (c :: text))
  | string start text =>
    if c = '"' then ([⟨.string (String.ofList text.reverse), start, offset + 1⟩], between)
    else if c = '\\' then ([], escape start text)
    else ([], string start (c :: text))
  | escape start text => ([], string start (unescape c :: text))

def finish (offset : Nat) : Mode → List Lexeme
  | between => []
  | comment => []
  | literal start text => [closeLiteral start text offset]
  | string start _ => [⟨.unterminated, start, offset⟩]
  | escape start _ => [⟨.unterminated, start, offset⟩]

end Mode

namespace Lexeme

def scanFrom (m : Mode) (offset : Nat) : List Char → List Lexeme
  | [] => m.finish offset
  | c :: cs =>
    let (ls, m') := m.step offset c
    ls ++ scanFrom m' (offset + c.utf8Size) cs

def scan (source : String) : List Lexeme :=
  scanFrom .between 0 source.toList

end Lexeme

end Lisp
