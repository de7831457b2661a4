namespace Lisp

inductive Token where
  | leftParen
  | rightParen
  | quote
  | dot
  | string (text : String)
  | unterminated
  | literal (text : String)
  deriving DecidableEq

structure Lexeme where
  token : Token
  start : Nat
  stop : Nat
  deriving DecidableEq

end Lisp
