import Lisp.Symbol

namespace Lisp

inductive ReadError where
  | endOfInput
  | unterminatedString
  | unexpectedClose
  | unexpectedDot
  | expectedClose
  deriving DecidableEq

namespace ReadError

def isIncomplete : ReadError → Bool
  | endOfInput => true
  | unterminatedString => true
  | _ => false

def detail : ReadError → String
  | endOfInput => "unexpected end of input"
  | unterminatedString => "unterminated string literal"
  | unexpectedClose => "unexpected ')'"
  | unexpectedDot => "unexpected '.'"
  | expectedClose => "expected ')' after dotted pair"

end ReadError

inductive ErrorKind where
  | malformed
  | undefinedSymbol
  | typeMismatch
  | arityMismatch
  | divideByZero
  | applyNonFunction
  | atomDecomposition
  deriving DecidableEq

/-- Why a text cannot be read or an expression has no value. What an error says about an
expression is the expression's printed text. -/
inductive Error where
  | read (e : ReadError)
  | nothingToRead
  | operands (form : Keyword) (count : Nat) (got : String)
  | setTarget (got : String)
  | defunHeader (got : String)
  | defunName (got : String)
  | condClause (got : String)
  | condEnd (got : String)
  | argumentList (got : String)
  | unbound (name : String)
  | parameter (got : String)
  | argumentChain (got : String)
  | notNumber (operation got : String)
  | notString (operation got : String)
  | tooManyArguments (expected got : Nat)
  | tooFewArguments (expected got : Nat)
  | argumentCount (operation : String) (expected got : Nat)
  | noArgument (operation : String)
  | divideByZero
  | notApplicable (got : String)
  | noParts (operation got : String)
  deriving DecidableEq

namespace Error

def kind : Error → ErrorKind
  | read _ => .malformed
  | nothingToRead => .malformed
  | operands _ _ _ => .malformed
  | setTarget _ => .malformed
  | defunHeader _ => .malformed
  | defunName _ => .malformed
  | condClause _ => .malformed
  | condEnd _ => .malformed
  | argumentList _ => .malformed
  | unbound _ => .undefinedSymbol
  | parameter _ => .typeMismatch
  | argumentChain _ => .typeMismatch
  | notNumber _ _ => .typeMismatch
  | notString _ _ => .typeMismatch
  | tooManyArguments _ _ => .arityMismatch
  | tooFewArguments _ _ => .arityMismatch
  | argumentCount _ _ _ => .arityMismatch
  | noArgument _ => .arityMismatch
  | divideByZero => .divideByZero
  | notApplicable _ => .applyNonFunction
  | noParts _ _ => .atomDecomposition

def detail : Error → String
  | read e => e.detail
  | nothingToRead => "empty expression"
  | operands form count got =>
    form.name ++ " expects exactly " ++ toString count ++ " operand(s) in (... " ++ got ++ ")"
  | setTarget got => "SET expects a symbol, got " ++ got
  | defunHeader got => "DEFUN expects a (name . parameters) header, got " ++ got
  | defunName got => "DEFUN expects a symbol as function name, got " ++ got
  | condClause got => "malformed COND clause " ++ got
  | condEnd got => "malformed COND clause list ending in " ++ got
  | argumentList got => "malformed argument list " ++ got
  | unbound name => name
  | parameter got => "parameter " ++ got ++ " is not a symbol"
  | argumentChain got => "argument list " ++ got ++ " is not a list"
  | notNumber operation got => operation ++ " expects numbers, got " ++ got
  | notString operation got => operation ++ " expects a string, got " ++ got
  | tooManyArguments expected got =>
    "too many arguments: expected " ++ toString expected ++ ", got " ++ toString got
  | tooFewArguments expected got =>
    "too few arguments: expected " ++ toString expected ++ ", got " ++ toString got
  | argumentCount operation expected got =>
    operation ++ " expects " ++ toString expected ++ " argument(s), got " ++ toString got
  | noArgument operation => operation ++ " expects at least 1 argument, got 0"
  | divideByZero => ""
  | notApplicable got => got
  | noParts operation got => operation ++ " of " ++ got

def message (e : Error) : String :=
  match e.kind with
  | .malformed => "syntax error: " ++ e.detail
  | .undefinedSymbol => "undefined symbol: " ++ e.detail
  | .typeMismatch => "type mismatch: " ++ e.detail
  | .arityMismatch => "arity mismatch: " ++ e.detail
  | .divideByZero => "division by zero"
  | .applyNonFunction => "cannot apply " ++ e.detail
  | .atomDecomposition => "cannot decompose atom: " ++ e.detail

def isIncomplete : Error → Bool
  | read e => e.isIncomplete
  | _ => false

end Error

end Lisp
