import Lisp.Expr.Equal
import Lisp.World

namespace Lisp

inductive Primitive where
  | car
  | cdr
  | cons
  | list
  | eq
  | equal
  | atom
  | isList
  | concat
  | length
  | add
  | sub
  | mul
  | div
  | less
  | greater
  | print
  deriving DecidableEq

namespace Primitive

def name : Primitive → String
  | car => "CAR"
  | cdr => "CDR"
  | cons => "CONS"
  | list => "LIST"
  | eq => "EQ"
  | equal => "EQUAL"
  | atom => "ATOM"
  | isList => "LIST?"
  | concat => "CONCAT"
  | length => "LENGTH"
  | add => "+"
  | sub => "-"
  | mul => "*"
  | div => "/"
  | less => "<"
  | greater => ">"
  | print => "PRINT"

def names : List (String × Primitive) :=
  [("CAR", car), ("FIRST", car), ("CDR", cdr), ("REST", cdr), ("CONS", cons), ("LIST", list),
   ("EQ", eq), ("EQUAL", equal), ("EQUAL?", equal), ("=", equal), ("ATOM", atom),
   ("LIST?", isList), ("CONCAT", concat), ("LENGTH", length), ("+", add), ("ADD", add),
   ("-", sub), ("SUB", sub), ("*", mul), ("MUL", mul), ("/", div), ("DIV", div), ("<", less),
   ("LESS", less), (">", greater), ("GREATER", greater), ("PRINT", print)]

def one (p : Primitive) : List Expr → Except Error Expr
  | [a] => .ok a
  | vs => .error (.argumentCount p.name 1 vs.length)

def two (p : Primitive) : List Expr → Except Error (Expr × Expr)
  | [a, b] => .ok (a, b)
  | vs => .error (.argumentCount p.name 2 vs.length)

def number (p : Primitive) : Expr → Except Error Int64
  | .number n => .ok n
  | e => .error (.notNumber p.name e.print)

def numbers (p : Primitive) (vs : List Expr) : Except Error (List Int64) :=
  vs.mapM p.number

def plainText : Expr → String
  | .string _ s => s
  | e => e.print

def difference : List Int64 → Except Error Int64
  | [] => .error (.noArgument sub.name)
  | [n] => .ok (-n)
  | n :: ns => .ok (ns.foldl (· - ·) n)

def divide (n d : Int64) : Except Error Int64 :=
  if d = 0 then .error .divideByZero else .ok (n / d)

def quotient : List Int64 → Except Error Int64
  | [] => .error (.noArgument div.name)
  | [n] => divide 1 n
  | n :: ns => ns.foldlM divide n

def line (vs : List Expr) : String :=
  String.join (vs.map (fun v => v.print ++ " ")) ++ "\n"

/-- What a primitive does to its arguments. Truth values are the symbols of the given table. -/
def apply (table : Nat) (p : Primitive) (vs : List Expr) : Run Error World Expr :=
  match p with
  | car => do
    match ← Run.ofExcept (one car vs) with
    | .pair _ h _ => pure h
    | e => Run.throw (.noParts car.name e.print)
  | cdr => do
    match ← Run.ofExcept (one cdr vs) with
    | .pair _ _ t => pure t
    | e => Run.throw (.noParts cdr.name e.print)
  | cons => do
    let (h, t) ← Run.ofExcept (two cons vs)
    World.fresh (fun i => .pair i h t)
  | list => World.chain vs (.nil table)
  | eq => do
    let (a, b) ← Run.ofExcept (two eq vs)
    pure (.truth table (a.identical b))
  | equal => do
    let (a, b) ← Run.ofExcept (two equal vs)
    pure (.truth table (a.equal b))
  | atom => do
    let e ← Run.ofExcept (one atom vs)
    pure (.truth table e.isAtom)
  | isList => do
    let e ← Run.ofExcept (one isList vs)
    pure (.truth table e.isList)
  | concat => World.fresh (fun i => .string i (String.join (vs.map plainText)))
  | length => do
    match ← Run.ofExcept (one length vs) with
    | .string _ s => pure (.number (Int64.ofNat s.length))
    | e => Run.throw (.notString length.name e.print)
  | add => do
    let ns ← Run.ofExcept (add.numbers vs)
    pure (.number (ns.foldl (· + ·) 0))
  | sub => do
    let ns ← Run.ofExcept (sub.numbers vs)
    pure (.number (← Run.ofExcept (difference ns)))
  | mul => do
    let ns ← Run.ofExcept (mul.numbers vs)
    pure (.number (ns.foldl (· * ·) 1))
  | div => do
    let ns ← Run.ofExcept (div.numbers vs)
    pure (.number (← Run.ofExcept (quotient ns)))
  | less => do
    let (a, b) ← Run.ofExcept (two less vs)
    let m ← Run.ofExcept (less.number a)
    let n ← Run.ofExcept (less.number b)
    pure (.truth table (m < n))
  | greater => do
    let (a, b) ← Run.ofExcept (two greater vs)
    let m ← Run.ofExcept (greater.number a)
    let n ← Run.ofExcept (greater.number b)
    pure (.truth table (m > n))
  | print => do
    World.emit (line vs)
    pure (.nil table)

end Primitive

end Lisp
