import Lisp.Session

namespace Lisp

abbrev Evaluator := ScopeId → Expr → Run Error World Expr

namespace Eval

def operands (form : Keyword) (n : Nat) (e : Expr) : Except Error (Vector Expr n) :=
  match e.toList? with
  | some vs =>
    if h : vs.length = n then .ok ⟨vs.toArray, by simp [h]⟩
    else .error (.operands form n e.print)
  | none => .error (.operands form n e.print)

def quote (e : Expr) : Run Error World Expr := do
  let vs ← Run.ofExcept (operands .quote 1 e)
  pure (vs.get ⟨0, by decide⟩)

def set (ev : Evaluator) (scope : ScopeId) (e : Expr) : Run Error World Expr := do
  let vs ← Run.ofExcept (operands .set 2 e)
  match vs.get ⟨0, by decide⟩ with
  | .symbol x =>
    let v ← ev scope (vs.get ⟨1, by decide⟩)
    World.set scope x v
    pure v
  | target => Run.throw (.setTarget target.print)

def defun (scope : ScopeId) (e : Expr) : Run Error World Expr := do
  let vs ← Run.ofExcept (operands .defun 2 e)
  match vs.get ⟨0, by decide⟩ with
  | .pair _ (.symbol f) params =>
    let v ← World.fresh (fun i => .function i params (vs.get ⟨1, by decide⟩) scope)
    World.define scope f v
    pure (.symbol f)
  | .pair _ name _ => Run.throw (.defunName name.print)
  | header => Run.throw (.defunHeader header.print)

/-- Clauses are tried in order. A condition that is the symbol T itself is not evaluated. -/
def cond (session : Session) (ev : Evaluator) (scope : ScopeId) : Expr → Run Error World Expr
  | .pair _ clause clauses =>
    match clause.toList? with
    | some [condition, result] =>
      if condition.symbol? = some (Keyword.t.symbol session.symbols.id) then ev scope result
      else do
        let v ← ev scope condition
        if v.isNil then cond session ev scope clauses else ev scope result
    | _ => Run.throw (.condClause clause.print)
  | e => if e.isNil then pure session.nil else Run.throw (.condEnd e.print)

def arguments (ev : Evaluator) (scope : ScopeId) : List Expr → Run Error World (List Expr)
  | [] => pure []
  | e :: es => do
    let v ← ev scope e
    let vs ← arguments ev scope es
    pure (v :: vs)

def apply (session : Session) (ev : Evaluator) (f : Expr) (vs : List Expr) :
    Run Error World Expr :=
  match f with
  | .function _ params body scope => do
    let arguments ← World.chain vs session.nil
    let inner ← World.extend scope params arguments
    ev inner body
  | .symbol x =>
    match session.primitive? x with
    | some p => p.apply session.symbols.id vs
    | none => Run.throw (.notApplicable x.name)
  | e => Run.throw (.notApplicable e.print)

def call (session : Session) (ev : Evaluator) (scope : ScopeId) (head tail : Expr) :
    Run Error World Expr := do
  let f ← ev scope head
  match tail.toList? with
  | some es =>
    let vs ← arguments ev scope es
    apply session ev f vs
  | none => Run.throw (.argumentList tail.print)

def step (session : Session) (ev : Evaluator) (scope : ScopeId) : Expr → Run Error World Expr
  | .symbol x => World.resolve scope x
  | .pair _ head tail =>
    match head.symbol?.bind session.keyword? with
    | some .quote => quote tail
    | some .set => set ev scope tail
    | some .defun => defun scope tail
    | some .cond => cond session ev scope tail
    | _ => call session ev scope head tail
  | e => pure e

end Eval

def eval (session : Session) : (depth : Nat) → Evaluator
  | 0 => fun _ _ => Run.exhaust
  | depth + 1 => Eval.step session (eval session depth)

def apply (session : Session) (depth : Nat) (f : Expr) (vs : List Expr) : Run Error World Expr :=
  Eval.apply session (eval session depth) f vs

end Lisp
