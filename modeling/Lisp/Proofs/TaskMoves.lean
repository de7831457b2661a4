import Lisp.Proofs.EvaluationFrame
import Lisp.Proofs.PrimitiveEffects

namespace Lisp

structure Store where
  scopes : Scopes
  next : Ident

def Store.world (s : Store) (k : Sink) : World :=
  ⟨s.scopes, s.next, k⟩

def World.store (w : World) : Store :=
  ⟨w.scopes, w.next⟩

def Primitive.result (p : Primitive) (table : Nat) (vs : List Expr) (s : Store) : Except Error Expr × Store :=
  match p.apply table vs (s.world .closed) with
  | .value v w => (.ok v, w.store)
  | .error e w => (.error e, w.store)
  | .exhausted => (.error .nothingToRead, s)

inductive Task where
  | eval (scope : ScopeId) (e : Expr)
  | set (scope : ScopeId) (x : Symbol) (v : Expr)
  | clauses (scope : ScopeId) (e : Expr)
  | branch (scope : ScopeId) (result rest v : Expr)
  | operands (scope : ScopeId) (tail f : Expr)
  | arguments (scope : ScopeId) (f : Expr) (vs es : List Expr)
  | apply (f : Expr) (vs : List Expr)

/-- What is done about a task. It is done with at once, PRINT being told apart, or it turns into
another task, or an expression has to be evaluated before it goes on. -/
inductive Move where
  | done (result : Except Error Expr) (s : Store)
  | print (vs : List Expr)
  | become (t : Task) (s : Store)
  | first (scope : ScopeId) (e : Expr) (next : Expr → Task)

namespace Move

def fail (e : Error) (s : Store) : Move :=
  done (.error e) s

def check {α : Type} (r : Except Error α) (s : Store) (next : α → Move) : Move :=
  match r with
  | .ok a => next a
  | .error e => fail e s

def quote (s : Store) (e : Expr) : Move :=
  check (Eval.operands .quote 1 e) s (fun vs => done (.ok (vs.get ⟨0, Nat.zero_lt_one⟩)) s)

def set (s : Store) (scope : ScopeId) (e : Expr) : Move :=
  check (Eval.operands .set 2 e) s (fun vs =>
    match vs.get ⟨0, Nat.zero_lt_two⟩ with
    | .symbol x => first scope (vs.get ⟨1, Nat.one_lt_two⟩) (.set scope x)
    | target => fail (.setTarget target.print) s)

def defun (s : Store) (scope : ScopeId) (e : Expr) : Move :=
  check (Eval.operands .defun 2 e) s (fun vs =>
    match vs.get ⟨0, Nat.zero_lt_two⟩ with
    | .pair _ (.symbol f) params =>
      let v := .function s.next params (vs.get ⟨1, Nat.one_lt_two⟩) scope
      done (.ok (.symbol f)) ⟨s.scopes.define scope f v, s.next + 1⟩
    | .pair _ name _ => fail (.defunName name.print) s
    | header => fail (.defunHeader header.print) s)

def eval (session : Session) (s : Store) (scope : ScopeId) : Expr → Move
  | .symbol x => done (s.scopes.resolve scope x) s
  | .pair _ head tail =>
    match head.symbol?.bind session.keyword? with
    | some .quote => quote s tail
    | some .set => set s scope tail
    | some .defun => defun s scope tail
    | some .cond => become (.clauses scope tail) s
    | _ => first scope head (.operands scope tail)
  | e => done (.ok e) s

def clauses (session : Session) (s : Store) (scope : ScopeId) : Expr → Move
  | .pair _ clause rest =>
    match clause.toList? with
    | some [condition, result] =>
      if condition.symbol? = some (Keyword.t.symbol session.symbols.id) then become (.eval scope result) s
      else first scope condition (.branch scope result rest)
    | _ => fail (.condClause clause.print) s
  | e => if e.isNil then done (.ok session.nil) s else fail (.condEnd e.print) s

def operands (s : Store) (scope : ScopeId) (tail f : Expr) : Move :=
  match tail.toList? with
  | some es => become (.arguments scope f [] es) s
  | none => fail (.argumentList tail.print) s

def arguments (s : Store) (scope : ScopeId) (f : Expr) (vs : List Expr) : List Expr → Move
  | [] => become (.apply f vs) s
  | e :: es => first scope e (fun v => .arguments scope f (vs ++ [v]) es)

def apply (session : Session) (s : Store) (vs : List Expr) : Expr → Move
  | .function _ params body scope =>
    let arguments := Expr.chain s.next vs session.nil
    let s := { s with next := s.next + vs.length }
    check (Scopes.matchUp params arguments params arguments) s (fun bs =>
      let (inner, scopes) := s.scopes.enter scope bs
      become (.eval inner body) { s with scopes })
  | .symbol x =>
    match session.primitive? x with
    | some .print => print vs
    | some p =>
      let (result, s) := p.result session.symbols.id vs s
      done result s
    | none => fail (.notApplicable x.name) s
  | e => fail (.notApplicable e.print) s

end Move

namespace Task

def move (session : Session) (s : Store) : Task → Move
  | eval scope e => .eval session s scope e
  | set scope x v => .done (.ok v) ⟨s.scopes.set scope x v, s.next⟩
  | clauses scope e => .clauses session s scope e
  | branch scope result rest v => .become (if v.isNil then clauses scope rest else eval scope result) s
  | operands scope tail f => .operands s scope tail f
  | arguments scope f vs es => .arguments s scope f vs es
  | apply f vs => .apply session s vs f

variable (session : Session) (ev : Evaluator)

def run : Task → Run Error World Expr
  | eval scope e => ev scope e
  | set scope x v => do
    World.set scope x v
    pure v
  | clauses scope e => Eval.cond session ev scope e
  | branch scope result rest v => if v.isNil then Eval.cond session ev scope rest else ev scope result
  | operands scope tail f =>
    match tail.toList? with
    | some es => do Eval.apply session ev f (← Eval.arguments ev scope es)
    | none => Run.throw (.argumentList tail.print)
  | arguments scope f vs es => do Eval.apply session ev f (vs ++ (← Eval.arguments ev scope es))
  | apply f vs => Eval.apply session ev f vs

def unfold : Task → Run Error World Expr
  | eval scope e => Eval.step session ev scope e
  | t => t.run session ev

end Task

namespace Move

variable (session : Session) (ev : Evaluator)

def run : Move → Run Error World Expr
  | done (.ok v) s => fun w => .value v (s.world w.sink)
  | done (.error e) s => fun w => .error e (s.world w.sink)
  | print vs => do
    World.emit (Primitive.line vs)
    pure session.nil
  | become t s => fun w => t.run session ev (s.world w.sink)
  | first scope e next => do (next (← ev scope e)).run session ev

end Move

namespace Task

variable (session : Session) (ev : Evaluator)

variable (s : Store) (k : Sink) (scope : ScopeId)

theorem check_run {α : Type} (r : Except Error α) {f : α → Run Error World Expr} {next : α → Move}
    (h : ∀ a, f a (s.world k) = (next a).run session ev (s.world k)) :
    (Run.ofExcept r >>= f) (s.world k) = (Move.check r s next).run session ev (s.world k) := by
  cases r with
  | ok a => exact h a
  | error e => rfl

theorem quote_run (e : Expr) : Eval.quote e (s.world k) = (Move.quote s e).run session ev (s.world k) := by
  apply check_run
  intro vs
  rfl

theorem set_run (e : Expr) :
    Eval.set ev scope e (s.world k) = (Move.set s scope e).run session ev (s.world k) := by
  apply check_run
  intro vs
  cases vs.get ⟨0, by decide⟩ <;> rfl

theorem defun_run (e : Expr) :
    Eval.defun scope e (s.world k) = (Move.defun s scope e).run session ev (s.world k) := by
  apply check_run
  intro vs
  cases vs.get ⟨0, by decide⟩ with
  | pair i name params => cases name <;> rfl
  | _ => rfl

theorem eval_run (e : Expr) :
    Eval.step session ev scope e (s.world k) = (Move.eval session s scope e).run session ev (s.world k) := by
  cases e with
  | symbol x =>
    rw [Eval.step, World.resolve, Move.eval]
    dsimp only [Store.world]
    cases s.scopes.resolve scope x <;> rfl
  | pair i head tail =>
    rw [Eval.step, Move.eval]
    generalize head.symbol?.bind session.keyword? = form
    cases form with
    | none => rfl
    | some form =>
      cases form with
      | quote => exact quote_run session ev s k tail
      | set => exact set_run session ev s k scope tail
      | defun => exact defun_run session ev s k scope tail
      | _ => rfl
  | _ => rfl

theorem clauses_run (e : Expr) :
    Eval.cond session ev scope e (s.world k) = (Move.clauses session s scope e).run session ev (s.world k) := by
  have stop (e : Expr) : (if e.isNil then pure session.nil else Run.throw (.condEnd e.print)) (s.world k) =
      (if e.isNil then Move.done (.ok session.nil) s else .fail (.condEnd e.print) s).run session ev (s.world k) := by
    cases e.isNil <;> rfl
  cases e with
  | pair i clause rest =>
    rw [Eval.cond, Move.clauses]
    generalize clause.toList? = parts
    rcases parts with _ | _ | ⟨condition, _ | ⟨result, _ | ⟨third, more⟩⟩⟩
    · rfl
    · rfl
    · rfl
    · by_cases ht : condition.symbol? = some (Keyword.t.symbol session.symbols.id)
      · simp only [if_pos ht]
        rfl
      · simp only [if_neg ht]
        rfl
    · rfl
  | _ => exact stop _

theorem operands_run (tail f : Expr) :
    (operands scope tail f).run session ev (s.world k) = (Move.operands s scope tail f).run session ev (s.world k) := by
  rw [run, Move.operands]
  cases tail.toList? <;> rfl

theorem arguments_run (f : Expr) (vs es : List Expr) :
    (arguments scope f vs es).run session ev (s.world k) =
      (Move.arguments s scope f vs es).run session ev (s.world k) := by
  cases es with
  | nil =>
    rw [run, Eval.arguments, pure_bind, List.append_nil]
    rfl
  | cons e es =>
    have hrest (v : Expr) : (arguments scope f (vs ++ [v]) es).run session ev =
        (do Eval.apply session ev f (vs ++ v :: (← Eval.arguments ev scope es))) := by
      simp only [run, List.append_assoc, List.singleton_append]
    rw [run, Eval.arguments, Move.arguments, Move.run]
    simp only [hrest, bind_assoc, pure_bind]

theorem primitive_run {p : Primitive} (hp : p ≠ .print) (vs : List Expr) :
    p.apply session.symbols.id vs (s.world k) =
      (Move.done (p.result session.symbols.id vs s).1 (p.result session.symbols.id vs s).2).run session ev
        (s.world k) := by
  have hout : p.output vs = "" := by rw [Primitive.output, if_neg hp]
  cases p.apply_leaf session.symbols.id vs s.next with
  | error e h =>
    rw [Primitive.result, h (s.world .closed) rfl, h (s.world k) rfl]
    rfl
  | value v n _ h =>
    rw [hout] at h
    rw [Primitive.result, h (s.world .closed) rfl, h (s.world k) rfl, Sink.push_empty]
    rfl

theorem apply_run (f : Expr) (vs : List Expr) :
    Eval.apply session ev f vs (s.world k) = (Move.apply session s vs f).run session ev (s.world k) := by
  cases f with
  | function i params body scope =>
    let arguments := Expr.chain s.next vs session.nil
    let s' : Store := { s with next := s.next + vs.length }
    have hchain : World.chain vs session.nil (s.world k) = .value arguments (s'.world k) := rfl
    rw [Eval.apply, Run.bind_value hchain, Move.apply]
    cases hm : Scopes.matchUp params arguments params arguments with
    | error e =>
      have hextend : World.extend scope params arguments (s'.world k) = .error e (s'.world k) := by
        rw [World.extend, hm]
      rw [Run.bind_error hextend]
      rfl
    | ok bs =>
      have hextend : World.extend scope params arguments (s'.world k) =
          .value (s.scopes.enter scope bs).1 (Store.world ⟨(s.scopes.enter scope bs).2, s'.next⟩ k) := by
        rw [World.extend, hm]
        rfl
      rw [Run.bind_value hextend]
      rfl
  | symbol x =>
    rw [Eval.apply, Move.apply]
    cases session.primitive? x with
    | none => rfl
    | some p =>
      cases p with
      | print => rfl
      | _ => exact primitive_run session ev s k (by simp) vs
  | _ => rfl

theorem unfold_eq (t : Task) :
    t.unfold session ev (s.world k) = (t.move session s).run session ev (s.world k) := by
  cases t with
  | eval scope e => exact eval_run session ev s k scope e
  | set scope x v => rfl
  | clauses scope e => exact clauses_run session ev s k scope e
  | branch scope result rest v =>
    cases hv : v.isNil <;> simp [unfold, run, move, Move.run, hv, Store.world]
  | operands scope tail f => exact operands_run session ev s k scope tail f
  | arguments scope f vs es => exact arguments_run session ev s k scope f vs es
  | apply f vs => exact apply_run session ev s k f vs

end Task

end Lisp
