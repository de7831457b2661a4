import Lisp.Eval
import Lisp.Proofs.Runs

namespace Lisp

namespace Run

variable {ε σ α β : Type}

def Below (x y : Run ε σ α) : Prop :=
  ∀ s, x s = .exhausted ∨ y s = x s

theorem Below.refl (x : Run ε σ α) : Below x x :=
  fun _ => .inr rfl

theorem Below.bind {x y : Run ε σ α} {f g : α → Run ε σ β} (hx : Below x y) (hf : ∀ a, Below (f a) (g a)) :
    Below (x >>= f) (y >>= g) := by
  intro s
  rcases hx s with h | h
  · exact .inl (bind_exhausted h f)
  · cases hs : x s with
    | value a s' =>
      rw [bind_value hs, bind_value (h.trans hs)]
      exact hf a s'
    | error e s' =>
      rw [bind_error hs, bind_error (h.trans hs)]
      exact .inr rfl
    | exhausted => exact .inl (bind_exhausted hs f)

end Run

def Evaluator.Below (ev ev' : Evaluator) : Prop :=
  ∀ scope e, Run.Below (ev scope e) (ev' scope e)

namespace Eval

variable {ev ev' : Evaluator}

theorem set_below (h : ev.Below ev') (scope : ScopeId) (e : Expr) : (set ev scope e).Below (set ev' scope e) := by
  apply (Run.Below.refl _).bind
  intro vs
  split
  · exact (h scope _).bind fun _ => .refl _
  · exact .refl _

theorem cond_below (h : ev.Below ev') (session : Session) (scope : ScopeId) (e : Expr) :
    (cond session ev scope e).Below (cond session ev' scope e) := by
  induction e with
  | pair i clause clauses _ ih =>
    rw [cond, cond]
    split
    · split
      · exact h scope _
      · apply (h scope _).bind
        intro v
        split
        · exact ih
        · exact h scope _
    · exact .refl _
  | _ => exact .refl _

theorem arguments_below (h : ev.Below ev') (scope : ScopeId) (es : List Expr) :
    (arguments ev scope es).Below (arguments ev' scope es) := by
  induction es with
  | nil => exact .refl _
  | cons e es ih => exact (h scope e).bind fun _ => ih.bind fun _ => .refl _

theorem apply_below (h : ev.Below ev') (session : Session) (f : Expr) (vs : List Expr) :
    (apply session ev f vs).Below (apply session ev' f vs) := by
  cases f with
  | function i params body scope => exact (Run.Below.refl _).bind fun _ => (Run.Below.refl _).bind fun j => h j body
  | _ => exact .refl _

theorem call_below (h : ev.Below ev') (session : Session) (scope : ScopeId) (head tail : Expr) :
    (call session ev scope head tail).Below (call session ev' scope head tail) := by
  apply (h scope head).bind
  intro f
  split
  · exact (arguments_below h scope _).bind fun vs => apply_below h session f vs
  · exact .refl _

theorem step_below (h : ev.Below ev') (session : Session) : Evaluator.Below (step session ev) (step session ev') := by
  intro scope e
  cases e with
  | pair i head tail =>
    rw [step, step]
    split
    · exact .refl _
    · exact set_below h scope tail
    · exact .refl _
    · exact cond_below h session scope tail
    · exact call_below h session scope head tail
  | _ => exact .refl _

end Eval

theorem eval_below (session : Session) {depth depth' : Nat} (h : depth ≤ depth') :
    Evaluator.Below (eval session depth) (eval session depth') := by
  induction depth generalizing depth' with
  | zero => exact fun _ _ _ => .inl rfl
  | succ depth ih =>
    obtain ⟨k, rfl⟩ : ∃ k, depth' = k + 1 := ⟨depth' - 1, by omega⟩
    exact Eval.step_below (ih (by omega)) session

end Lisp
