import Lisp.Eval
import Lisp.Proofs.Runs
import Mathlib.Tactic.SplitIfs

namespace Lisp

def Error.Final (e : Error) : Prop :=
  e.isIncomplete = false

namespace Run

variable {ε σ α β : Type}

def Fails (P : ε → Prop) (x : Run ε σ α) : Prop :=
  ∀ s e s', x s = .error e s' → P e

namespace Fails

variable {P : ε → Prop}

theorem pure (a : α) : Fails P (Pure.pure a : Run ε σ α) := by
  intro s e s' h
  cases h

theorem throw {e : ε} (he : P e) : Fails P (Run.throw e : Run ε σ α) := by
  intro s e' s' h
  cases h
  exact he

theorem bind {x : Run ε σ α} {f : α → Run ε σ β} (hx : Fails P x) (hf : ∀ a, Fails P (f a)) : Fails P (x >>= f) := by
  intro s e s' h
  rw [bind_apply] at h
  cases hs : x s with
  | value a s₁ =>
    rw [hs] at h
    exact hf a s₁ e s' h
  | error e₁ s₁ =>
    rw [hs] at h
    cases h
    exact hx s e s' hs
  | exhausted =>
    rw [hs] at h
    cases h

theorem ofExcept {r : Except ε α} (hr : ∀ e, r = .error e → P e) : Fails P (Run.ofExcept r : Run ε σ α) := by
  cases r with
  | ok a => exact pure a
  | error e => exact throw (hr e rfl)

end Fails

end Run

namespace Primitive

theorem one_final {p : Primitive} {vs : List Expr} {e : Error} (h : p.one vs = .error e) : e.Final := by
  unfold one at h
  split at h
  · cases h
  · cases h
    rfl

theorem two_final {p : Primitive} {vs : List Expr} {e : Error} (h : p.two vs = .error e) : e.Final := by
  unfold two at h
  split at h
  · cases h
  · cases h
    rfl

theorem number_final {p : Primitive} {v : Expr} {e : Error} (h : p.number v = .error e) : e.Final := by
  unfold number at h
  split at h
  · cases h
  · cases h
    rfl

theorem error_of_bind {α β : Type} {x : Except Error α} {f : α → Except Error β} {e : Error}
    (h : (x >>= f) = .error e) : x = .error e ∨ ∃ a, x = .ok a ∧ f a = .error e := by
  cases x with
  | error e' =>
    cases h
    exact .inl rfl
  | ok a => exact .inr ⟨a, rfl, h⟩

theorem numbers_final {p : Primitive} {vs : List Expr} {e : Error} (h : p.numbers vs = .error e) : e.Final := by
  induction vs with
  | nil => cases h
  | cons v vs ih =>
    rw [numbers, List.mapM_cons] at h
    obtain h | ⟨n, -, h⟩ := error_of_bind h
    · exact number_final h
    obtain h | ⟨ns, -, h⟩ := error_of_bind h
    · exact ih h
    · cases h

theorem divide_final {n d : Int64} {e : Error} (h : divide n d = .error e) : e.Final := by
  unfold divide at h
  split_ifs at h
  · cases h
    rfl

theorem difference_final {ns : List Int64} {e : Error} (h : difference ns = .error e) : e.Final := by
  unfold difference at h
  split at h
  · cases h
    rfl
  · cases h
  · cases h

theorem quotient_final {ns : List Int64} {e : Error} (h : quotient ns = .error e) : e.Final := by
  have fold (n : Int64) (ns : List Int64) (h : ns.foldlM divide n = .error e) : e.Final := by
    induction ns generalizing n with
    | nil => cases h
    | cons d ns ih =>
      rw [List.foldlM_cons] at h
      obtain h | ⟨k, -, h⟩ := error_of_bind h
      · exact divide_final h
      · exact ih k h
  unfold quotient at h
  split at h
  · cases h
    rfl
  · exact divide_final h
  · exact fold _ _ h

theorem compare_final (table : Nat) (p : Primitive) (test : Int64 → Int64 → Bool) (a b : Expr) :
    Run.Fails Error.Final
      (do pure (.truth table (test (← Run.ofExcept (p.number a)) (← Run.ofExcept (p.number b)))) :
        Run Error World Expr) := by
  apply Run.Fails.bind (.ofExcept fun _ => number_final)
  intro m
  exact .bind (.ofExcept fun _ => number_final) fun _ => .pure _

theorem apply_final (table : Nat) (p : Primitive) (vs : List Expr) : (p.apply table vs).Fails Error.Final := by
  cases p with
  | car =>
    apply Run.Fails.bind (.ofExcept fun _ => one_final)
    intro a
    cases a with
    | pair i h t => exact .pure _
    | _ => exact .throw rfl
  | cdr =>
    apply Run.Fails.bind (.ofExcept fun _ => one_final)
    intro a
    cases a with
    | pair i h t => exact .pure _
    | _ => exact .throw rfl
  | length =>
    apply Run.Fails.bind (.ofExcept fun _ => one_final)
    intro a
    cases a with
    | string i s => exact .pure _
    | _ => exact .throw rfl
  | cons =>
    apply Run.Fails.bind (.ofExcept fun _ => two_final)
    intro _ w e w' h
    cases h
  | eq => exact .bind (.ofExcept fun _ => two_final) fun _ => .pure _
  | equal => exact .bind (.ofExcept fun _ => two_final) fun _ => .pure _
  | atom => exact .bind (.ofExcept fun _ => one_final) fun _ => .pure _
  | isList => exact .bind (.ofExcept fun _ => one_final) fun _ => .pure _
  | add => exact .bind (.ofExcept fun _ => numbers_final) fun _ => .pure _
  | mul => exact .bind (.ofExcept fun _ => numbers_final) fun _ => .pure _
  | sub =>
    apply Run.Fails.bind (.ofExcept fun _ => numbers_final)
    intro ns
    exact .bind (.ofExcept fun _ => difference_final) fun _ => .pure _
  | div =>
    apply Run.Fails.bind (.ofExcept fun _ => numbers_final)
    intro ns
    exact .bind (.ofExcept fun _ => quotient_final) fun _ => .pure _
  | less =>
    apply Run.Fails.bind (.ofExcept fun _ => two_final)
    rintro ⟨a, b⟩
    exact compare_final table less (· < ·) a b
  | greater =>
    apply Run.Fails.bind (.ofExcept fun _ => two_final)
    rintro ⟨a, b⟩
    exact compare_final table greater (· > ·) a b
  | list =>
    intro w e w' h
    cases h
  | concat =>
    intro w e w' h
    cases h
  | print =>
    have hemit : (World.emit (line vs)).Fails Error.Final := by
      intro w e w' h
      unfold World.emit at h
      split at h <;> cases h
    exact hemit.bind fun _ => .pure _

end Primitive

namespace Scopes

theorem matchUp_final {formals arguments p a : Expr} {e : Error} (h : matchUp formals arguments p a = .error e) :
    e.Final := by
  induction p generalizing a with
  | symbol x =>
    rw [matchUp] at h
    split_ifs at h
    cases h
    rfl
  | pair i q ps _ ih =>
    cases q with
    | symbol x =>
      cases a with
      | pair k v vs =>
        rw [matchUp] at h
        cases hm : matchUp formals arguments ps vs with
        | ok bs => simp [hm] at h
        | error e' =>
          simp only [hm] at h
          cases h
          exact ih hm
      | _ =>
        simp only [matchUp] at h
        split_ifs at h <;> cases h <;> rfl
    | _ =>
      cases h
      rfl
  | _ =>
    cases h
    rfl

end Scopes

namespace World

theorem resolve_final (i : ScopeId) (x : Symbol) : (resolve i x).Fails Error.Final := by
  intro w e w' h
  rw [resolve, Scopes.resolve] at h
  cases hv : w.scopes.probe i x with
  | some v => simp [hv] at h
  | none =>
    simp only [hv] at h
    cases h
    rfl

theorem extend_final (i : ScopeId) (formals arguments : Expr) : (extend i formals arguments).Fails Error.Final := by
  intro w e w' h
  rw [extend] at h
  cases hm : Scopes.matchUp formals arguments formals arguments with
  | ok bs => simp [hm] at h
  | error e' =>
    simp only [hm] at h
    cases h
    exact Scopes.matchUp_final hm

end World

namespace Eval

variable {ev : Evaluator} (hev : ∀ scope e, (ev scope e).Fails Error.Final)

theorem operands_final {form : Keyword} {n : Nat} {e : Expr} {err : Error} (h : operands form n e = .error err) :
    err.Final := by
  unfold operands at h
  split at h
  · split at h
    · cases h
    · cases h
      rfl
  · cases h
    rfl

theorem quote_final (e : Expr) : (quote e).Fails Error.Final :=
  .bind (.ofExcept fun _ => operands_final) fun _ => .pure _

theorem defun_final (scope : ScopeId) (e : Expr) : (defun scope e).Fails Error.Final := by
  apply Run.Fails.bind (.ofExcept fun _ => operands_final)
  intro vs
  split
  · intro w err w' h
    cases h
  · exact .throw rfl
  · exact .throw rfl

include hev

theorem set_final (scope : ScopeId) (e : Expr) : (set ev scope e).Fails Error.Final := by
  apply Run.Fails.bind (.ofExcept fun _ => operands_final)
  intro vs
  split
  · apply Run.Fails.bind (hev _ _)
    intro v w err w' h
    cases h
  · exact .throw rfl

theorem cond_final (session : Session) (scope : ScopeId) (e : Expr) : (cond session ev scope e).Fails Error.Final := by
  have stop (e : Expr) : Run.Fails Error.Final
      (if e.isNil then pure session.nil else Run.throw (.condEnd e.print) : Run Error World Expr) := by
    split
    · exact .pure _
    · exact .throw rfl
  induction e with
  | pair i clause clauses _ ih =>
    rw [cond]
    split
    · split
      · exact hev _ _
      · apply Run.Fails.bind (hev _ _)
        intro v
        split
        · exact ih
        · exact hev _ _
    · exact .throw rfl
  | _ => exact stop _

theorem arguments_final (scope : ScopeId) (es : List Expr) : (arguments ev scope es).Fails Error.Final := by
  induction es with
  | nil => exact .pure _
  | cons e es ih =>
    apply Run.Fails.bind (hev _ _)
    intro v
    exact .bind ih fun _ => .pure _

theorem apply_final (session : Session) (f : Expr) (vs : List Expr) : (apply session ev f vs).Fails Error.Final := by
  cases f with
  | function i params body scope =>
    have hchain : (World.chain vs session.nil).Fails Error.Final := by
      intro w e w' h
      cases h
    apply hchain.bind
    intro arguments
    exact (World.extend_final _ _ _).bind fun inner => hev inner body
  | symbol x =>
    rw [apply]
    split
    · exact Primitive.apply_final _ _ _
    · exact .throw rfl
  | _ => exact .throw rfl

theorem call_final (session : Session) (scope : ScopeId) (head tail : Expr) :
    (call session ev scope head tail).Fails Error.Final := by
  apply Run.Fails.bind (hev _ _)
  intro f
  split
  · exact .bind (arguments_final hev _ _) fun vs => apply_final hev session f vs
  · exact .throw rfl

theorem step_final (session : Session) (scope : ScopeId) (e : Expr) : (step session ev scope e).Fails Error.Final := by
  cases e with
  | symbol x => exact World.resolve_final scope x
  | pair i head tail =>
    rw [step]
    split
    · exact quote_final tail
    · exact set_final hev scope tail
    · exact defun_final scope tail
    · exact cond_final hev session scope tail
    · exact call_final hev session scope head tail
  | _ => exact .pure _

end Eval

theorem eval_final (session : Session) (depth : Nat) (scope : ScopeId) (e : Expr) :
    (eval session depth scope e).Fails Error.Final := by
  induction depth generalizing scope e with
  | zero =>
    intro w err w' h
    cases h
  | succ depth ih => exact Eval.step_final ih session scope e

end Lisp
