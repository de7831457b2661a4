import Lisp.Proofs.RepeatedRuns
import Lisp.Proofs.Termination

namespace Lisp

def Evaluator.Repeats (ρ : Rerun) (ev : Evaluator) : Prop :=
  ∀ w w' i e, World.Echo ρ w w' → ρ.Place i → e.ReadOnly ρ →
    World.Repeats ρ (Expr.Echo ρ) (ev i e) (ev (ρ.scope i) e) w w'

namespace Eval

open World (Repeats)

variable {ρ : Rerun} {session : Session} {ev : Evaluator} {w w' : World} {i : ScopeId} {e : Expr}

theorem quote_repeats (h : World.Echo ρ w w') (he : e.ReadOnly ρ) :
    Repeats ρ (Expr.Echo ρ) (quote e) (quote e) w w' := by
  apply Repeats.ofExcept_bind h
  intro vs hvs
  have hv := he.elements _ (operands_mem hvs _ (Vector.getElem_mem (i := 0) (by decide)))
  exact .pure h hv.echo

theorem arguments_repeats (hev : ev.Repeats ρ) (h : World.Echo ρ w w') (hi : ρ.Place i) {es : List Expr}
    (hes : ∀ e ∈ es, e.ReadOnly ρ) :
    Repeats ρ (List.Forall₂ (Expr.Echo ρ)) (arguments ev i es) (arguments ev (ρ.scope i) es) w w' := by
  induction es generalizing w w' with
  | nil => exact .pure h .nil
  | cons e es ih =>
    apply (hev w w' i e h hi (hes e (by simp))).bind
    intro v u w₁ w₁' h₁ hv
    apply (ih h₁ (fun e' he' => hes e' (by simp [he']))).bind
    intro vs us w₂ w₂' h₂ hvs
    exact .pure h₂ (.cons hv hvs)

theorem apply_repeats (hev : ev.Repeats ρ) (h : World.Echo ρ w w') {f f' : Expr} (hf : f.Echo ρ f') {vs us : List Expr}
    (hvs : List.Forall₂ (Expr.Echo ρ) vs us) :
    Repeats ρ (Expr.Echo ρ) (apply session ev f vs) (apply session ev f' us) w w' := by
  have hstop : Repeats ρ (Expr.Echo ρ) (Run.throw (.notApplicable f.print)) (Run.throw (.notApplicable f'.print))
      w w' := by
    rw [(Expr.echo_likeness ρ).print hf]
    exact .throw h _
  cases hf with
  | function n params hs hb =>
    have hchain : Repeats ρ (Expr.Echo ρ) (World.chain vs session.nil) (World.chain us session.nil) w w' :=
      .of_concur h (.chain hvs.length_eq (h.next ▸ .chain h.idents_le hvs (.symbol _)))
    apply hchain.bind
    intro a a' w₁ w₁' h₁ ha
    have hextend := Repeats.extend h₁ (.inl hs) params ha
    rw [Rerun.scope_reach hs] at hextend
    apply hextend.bind
    rintro inner _ w₂ w₂' h₂ ⟨hinner, rfl⟩
    exact hev w₂ w₂' inner _ h₂ hinner hb
  | symbol x =>
    rw [apply, apply]
    split
    · exact Primitive.apply_repeats h _ hvs _
    · exact .throw h _
  | _ => exact hstop

theorem call_repeats (hev : ev.Repeats ρ) (h : World.Echo ρ w w') (hi : ρ.Place i) {head tail : Expr}
    (hh : head.ReadOnly ρ) (ht : tail.ReadOnly ρ) :
    Repeats ρ (Expr.Echo ρ) (call session ev i head tail) (call session ev (ρ.scope i) head tail) w w' := by
  apply (hev w w' i head h hi hh).bind
  intro f f' w₁ w₁' h₁ hf
  cases hlist : tail.toList? with
  | none => exact .throw h₁ _
  | some es =>
    have hes := ht.elements
    rw [toList?_elements hlist] at hes
    apply (arguments_repeats hev h₁ hi hes).bind
    intro vs us w₂ w₂' h₂ hvs
    exact apply_repeats hev h₂ hf hvs

theorem cond_repeats (hev : ev.Repeats ρ) (h : World.Echo ρ w w') (hi : ρ.Place i) (he : e.ReadOnly ρ) :
    Repeats ρ (Expr.Echo ρ) (cond session ev i e) (cond session ev (ρ.scope i) e) w w' := by
  have stop {w w' : World} (h : World.Echo ρ w w') (x : Expr) : Repeats ρ (Expr.Echo ρ)
      (if x.isNil then pure session.nil else Run.throw (.condEnd x.print))
      (if x.isNil then pure session.nil else Run.throw (.condEnd x.print)) w w' := by
    split
    · exact .pure h (.symbol _)
    · exact .throw h _
  induction e generalizing w w' with
  | pair n clause clauses _ ih =>
    obtain ⟨-, hclause, hclauses⟩ := he
    rw [cond, cond]
    split
    · rename_i condition result hlist
      have parts := hclause.elements
      rw [toList?_elements hlist] at parts
      have hresult : result.ReadOnly ρ := parts result (by simp)
      split
      · exact hev w w' i result h hi hresult
      · apply (hev w w' i condition h hi (parts condition (by simp))).bind
        intro v u w₁ w₁' h₁ hv
        rw [(Expr.echo_likeness ρ).isNil hv]
        split
        · exact ih h₁ hclauses
        · exact hev w₁ w₁' i result h₁ hi hresult
    · exact .throw h _
  | _ => exact stop h _

theorem step_repeats (hid : session.symbols.id = ρ.table) (hev : ev.Repeats ρ) :
    Evaluator.Repeats ρ (step session ev) := by
  intro w w' i e h hi he
  cases e with
  | symbol x => exact .resolve h hi x
  | pair n head tail =>
    obtain ⟨-, hh, ht⟩ := he
    rw [step, step]
    split
    · exact quote_repeats h ht
    · rename_i hk
      rw [head_keyword hk, hid] at hh
      exact absurd rfl hh.1
    · rename_i hk
      rw [head_keyword hk, hid] at hh
      exact absurd rfl hh.2
    · exact cond_repeats hev h hi ht
    · exact call_repeats hev h hi hh ht
  | _ => exact .pure h he.echo

end Eval

theorem eval_repeats {ρ : Rerun} {session : Session} (hid : session.symbols.id = ρ.table) (depth : Nat) :
    Evaluator.Repeats ρ (eval session depth) := by
  induction depth with
  | zero => exact fun _ _ _ _ _ _ _ => .exhausted rfl rfl
  | succ depth ih => exact Eval.step_repeats hid ih

end Lisp
