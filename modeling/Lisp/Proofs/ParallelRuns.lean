import Lisp.Proofs.EvaluationFrame
import Lisp.Proofs.Likeness

namespace Lisp

namespace Run

variable {ε σ τ α β γ δ : Type}

/-- Two runs side by side that end in the same way or do not end. `A` says how the two states that
they leave correspond, and `P` how the two values do, both by an index that the runs choose. -/
inductive Abreast {ι : Type} (A : ι → σ → τ → Prop) (P : ι → α → β → Prop) (x : Run ε σ α) (y : Run ε τ β) (s : σ)
    (t : τ) : Prop where
  | value {L : ι} {a : α} {b : β} {s' : σ} {t' : τ} (h₁ : x s = .value a s') (h₂ : y t = .value b t')
    (h : A L s' t') (hab : P L a b)
  | error {L : ι} {e : ε} {s' : σ} {t' : τ} (h₁ : x s = .error e s') (h₂ : y t = .error e t') (h : A L s' t')
  | exhausted (h₁ : x s = .exhausted) (h₂ : y t = .exhausted)

namespace Abreast

variable {ι : Type} {A A' : ι → σ → τ → Prop} {P : ι → α → β → Prop} {Q : ι → γ → δ → Prop} {x : Run ε σ α}
  {y : Run ε τ β} {s : σ} {t : τ}

theorem bind {f : α → Run ε σ γ} {g : β → Run ε τ δ} (hx : Abreast A P x y s t)
    (hf : ∀ L a b s' t', A L s' t' → P L a b → Abreast A Q (f a) (g b) s' t') :
    Abreast A Q (x >>= f) (y >>= g) s t := by
  cases hx with
  | value h₁ h₂ h hab =>
    cases hf _ _ _ _ _ h hab with
    | value h₁' h₂' h' hcd => exact .value ((bind_value h₁ f).trans h₁') ((bind_value h₂ g).trans h₂') h' hcd
    | error h₁' h₂' h' => exact .error ((bind_value h₁ f).trans h₁') ((bind_value h₂ g).trans h₂') h'
    | exhausted h₁' h₂' => exact .exhausted ((bind_value h₁ f).trans h₁') ((bind_value h₂ g).trans h₂')
  | error h₁ h₂ h => exact .error (bind_error h₁ f) (bind_error h₂ g) h
  | exhausted h₁ h₂ => exact .exhausted (bind_exhausted h₁ f) (bind_exhausted h₂ g)

theorem mono (hx : Abreast A P x y s t) (hA : ∀ L s' t', A L s' t' → A' L s' t') : Abreast A' P x y s t := by
  cases hx with
  | value h₁ h₂ h hab => exact .value h₁ h₂ (hA _ _ _ h) hab
  | error h₁ h₂ h => exact .error h₁ h₂ (hA _ _ _ h)
  | exhausted h₁ h₂ => exact .exhausted h₁ h₂

theorem congr {x' : Run ε σ α} {y' : Run ε τ β} (hx : Abreast A P x y s t) (h : x' s = x s) (h' : y' t = y t) :
    Abreast A P x' y' s t := by
  cases hx with
  | value h₁ h₂ hs hab => exact .value (h.trans h₁) (h'.trans h₂) hs hab
  | error h₁ h₂ hs => exact .error (h.trans h₁) (h'.trans h₂) hs
  | exhausted h₁ h₂ => exact .exhausted (h.trans h₁) (h'.trans h₂)

theorem ending {x : Run Error σ α} {y : Run Error τ β} (h : Abreast A P x y s t) :
    ((x s).ending? = none ∧ (y t).ending? = none) ∨ ∃ L r r' s' t', (x s).ending? = some (r, s') ∧
      (y t).ending? = some (r', t') ∧ A L s' t' ∧ Agree (P L) r r' := by
  cases h with
  | value h₁ h₂ h hab => exact .inr ⟨_, _, _, _, _, by rw [h₁]; rfl, by rw [h₂]; rfl, h, .ok hab⟩
  | error h₁ h₂ h => exact .inr ⟨_, _, _, _, _, by rw [h₁]; rfl, by rw [h₂]; rfl, h, .error _⟩
  | exhausted h₁ h₂ => exact .inl ⟨by rw [h₁]; rfl, by rw [h₂]; rfl⟩

end Abreast

end Run

end Lisp
