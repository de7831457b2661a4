import Lisp.Run

namespace Lisp

variable {ε δ σ τ α β : Type}

namespace Outcome

def mapState (f : σ → τ) : Outcome ε σ α → Outcome ε τ α
  | value a s => value a (f s)
  | error e s => error e (f s)
  | exhausted => exhausted

theorem mapState_mapState {υ : Type} (f : σ → τ) (g : τ → υ) (o : Outcome ε σ α) :
    (o.mapState f).mapState g = o.mapState (fun s => g (f s)) := by
  cases o <;> rfl

theorem mapState_eq_value_iff {f : σ → τ} {o : Outcome ε σ α} {a : α} {t : τ} :
    o.mapState f = .value a t ↔ ∃ s, o = .value a s ∧ t = f s := by
  cases o with
  | value b s =>
    constructor
    · intro h
      cases h
      exact ⟨s, rfl, rfl⟩
    · rintro ⟨s', h, rfl⟩
      cases h
      rfl
  | _ => simp [mapState]

def value? : Outcome ε σ α → Option (α × σ)
  | value a s => some (a, s)
  | _ => none

theorem value?_eq_some_iff {o : Outcome ε σ α} {p : α × σ} : o.value? = some p ↔ o = .value p.1 p.2 := by
  cases o with
  | value a s => simp [value?, Prod.ext_iff]
  | _ => simp [value?]

end Outcome

namespace Run

theorem bind_apply (x : Run ε σ α) (f : α → Run ε σ β) (s : σ) :
    (x >>= f) s = match x s with
      | .value a s => f a s
      | .error e s => .error e s
      | .exhausted => .exhausted := rfl

theorem bind_value {x : Run ε σ α} {s s' : σ} {a : α} (h : x s = .value a s') (f : α → Run ε σ β) :
    (x >>= f) s = f a s' := by
  rw [bind_apply, h]

theorem bind_error {x : Run ε σ α} {s s' : σ} {e : ε} (h : x s = .error e s') (f : α → Run ε σ β) :
    (x >>= f) s = .error e s' := by
  rw [bind_apply, h]

theorem bind_exhausted {x : Run ε σ α} {s : σ} (h : x s = .exhausted) (f : α → Run ε σ β) :
    (x >>= f) s = .exhausted := by
  rw [bind_apply, h]

theorem exhausted_of_bind {x : Run ε σ α} {f : α → Run ε σ β} {s : σ} (h : (x >>= f) s = .exhausted) :
    x s = .exhausted ∨ ∃ a s', x s = .value a s' ∧ f a s' = .exhausted := by
  rw [bind_apply] at h
  cases hx : x s with
  | value a s' =>
    rw [hx] at h
    exact .inr ⟨a, s', rfl, h⟩
  | error e s' =>
    rw [hx] at h
    cases h
  | exhausted => exact .inl rfl

theorem value_of_bind {x : Run ε σ α} {f : α → Run ε σ β} {s s' : σ} {b : β} (h : (x >>= f) s = .value b s') :
    ∃ a s₁, x s = .value a s₁ ∧ f a s₁ = .value b s' := by
  rw [bind_apply] at h
  split at h
  · exact ⟨_, _, by assumption, h⟩
  · cases h
  · cases h

theorem id_map (x : Run ε σ α) : id <$> x = x := by
  funext s
  change (x >>= fun a => pure a) s = x s
  rw [bind_apply]
  cases x s <;> rfl

theorem bind_assoc {γ : Type} (x : Run ε σ α) (f : α → Run ε σ β) (g : β → Run ε σ γ) :
    x >>= f >>= g = x >>= fun a => f a >>= g := by
  funext s
  simp only [bind_apply]
  cases x s <;> rfl

instance : LawfulMonad (Run ε σ) :=
  LawfulMonad.mk' _ id_map (fun _ _ => rfl) bind_assoc

end Run

end Lisp
