import Lisp.Proofs.PrimitiveEffects

namespace Lisp

namespace Run

variable {ε σ α β : Type}

inductive Ends (I : σ → Prop) (P : α → Prop) (x : Run ε σ α) (s : σ) : Prop where
  | value {a : α} {s' : σ} (h : x s = .value a s') (hs : I s') (ha : P a)
  | error {e : ε} {s' : σ} (h : x s = .error e s') (hs : I s')

namespace Ends

variable {I J : σ → Prop} {P : α → Prop} {Q : β → Prop} {s : σ}

theorem pure {a : α} (hs : I s) (ha : P a) : Ends I P (Pure.pure a : Run ε σ α) s :=
  .value rfl hs ha

theorem throw {e : ε} (hs : I s) : Ends I P (Run.throw e : Run ε σ α) s :=
  .error rfl hs

theorem bind {x : Run ε σ α} {f : α → Run ε σ β} (hx : Ends I P x s)
    (hf : ∀ a s', I s' → P a → Ends I Q (f a) s') : Ends I Q (x >>= f) s := by
  cases hx with
  | value h hs ha =>
    cases hf _ _ hs ha with
    | value h' hs' hb => exact .value ((bind_value h f).trans h') hs' hb
    | error h' hs' => exact .error ((bind_value h f).trans h') hs'
  | error h hs => exact .error (bind_error h f) hs

theorem ofExcept_bind (hs : I s) (r : Except ε α) {f : α → Run ε σ β} (hf : ∀ a, r = .ok a → Ends I Q (f a) s) :
    Ends I Q (Run.ofExcept r >>= f) s := by
  cases r with
  | ok a => exact hf a rfl
  | error e => exact .error rfl hs

theorem mono {x : Run ε σ α} {P' : α → Prop} (hx : Ends I P x s) (hI : ∀ s', I s' → J s') (hP : ∀ a, P a → P' a) :
    Ends J P' x s := by
  cases hx with
  | value h hs ha => exact .value h (hI _ hs) (hP _ ha)
  | error h hs => exact .error h (hI _ hs)

end Ends

end Run

namespace Primitive

theorem apply_ends {I : World → Prop} {S : ScopeId → Prop} {w : World} (hI : ∀ w', w'.scopes = w.scopes → I w')
    {vs : List Expr} (hvs : ∀ v ∈ vs, v.Inside S) (table : Nat) (p : Primitive) :
    (p.apply table vs).Ends I (Expr.Inside S) w := by
  cases p.apply_leaf table vs w.next with
  | error e he => exact .error (he w rfl) (hI w rfl)
  | value v n hv hrun => exact .value (hrun w rfl) (hI _ rfl) (hv.inside hvs)

end Primitive

end Lisp
