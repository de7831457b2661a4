import Lisp.Proofs.Reachability

namespace Lisp.Scopes

variable {R : ScopeId → Prop} {base : Nat}

def Region (R : ScopeId → Prop) (base : Nat) (r : Scopes) (j : ScopeId) : Prop :=
  R j ∨ base ≤ j ∧ j < r.all.size

theorem Region.mono {r r' : Scopes} (h : r.all.size ≤ r'.all.size) {j : ScopeId} (hj : r.Region R base j) :
    r'.Region R base j :=
  hj.imp id (fun ⟨hb, hs⟩ => ⟨hb, Nat.lt_of_lt_of_le hs h⟩)

structure Spared (R : ScopeId → Prop) (base : Nat) (r r' : Scopes) : Prop where
  grows : r.all.size ≤ r'.all.size
  same : ∀ i, i < base → ¬ R i → r'.all[i]? = r.all[i]?

theorem create_region {r : Scopes} (hb : base ≤ r.all.size) (parent : Option ScopeId) :
    (r.create parent).2.Region R base (r.create parent).1 :=
  .inr ⟨hb, by simp [create]⟩

namespace Spared

theorem refl (r : Scopes) : Spared R base r r :=
  ⟨Nat.le_refl _, fun _ _ _ => rfl⟩

theorem trans {r r' r'' : Scopes} (h : Spared R base r r') (h' : Spared R base r' r'') : Spared R base r r'' :=
  ⟨Nat.le_trans h.grows h'.grows, fun i hi hr => (h'.same i hi hr).trans (h.same i hi hr)⟩

theorem define {r : Scopes} {i : ScopeId} (hi : r.Region R base i) (x : Symbol) (v : Expr) :
    Spared R base r (r.define i x v) := by
  refine ⟨by simp [Scopes.define], fun j hj hr => ?_⟩
  have hne : i ≠ j := by
    rintro rfl
    rcases hi with hi | ⟨hb, -⟩
    · exact hr hi
    · omega
  simp [Scopes.define, Array.getElem?_modify, hne]

theorem create {r : Scopes} (hb : base ≤ r.all.size) (parent : Option ScopeId) :
    Spared R base r (r.create parent).2 := by
  refine ⟨by simp [Scopes.create], fun i hi _ => ?_⟩
  have hne : i ≠ r.all.size := by omega
  simp [Scopes.create, Array.getElem?_push, hne]

theorem defineAll {r : Scopes} {i : ScopeId} (hi : r.Region R base i) (bs : List (Symbol × Expr)) :
    Spared R base r (bs.foldl (fun r b => r.define i b.1 b.2) r) := by
  induction bs generalizing r with
  | nil => exact refl r
  | cons b bs ih =>
    have hd := define (R := R) hi b.1 b.2
    exact hd.trans (ih (hi.mono hd.grows))

theorem enter {r : Scopes} (hb : base ≤ r.all.size) (i : ScopeId) (bs : List (Symbol × Expr)) :
    Spared R base r (r.enter i bs).2 :=
  (create hb (some i)).trans (defineAll (create_region hb (some i)) bs)

end Spared

theorem enter_region {r : Scopes} (hb : base ≤ r.all.size) (i : ScopeId) (bs : List (Symbol × Expr)) :
    (r.enter i bs).2.Region R base (r.enter i bs).1 :=
  have hj : (r.create (some i)).2.Region R base r.all.size := create_region hb (some i)
  hj.mono (Spared.defineAll hj bs).grows

structure Alike (R : ScopeId → Prop) (base : Nat) (r₁ r₂ : Scopes) : Prop where
  base_le : base ≤ r₁.all.size
  size : r₂.all.size = r₁.all.size
  same : ∀ i, r₁.Region R base i → r₂.all[i]? = r₁.all[i]?
  closed : Closed (r₁.Region R base) r₁

namespace Alike

variable {r₁ r₂ : Scopes}

theorem region (h : Alike R base r₁ r₂) {j : ScopeId} : r₂.Region R base j ↔ r₁.Region R base j := by
  rw [Region, Region, h.size]

theorem chainUpTo (h : Alike R base r₁ r₂) (n : Nat) {i : ScopeId} (hi : r₁.Region R base i) :
    r₂.chainUpTo n i = r₁.chainUpTo n i := by
  induction n generalizing i with
  | zero => rfl
  | succ n ih =>
    have hp : r₂.parent? i = r₁.parent? i := by rw [parent?, parent?, h.same i hi]
    rw [Scopes.chainUpTo, Scopes.chainUpTo, hp]
    cases hq : r₁.parent? i with
    | none => rfl
    | some p =>
      dsimp only
      rw [ih (h.closed.parent hi hq)]

theorem chain (h : Alike R base r₁ r₂) {i : ScopeId} (hi : r₁.Region R base i) : r₂.chain i = r₁.chain i := by
  rw [Scopes.chain, Scopes.chain, h.size, h.chainUpTo _ hi]

theorem own (h : Alike R base r₁ r₂) {i : ScopeId} (hi : r₁.Region R base i) (x : Symbol) :
    r₂.own? i x = r₁.own? i x := by
  rw [own?, own?, h.same i hi]

theorem probe (h : Alike R base r₁ r₂) {i : ScopeId} (hi : r₁.Region R base i) (x : Symbol) :
    r₂.probe i x = r₁.probe i x := by
  rw [Scopes.probe, Scopes.probe, h.chain hi]
  have hown := h.closed.chain hi
  generalize r₁.chain i = js at hown
  induction js with
  | nil => rfl
  | cons j js ih =>
    have hjs := ih (fun k hk => hown k (by simp [hk]))
    rw [List.findSome?_cons, List.findSome?_cons, h.own (hown j (by simp)), hjs]

theorem holder (h : Alike R base r₁ r₂) {i : ScopeId} (hi : r₁.Region R base i) (x : Symbol) :
    r₂.holder? i x = r₁.holder? i x := by
  rw [holder?, holder?, h.chain hi]
  have hown := h.closed.chain hi
  generalize r₁.chain i = js at hown
  induction js with
  | nil => rfl
  | cons j js ih =>
    have hjs := ih (fun k hk => hown k (by simp [hk]))
    rw [List.find?_cons, List.find?_cons, h.own (hown j (by simp)), hjs]

theorem define (h : Alike R base r₁ r₂) {v : Expr} (hv : v.Inside (r₁.Region R base)) (i : ScopeId) (x : Symbol) :
    Alike R base (r₁.define i x v) (r₂.define i x v) := by
  have hregion {j : ScopeId} : (r₁.define i x v).Region R base j ↔ r₁.Region R base j := by
    simp [Region, Scopes.define]
  refine ⟨by simpa [Scopes.define] using h.base_le, by simpa [Scopes.define] using h.size, fun j hj => ?_, ?_⟩
  · simp only [Scopes.define, Array.getElem?_modify, h.same j (hregion.mp hj)]
  · intro j f hj hf k hk
    rw [hregion] at hj ⊢
    simp only [Scopes.define, Array.getElem?_modify] at hf
    split at hf
    · obtain ⟨g, hg, rfl⟩ := Option.map_eq_some_iff.mp hf
      rcases Scope.mentions_put hk with hk | hk
      · exact h.closed j g hj hg k hk
      · exact hv k hk
    · exact h.closed j f hj hf k hk

theorem create (h : Alike R base r₁ r₂) {parent : Option ScopeId} (hp : ∀ p ∈ parent, r₁.Region R base p) :
    Alike R base (r₁.create parent).2 (r₂.create parent).2 := by
  have hsize (r : Scopes) : (r.create parent).2.all.size = r.all.size + 1 := by simp [Scopes.create]
  have hgrows {j : ScopeId} (hj : r₁.Region R base j) : (r₁.create parent).2.Region R base j :=
    hj.mono (by rw [hsize]; omega)
  have hregion {j : ScopeId} (hj : (r₁.create parent).2.Region R base j) :
      j = r₁.all.size ∨ r₁.Region R base j := by
    rcases hj with hj | ⟨hb, hs⟩
    · exact .inr (.inl hj)
    · rw [hsize] at hs
      by_cases he : j = r₁.all.size
      · exact .inl he
      · exact .inr (.inr ⟨hb, Nat.lt_of_le_of_ne (Nat.le_of_lt_succ hs) he⟩)
  refine ⟨by rw [hsize]; exact Nat.le_succ_of_le h.base_le, by rw [hsize, hsize, h.size], fun j hj => ?_, ?_⟩
  · simp only [Scopes.create, Array.getElem?_push, h.size]
    split
    · rfl
    · rename_i hne
      exact h.same j ((hregion hj).resolve_left hne)
  · intro j f hj hf k hk
    simp only [Scopes.create, Array.getElem?_push] at hf
    split at hf
    · obtain rfl := Option.some.inj hf
      rcases hk with hk | ⟨b, hb, -⟩
      · exact hgrows (hp k hk)
      · cases hb
    · rename_i hne
      exact hgrows (h.closed j f ((hregion hj).resolve_left hne) hf k hk)

theorem defineAll (h : Alike R base r₁ r₂) {bs : List (Symbol × Expr)}
    (hbs : ∀ b ∈ bs, b.2.Inside (r₁.Region R base)) (i : ScopeId) :
    Alike R base (bs.foldl (fun r b => r.define i b.1 b.2) r₁) (bs.foldl (fun r b => r.define i b.1 b.2) r₂) := by
  induction bs generalizing r₁ r₂ with
  | nil => exact h
  | cons b bs ih =>
    refine ih (h.define (hbs b (by simp)) i b.1) (fun c hc => ?_)
    have hsize : r₁.all.size ≤ (r₁.define i b.1 b.2).all.size := by simp [Scopes.define]
    exact (hbs c (by simp [hc])).mono (fun _ hj => hj.mono hsize)

theorem enter (h : Alike R base r₁ r₂) {i : ScopeId} (hi : r₁.Region R base i) {bs : List (Symbol × Expr)}
    (hbs : ∀ b ∈ bs, b.2.Inside (r₁.Region R base)) : Alike R base (r₁.enter i bs).2 (r₂.enter i bs).2 := by
  have hc : Alike R base (r₁.create (some i)).2 (r₂.create (some i)).2 := h.create (by simpa using hi)
  have hgrows := (Spared.create (R := R) h.base_le (some i)).grows
  have hd := hc.defineAll (fun b hb => (hbs b hb).mono (fun _ hj => hj.mono hgrows)) r₁.all.size
  rw [Scopes.enter, Scopes.enter]
  simpa only [Scopes.create, h.size] using hd

end Alike

end Lisp.Scopes
