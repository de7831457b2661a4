import Lisp.Proofs.PrimitiveRuns
import Lisp.Proofs.StructuralEquality

namespace Lisp

namespace Expr

theorem Same.chain {vs us : List Expr} (h : List.Forall₂ Same vs us) (tail : Expr) (i j : Ident) :
    (Expr.chain i vs tail).Same (.chain j us tail) := by
  induction h generalizing i j with
  | nil => exact .refl tail
  | cons hv _ ih => exact .pair i j hv (ih (i + 1) (j + 1))

theorem Coherent.equal_congr {es : List Expr} (hes : Coherent es) {a a' b b' : Expr} (ha : a ∈ es) (ha' : a' ∈ es)
    (hb : b ∈ es) (hb' : b' ∈ es) (h : a.Same a') (h' : b.Same b') : a'.equal b' = a.equal b := by
  rw [Bool.eq_iff_iff, equal_iff_same (hes a' ha' b' hb'), equal_iff_same (hes a ha b hb)]
  constructor
  · intro hs
    exact (h.trans hs).trans h'.symm
  · intro hs
    exact (h.symm.trans hs).trans h'

end Expr

namespace Primitive

theorem same_renews (table i j : Nat) : Renews Expr.Same (fun _ => Expr.Same) table table i j where
  argument hv := hv
  keyword _ := .refl _
  number n := .number n
  string text := .string i j text
  pair hh ht := .pair i j hh ht
  list hvs := .chain hvs _ i j

/-- A primitive other than EQ cannot tell equal arguments apart, whatever state each call finds: it
fails in the same way and changes nothing, or it writes the same text and gives values of the same
structure. Neither call changes a scope. -/
theorem apply_equal_arguments {p : Primitive} (hp : p ≠ eq) (table : Nat) {vs us : List Expr}
    (hco : Expr.Coherent (vs ++ us)) (h : List.Forall₂ (fun v u => v.equal u = true) vs us) (w w' : World) :
    (∃ e, p.apply table vs w = .error e w ∧ p.apply table us w' = .error e w') ∨
    ∃ v u n text, p.apply table vs w = .value v { w with next := w.next + n, sink := w.sink.push text } ∧
      p.apply table us w' = .value u { w' with next := w'.next + n, sink := w'.sink.push text } ∧
      v.Same u ∧ v.equal u = true := by
  have hleft {v : Expr} (hv : v ∈ vs) : v ∈ vs ++ us := List.mem_append_left us hv
  have hright {u : Expr} (hu : u ∈ us) : u ∈ vs ++ us := List.mem_append_right vs hu
  have hsame : List.Forall₂ Expr.Same vs us :=
    (Expr.forall₂_equal_iff fun v hv u hu => hco v (hleft hv) u (hright hu)).mp h
  have hequal : Steady Expr.equal vs us := by
    rintro a b a' b' rfl rfl
    obtain ⟨ha, hb⟩ := List.forall₂_cons.mp hsame
    exact hco.equal_congr (by simp) (by simp) (by simp) (by simp) ha (List.forall₂_cons.mp hb).1
  cases apply_concur Expr.same_likeness (same_renews table w.next w'.next) hsame p (fun h => absurd h hp)
    (fun _ => hequal) with
  | error e h₁ h₂ => exact .inl ⟨e, h₁, h₂⟩
  | value n text hvu h₁ h₂ => exact .inr ⟨_, _, n, text, h₁, h₂, hvu, hvu.equal⟩

theorem apply_equal_arguments_copies :
    ∃ (vs us : List Expr) (w w' : World), Expr.Coherent (vs ++ us) ∧
      List.Forall₂ (fun v u => v.equal u = true) vs us ∧
      List.Forall₂ (fun v u => v.identical u = false) vs us ∧
      (∃ e, cdr.apply 0 vs w = .error e w ∧ cdr.apply 0 us w' = .error e w') ∧
      ∃ v u n text, cons.apply 0 vs w = .value v { w with next := w.next + n, sink := w.sink.push text } ∧
        cons.apply 0 us w' = .value u { w' with next := w'.next + n, sink := w'.sink.push text } ∧
        v.identical u = false ∧ v.Same u := by
  let vs : List Expr := [.pair 0 (.string 1 "x") (.nil 0), .string 2 "y"]
  let us : List Expr := [.pair 3 (.string 4 "x") (.nil 0), .string 5 "y"]
  let w : World := ⟨.empty, 6, .buffer ""⟩
  let w' : World := ⟨.empty, 7, .closed⟩
  have hco : Expr.Coherent (vs ++ us) := by decide
  have hequal : List.Forall₂ (fun v u => v.equal u = true) vs us := .cons rfl (.cons rfl .nil)
  refine ⟨vs, us, w, w', hco, hequal, .cons rfl (.cons rfl .nil), ?_, ?_⟩
  · obtain h | ⟨v, u, n, text, h, -⟩ := apply_equal_arguments (p := cdr) (by decide) 0 hco hequal w w'
    · exact h
    · cases h
  · obtain ⟨e, h, -⟩ | ⟨v, u, n, text, h, h', hs, -⟩ :=
      apply_equal_arguments (p := cons) (by decide) 0 hco hequal w w'
    · cases h
    · refine ⟨v, u, n, text, h, h', ?_, hs⟩
      rw [← (Outcome.value.inj h).1, ← (Outcome.value.inj h').1]
      rfl

-- EQ tells a string from its copy.
example (w : World) :
    eq.apply 0 [.string 0 "x", .string 0 "x"] w = .value (.truth 0 true) w ∧
      eq.apply 0 [.string 0 "x", .string 1 "x"] w = .value (.truth 0 false) w :=
  ⟨rfl, rfl⟩

end Primitive

end Lisp
