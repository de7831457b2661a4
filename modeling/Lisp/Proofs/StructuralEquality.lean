import Lisp.Proofs.Likeness
import Lisp.Proofs.Reachability

namespace Lisp.Expr

inductive Same : Expr → Expr → Prop where
  | symbol (x : Symbol) : Same (symbol x) (symbol x)
  | number (n : Int64) : Same (number n) (number n)
  | string (i j : Ident) (text : String) : Same (string i text) (string j text)
  | pair {h h' t t' : Expr} (i j : Ident) (hh : Same h h') (ht : Same t t') : Same (pair i h t) (pair j h' t')
  | function (i : Ident) (params body : Expr) (scope : ScopeId) :
    Same (function i params body scope) (function i params body scope)

theorem same_likeness : Likeness Same := by
  intro a b h
  cases h with
  | symbol x => exact .symbol rfl
  | number n => exact .number n
  | string i j text => exact .string i j text
  | pair i j hh ht => exact .pair i j hh ht
  | function i params body scope => exact .function i i params params body body scope scope

namespace Same

variable {a b c : Expr}

theorem refl (a : Expr) : a.Same a := by
  induction a with
  | symbol x => exact .symbol x
  | number n => exact .number n
  | string i text => exact .string i i text
  | pair i h t ihh iht => exact .pair i i ihh iht
  | function i params body scope _ _ => exact .function i params body scope

theorem symm (h : a.Same b) : b.Same a := by
  induction h with
  | symbol x => exact .symbol x
  | number n => exact .number n
  | string i j text => exact .string j i text
  | pair i j _ _ ihh iht => exact .pair j i ihh iht
  | function i params body scope => exact .function i params body scope

theorem trans (h : a.Same b) (h' : b.Same c) : a.Same c := by
  induction h generalizing c with
  | symbol x => exact h'
  | number n => exact h'
  | function i params body scope => exact h'
  | string i j text =>
    cases h' with
    | string _ k => exact .string i k text
  | pair i j _ _ ihh iht =>
    cases h' with
    | pair _ k hh' ht' => exact .pair i k (ihh hh') (iht ht')

theorem equal (h : a.Same b) : a.equal b = true := by
  induction h with
  | symbol x => simp [Expr.equal, identical]
  | number n => simp [Expr.equal, identical]
  | string i j text => simp [Expr.equal]
  | pair i j _ _ ihh iht => simp [Expr.equal, ihh, iht]
  | function i params body scope => simp [Expr.equal, identical]

end Same

theorem identical_comm (a b : Expr) : a.identical b = b.identical a := by
  cases a <;> cases b <;> simp [identical, Bool.beq_comm]

theorem equal_comm (a b : Expr) : a.equal b = b.equal a := by
  induction a generalizing b with
  | pair i h t ihh iht =>
    cases b with
    | pair j h' t' => rw [equal, equal, Bool.beq_comm, ihh, iht]
    | _ => exact identical_comm _ _
  | string i text =>
    cases b with
    | string j text' => rw [equal, equal, Bool.beq_comm, Bool.beq_comm (a := text)]
    | _ => exact identical_comm _ _
  | _ => cases b <;> exact identical_comm _ _

theorem equal_of_identical {a b : Expr} (h : a.identical b = true) : a.equal b = true := by
  cases a with
  | pair i x t =>
    cases b with
    | pair j x' t' =>
      have hij : (i == j) = true := h
      rw [equal, hij, Bool.true_or]
    | _ => exact h
  | string i text =>
    cases b with
    | string j text' =>
      have hij : (i == j) = true := h
      rw [equal, hij, Bool.true_or]
    | _ => exact h
  | _ => cases b <;> exact h

def parts : Expr → List Expr
  | pair i h t => pair i h t :: (h.parts ++ t.parts)
  | e => [e]

theorem mem_parts {v e : Expr} : v ∈ e.parts ↔ v.Sub e := by
  constructor
  · intro hv
    induction e with
    | pair i h t ihh iht =>
      simp only [parts, List.mem_cons, List.mem_append] at hv
      rcases hv with rfl | hv | hv
      · exact .refl
      · exact .head (ihh hv)
      · exact .tail (iht hv)
    | _ =>
      obtain rfl := List.mem_singleton.mp hv
      exact .refl
  · intro hv
    induction hv with
    | refl => cases v <;> simp [parts]
    | head _ ih => simp [parts, ih]
    | tail _ ih => simp [parts, ih]

instance (v e : Expr) : Decidable (v.Sub e) :=
  decidable_of_iff _ mem_parts

def Attuned (a b : Expr) : Prop :=
  ∀ x y : Expr, x.Sub a → y.Sub b → x.identical y = true → x = y

instance (a b : Expr) : Decidable (a.Attuned b) :=
  decidable_of_iff (∀ x ∈ a.parts, ∀ y ∈ b.parts, x.identical y = true → x = y) (by
    simp only [mem_parts, Attuned]
    exact ⟨fun h x y hx hy => h x hx y hy, fun h x hx y hy => h x y hx hy⟩)

/-- Identities tell the objects in the given expressions apart. -/
def Coherent (es : List Expr) : Prop :=
  ∀ a ∈ es, ∀ b ∈ es, a.Attuned b

instance (es : List Expr) : Decidable (Coherent es) :=
  inferInstanceAs (Decidable (∀ a ∈ es, ∀ b ∈ es, a.Attuned b))

theorem same_of_equal {a b : Expr} (hab : a.Attuned b) (h : a.equal b = true) : a.Same b := by
  have shortcut {a b : Expr} (hab : a.Attuned b) (hid : a.identical b = true) : a.Same b :=
    hab a b .refl .refl hid ▸ .refl a
  induction a generalizing b with
  | pair i x t ihx iht =>
    cases b with
    | pair j x' t' =>
      rw [equal, Bool.or_eq_true, Bool.and_eq_true] at h
      rcases h with hij | ⟨hx, ht⟩
      · exact shortcut hab hij
      · apply Same.pair i j
        · exact ihx (fun y z hy hz => hab y z hy.head hz.head) hx
        · exact iht (fun y z hy hz => hab y z hy.tail hz.tail) ht
    | _ => exact shortcut hab h
  | string i text =>
    cases b with
    | string j text' =>
      rw [equal, Bool.or_eq_true, beq_iff_eq (a := text)] at h
      rcases h with hij | rfl
      · exact shortcut hab hij
      · exact .string i j text
    | _ => exact shortcut hab h
  | _ => cases b <;> exact shortcut hab h

theorem equal_iff_same {a b : Expr} (hab : a.Attuned b) : a.equal b = true ↔ a.Same b :=
  ⟨same_of_equal hab, Same.equal⟩

theorem same_iff_elements {a b : Expr} :
    a.Same b ↔ List.Forall₂ Same a.elements b.elements ∧ a.terminator.Same b.terminator := by
  constructor
  · intro h
    exact ⟨same_likeness.elements h, same_likeness.terminator h⟩
  · rintro ⟨he, ht⟩
    induction a generalizing b with
    | pair i x t _ iht =>
      cases b with
      | pair j x' t' =>
        obtain ⟨hx, hrest⟩ := List.forall₂_cons.mp he
        exact .pair i j hx (iht hrest ht)
      | _ => cases he
    | _ =>
      cases b with
      | pair j x' t' => cases he
      | _ => exact ht

theorem forall₂_equal_iff {vs us : List Expr} (h : ∀ v ∈ vs, ∀ u ∈ us, v.Attuned u) :
    List.Forall₂ (fun v u => v.equal u = true) vs us ↔ List.Forall₂ Same vs us := by
  induction vs generalizing us with
  | nil => simp
  | cons v vs ih =>
    cases us with
    | nil => simp
    | cons u us =>
      rw [List.forall₂_cons, List.forall₂_cons, equal_iff_same (h v (by simp) u (by simp)),
        ih fun v' hv u' hu => h v' (by simp [hv]) u' (by simp [hu])]

theorem Attuned.sub {a b x y : Expr} (hab : a.Attuned b) (hx : x.Sub a) (hy : y.Sub b) : x.Attuned y :=
  fun x' y' hx' hy' => hab x' y' (hx'.trans hx) (hy'.trans hy)

theorem terminator_sub (e : Expr) : e.terminator.Sub e := by
  induction e with
  | pair i h t _ iht => exact .tail iht
  | _ => exact .refl

/-- The built-in comparison says whether two expressions have the same structure, whatever objects
they share, and may as well go along both chains. It is an equivalence coarser than identity and
finer than what can be told from the printed form or the length of a list. -/
theorem equal_is_structural {es : List Expr} (hes : Coherent es) {a b c : Expr} (ha : a ∈ es) (hb : b ∈ es)
    (hc : c ∈ es) :
    (a.equal b = true ↔ a.Same b) ∧
    (a.equal b = true ↔ List.Forall₂ (fun x y => x.equal y = true) a.elements b.elements ∧
      a.terminator.equal b.terminator = true) ∧
    a.equal a = true ∧ (a.equal b = true → b.equal a = true) ∧
    (a.equal b = true → b.equal c = true → a.equal c = true) ∧
    (a.identical b = true → a.equal b = true) ∧
    (a.equal b = true → a.print = b.print ∧ a.isList = b.isList ∧ a.listLength? = b.listLength? ∧
      List.Forall₂ (fun x y => x.equal y = true) a.elements b.elements) := by
  have hab := hes a ha b hb
  have helements : List.Forall₂ (fun x y => x.equal y = true) a.elements b.elements ↔
      List.Forall₂ Same a.elements b.elements :=
    forall₂_equal_iff fun v hv u hu => hab.sub (sub_elements hv) (sub_elements hu)
  have hterminator := equal_iff_same (hab.sub a.terminator_sub b.terminator_sub)
  refine ⟨equal_iff_same hab, ?_, (Same.refl a).equal, ?_, ?_, equal_of_identical, ?_⟩
  · rw [helements, hterminator, equal_iff_same hab]
    exact same_iff_elements
  · rw [equal_comm]
    exact id
  · intro h h'
    exact ((same_of_equal hab h).trans (same_of_equal (hes b hb c hc) h')).equal
  · intro h
    have hsame := same_of_equal hab h
    exact ⟨(same_likeness.print hsame).symm, (same_likeness.isList hsame).symm, (same_likeness.listLength? hsame).symm,
      helements.mpr (same_likeness.elements hsame)⟩

theorem equal_is_structural_shared :
    ∃ a b c : Expr, Coherent [a, b, c] ∧ a.identical b = false ∧ a.Same b ∧ a.equal b = true ∧ b.equal c = true ∧
      a.equal c = true ∧ a.print = b.print := by
  let shared : Expr := .pair 0 (.string 1 "x") (.pair 2 (.number 1) (.nil 0))
  let copy : Expr := .pair 3 (.string 4 "x") (.pair 2 (.number 1) (.nil 0))
  let a : Expr := .pair 5 shared (.pair 6 shared (.number 2))
  let b : Expr := .pair 7 shared (.pair 8 copy (.number 2))
  let c : Expr := .pair 9 copy (.pair 10 shared (.number 2))
  have hes : Coherent [a, b, c] := by decide
  have hab : a.equal b = true := by decide
  have hbc : b.equal c = true := by decide
  have ha : a ∈ [a, b, c] := by simp
  have hb : b ∈ [a, b, c] := by simp
  have hc : c ∈ [a, b, c] := by simp
  obtain ⟨hsame, -, -, -, htrans, -, hview⟩ := equal_is_structural hes ha hb hc
  exact ⟨a, b, c, hes, by decide, hsame.mp hab, hab, hbc, htrans hab hbc, (hview hab).1⟩

end Lisp.Expr
