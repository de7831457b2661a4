import Lisp.Primitive
import Mathlib.Algebra.BigOperators.Group.List.Basic
import Mathlib.Data.Int.ModEq

namespace Lisp

def Wraps (z : Int) (n : Int64) : Prop :=
  ∀ m : Int64, m.toInt ≡ z [ZMOD 2 ^ 64] ↔ m = n

theorem wraps_ofInt (z : Int) : Wraps z (.ofInt z) := by
  intro m
  have hself : m.toInt.bmod (2 ^ 64) = m.toInt := m.toInt_bmod
  rw [eq_comm, Int64.ofInt_eq_iff_bmod_eq_toInt]
  constructor
  · intro h
    have hmod : m.toInt % ↑(2 ^ 64 : Nat) = z % ↑(2 ^ 64 : Nat) := h
    rw [← hself, Int.bmod_def, Int.bmod_def, hmod]
  · intro h
    rw [← h]
    exact Int.bmod_emod

theorem foldl_ofInt {op : Int64 → Int64 → Int64} {exact : Int → Int → Int}
    (hop : ∀ a b, Int64.ofInt (exact a b) = op (.ofInt a) (.ofInt b)) (ns : List Int64) (z : Int) :
    ns.foldl op (.ofInt z) = .ofInt ((ns.map Int64.toInt).foldl exact z) := by
  induction ns generalizing z with
  | nil => rfl
  | cons n ns ih =>
    have hstep : op (.ofInt z) n = .ofInt (exact z n.toInt) := by rw [hop, Int64.ofInt_toInt]
    rw [List.foldl_cons, hstep, ih, List.map_cons, List.foldl_cons]

theorem foldl_add_ofInt (ns : List Int64) : ns.foldl (· + ·) 0 = .ofInt (ns.map Int64.toInt).sum := by
  rw [List.sum_eq_foldl]
  exact foldl_ofInt Int64.ofInt_add ns 0

theorem foldl_mul_ofInt (ns : List Int64) : ns.foldl (· * ·) 1 = .ofInt (ns.map Int64.toInt).prod := by
  rw [List.prod_eq_foldl]
  exact foldl_ofInt Int64.ofInt_mul ns 1

theorem foldl_sub_ofInt (ns : List Int64) (n : Int64) :
    ns.foldl (· - ·) n = .ofInt (n.toInt - (ns.map Int64.toInt).sum) := by
  have hexact (zs : List Int) (z : Int) : zs.foldl (· - ·) z = z - zs.sum := by
    induction zs generalizing z with
    | nil => simp
    | cons y zs ih =>
      rw [List.foldl_cons, ih, List.sum_cons]
      omega
  rw [← hexact, ← foldl_ofInt Int64.ofInt_sub ns n.toInt, Int64.ofInt_toInt]

namespace Primitive

variable {p : Primitive} {op : Int64 → Int64 → Int64} {unit : Int64}

theorem numbers_map (p : Primitive) (ns : List Int64) : p.numbers (ns.map .number) = .ok ns := by
  rw [numbers]
  induction ns with
  | nil => rfl
  | cons n ns ih =>
    rw [List.map_cons, List.mapM_cons, ih]
    rfl

theorem number_error (p : Primitive) {v : Expr} (hv : ∀ n, v ≠ .number n) :
    p.number v = .error (.notNumber p.name v.print) := by
  cases v with
  | number n => exact absurd rfl (hv n)
  | _ => rfl

theorem numbers_error (p : Primitive) (ns : List Int64) {v : Expr} (hv : ∀ n, v ≠ .number n) (rest : List Expr) :
    p.numbers (ns.map .number ++ v :: rest) = .error (.notNumber p.name v.print) := by
  rw [numbers]
  induction ns with
  | nil =>
    rw [List.map_nil, List.nil_append, List.mapM_cons, number_error p hv]
    rfl
  | cons n ns ih =>
    rw [List.map_cons, List.cons_append, List.mapM_cons, ih]
    rfl

theorem exists_first_not_number {vs : List Expr} (h : ∃ v ∈ vs, ∀ n, v ≠ .number n) :
    ∃ (ns : List Int64) (v : Expr) (rest : List Expr), vs = ns.map .number ++ v :: rest ∧ ∀ n, v ≠ .number n := by
  induction vs with
  | nil => simp at h
  | cons v vs ih =>
    by_cases hv : ∃ n, v = .number n
    · obtain ⟨n, rfl⟩ := hv
      have htail : ∃ v ∈ vs, ∀ n, v ≠ .number n := by
        obtain ⟨u, hu, hn⟩ := h
        rcases List.mem_cons.mp hu with rfl | hu
        · exact absurd rfl (hn n)
        · exact ⟨u, hu, hn⟩
      obtain ⟨ns, u, rest, rfl, hu⟩ := ih htail
      exact ⟨n :: ns, u, rest, rfl, hu⟩
    · exact ⟨[], v, vs, rfl, not_exists.mp hv⟩

def Folds (p : Primitive) (op : Int64 → Int64 → Int64) (unit : Int64) : Prop :=
  ∀ (table : Nat) (ns : List Int64) (w : World),
    p.apply table (ns.map .number) w = .value (.number (ns.foldl op unit)) w

theorem add_folds : add.Folds (· + ·) 0 := by
  intro table ns w
  rw [apply, numbers_map]
  rfl

theorem mul_folds : mul.Folds (· * ·) 1 := by
  intro table ns w
  rw [apply, numbers_map]
  rfl

theorem Folds.perm [Std.Associative op] [Std.Commutative op] (hp : p.Folds op unit) (table : Nat) {ns ms : List Int64}
    (h : ns.Perm ms) (w : World) : p.apply table (ns.map .number) w = p.apply table (ms.map .number) w := by
  rw [hp, hp, h.foldl_eq]

theorem Folds.block [Std.Associative op] [Std.LawfulRightIdentity op unit] (hp : p.Folds op unit) (table : Nat)
    (before block after : List Int64) {n : Int64} {w : World}
    (h : p.apply table (block.map .number) w = .value (.number n) w) :
    p.apply table ((before ++ block ++ after).map .number) w =
      p.apply table ((before ++ n :: after).map .number) w := by
  rw [hp] at h
  cases h
  have hblock : block.foldl op (op (before.foldl op unit) unit) = op (before.foldl op unit) (block.foldl op unit) :=
    List.foldl_assoc
  have hunit : op (before.foldl op unit) unit = before.foldl op unit := Std.LawfulRightIdentity.right_id _
  rw [hunit] at hblock
  rw [hp, hp, List.foldl_append, List.foldl_append, hblock, List.foldl_append, List.foldl_cons]

theorem sub_one (table : Nat) (a : Int64) (w : World) :
    sub.apply table [.number a] w = .value (.number (.ofInt (-a.toInt))) w := by
  rw [Int64.ofInt_neg, Int64.ofInt_toInt]
  rfl

theorem sub_more (table : Nat) (a b : Int64) (ns : List Int64) (w : World) :
    sub.apply table ((a :: b :: ns).map .number) w =
      .value (.number (.ofInt (a.toInt - ((b :: ns).map Int64.toInt).sum))) w := by
  rw [apply, numbers_map, ← foldl_sub_ofInt]
  rfl

theorem apply_not_number {p : Primitive} (hp : p = add ∨ p = sub ∨ p = mul) (table : Nat) (ns : List Int64) {v : Expr}
    (hv : ∀ n, v ≠ .number n) (rest : List Expr) (w : World) :
    p.apply table (ns.map .number ++ v :: rest) w = .error (.notNumber p.name v.print) w := by
  rcases hp with rfl | rfl | rfl
  all_goals
    rw [apply, numbers_error _ _ hv]
    rfl

/-- Sums, products and differences are exact modulo the number of words. The order of summands or
factors does not matter, nor whether some of them are combined beforehand. An argument that is no
number is refused, the first of them by name, whatever stands around it. -/
theorem arithmetic_wraps (table : Nat) (w : World) :
    (∀ ns : List Int64, ∃ n, add.apply table (ns.map .number) w = .value (.number n) w ∧
      Wraps (ns.map Int64.toInt).sum n) ∧
    (∀ ns : List Int64, ∃ n, mul.apply table (ns.map .number) w = .value (.number n) w ∧
      Wraps (ns.map Int64.toInt).prod n) ∧
    (∀ p, p = add ∨ p = mul →
      (∀ ns ms : List Int64, ns.Perm ms →
        p.apply table (ns.map .number) w = p.apply table (ms.map .number) w) ∧
      ∀ (before block after : List Int64) (n : Int64), p.apply table (block.map .number) w = .value (.number n) w →
        p.apply table ((before ++ block ++ after).map .number) w =
          p.apply table ((before ++ n :: after).map .number) w) ∧
    (∀ a : Int64, ∃ n, sub.apply table [.number a] w = .value (.number n) w ∧ Wraps (-a.toInt) n) ∧
    (∀ (a b : Int64) (ns : List Int64), ∃ n, sub.apply table ((a :: b :: ns).map .number) w = .value (.number n) w ∧
      Wraps (a.toInt - ((b :: ns).map Int64.toInt).sum) n) ∧
    ∀ p, p = add ∨ p = sub ∨ p = mul → ∀ vs : List Expr, (∃ v ∈ vs, ∀ n, v ≠ .number n) →
      ∃ (ns : List Int64) (v : Expr) (rest : List Expr) (e : Error), vs = ns.map .number ++ v :: rest ∧
        (∀ n, v ≠ .number n) ∧ p.apply table vs w = .error e w ∧ e.kind = .typeMismatch ∧
        e.message = "type mismatch: " ++ (p.name ++ " expects numbers, got " ++ v.print) := by
  refine ⟨?_, ?_, ?_, ?_, ?_, ?_⟩
  · intro ns
    exact ⟨_, add_folds table ns w, foldl_add_ofInt ns ▸ wraps_ofInt _⟩
  · intro ns
    exact ⟨_, mul_folds table ns w, foldl_mul_ofInt ns ▸ wraps_ofInt _⟩
  · rintro p (rfl | rfl)
    · exact ⟨fun _ _ h => add_folds.perm table h w, fun xs ys zs _ => add_folds.block table xs ys zs⟩
    · exact ⟨fun _ _ h => mul_folds.perm table h w, fun xs ys zs _ => mul_folds.block table xs ys zs⟩
  · intro a
    exact ⟨_, sub_one table a w, wraps_ofInt _⟩
  · intro a b ns
    exact ⟨_, sub_more table a b ns w, wraps_ofInt _⟩
  · intro p hp vs h
    obtain ⟨ns, v, rest, rfl, hv⟩ := exists_first_not_number h
    exact ⟨ns, v, rest, _, rfl, hv, apply_not_number hp table ns hv rest w, rfl, rfl⟩

theorem arithmetic_wraps_limits :
    ∃ (w : World) (vs : List Expr), ([1, -1, Int64.maxValue].Perm [Int64.maxValue, 1, -1] ∧
        add.apply 0 [.number 1, .number (-1), .number Int64.maxValue] w =
          add.apply 0 [.number Int64.maxValue, .number 1, .number (-1)] w) ∧
      (mul.apply 0 [.number Int64.maxValue, .number 2] w = .value (.number (-2)) w ∧
        mul.apply 0 [.number 3, .number Int64.maxValue, .number 2, .number 5] w =
          mul.apply 0 [.number 3, .number (-2), .number 5] w) ∧
      sub.apply 0 [.number Int64.minValue] w = .value (.number Int64.minValue) w ∧
      vs = [.number 1, .string 0 "a", .number 2, .nil 0] ∧ (∃ v ∈ vs, ∀ n, v ≠ .number n) ∧
      ∃ e, sub.apply 0 vs w = .error e w ∧ e.kind = .typeMismatch := by
  let w := World.initial .closed
  let vs : List Expr := [.number 1, .string 0 "a", .number 2, .nil 0]
  obtain ⟨-, -, hboth, hneg, -, hbad⟩ := arithmetic_wraps 0 w
  have hperm : [1, -1, Int64.maxValue].Perm [Int64.maxValue, 1, -1] := by decide
  have hblock : mul.apply 0 [.number Int64.maxValue, .number 2] w = .value (.number (-2)) w := rfl
  have hvs : ∃ v ∈ vs, ∀ n, v ≠ .number n := ⟨.string 0 "a", by simp [vs], by simp⟩
  obtain ⟨n, hn, hw⟩ := hneg Int64.minValue
  obtain rfl : Int64.minValue = n := (hw _).mp (by decide)
  obtain ⟨ns, v, rest, e, -, -, he, hkind, -⟩ := hbad sub (.inr (.inl rfl)) vs hvs
  have hsum := (hboth add (.inl rfl)).1 _ _ hperm
  have hproduct := (hboth mul (.inr rfl)).2 [3] [Int64.maxValue, 2] [5] _ hblock
  exact ⟨w, vs, ⟨hperm, hsum⟩, ⟨hblock, hproduct⟩, hn, rfl, hvs, e, he, hkind⟩

end Primitive

end Lisp
