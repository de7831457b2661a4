import Lisp.Text.Decimal

namespace Lisp.Decimal

def Writes (cs : List Char) (n : Int) : Prop :=
  ∃ digits, digits ≠ [] ∧ (∀ c ∈ digits, c.isDigit = true) ∧
    (cs = digits ∧ n = Nat.ofDigitChars 10 digits 0 ∨
      cs = '-' :: digits ∧ n = -(Nat.ofDigitChars 10 digits 0 : Int))

theorem toNat?_eq_some_iff {cs : List Char} {n : Nat} :
    toNat? cs = some n ↔ cs ≠ [] ∧ (∀ c ∈ cs, c.isDigit = true) ∧ n = Nat.ofDigitChars 10 cs 0 := by
  unfold toNat?
  by_cases h : cs ≠ [] ∧ cs.all Char.isDigit = true
  · rw [if_pos h, Option.some_inj]
    exact ⟨fun hn => ⟨h.1, List.all_eq_true.mp h.2, hn.symm⟩, fun hn => hn.2.2.symm⟩
  · rw [if_neg h]
    constructor
    · intro hn
      cases hn
    · rintro ⟨hne, hd, -⟩
      exact absurd ⟨hne, List.all_eq_true.mpr hd⟩ h

theorem cast_eq_some_iff {x : Option Nat} {n : Int} :
    (do let k ← x; pure (k : Int)) = some n ↔ ∃ k : Nat, x = some k ∧ k = n := by
  cases x <;> simp

theorem toInt?_eq_some_iff {cs : List Char} {n : Int} : toInt? cs = some n ↔ Writes cs n := by
  unfold toInt?
  split
  · rename_i cs
    rw [Option.map_eq_some_iff]
    constructor
    · rintro ⟨k, hk, rfl⟩
      obtain ⟨j, hj, rfl⟩ := cast_eq_some_iff.mp hk
      obtain ⟨hne, hd, rfl⟩ := toNat?_eq_some_iff.mp hj
      exact ⟨cs, hne, hd, .inr ⟨rfl, rfl⟩⟩
    · rintro ⟨digits, hne, hd, ⟨rfl, -⟩ | ⟨h, rfl⟩⟩
      · exact absurd (hd '-' (by simp)) (by decide)
      · obtain rfl := (List.cons.inj h).2
        exact ⟨_, cast_eq_some_iff.mpr ⟨_, toNat?_eq_some_iff.mpr ⟨hne, hd, rfl⟩, rfl⟩, rfl⟩
  · rename_i hminus
    rw [Option.map_eq_some_iff]
    constructor
    · rintro ⟨k, hk, rfl⟩
      obtain ⟨j, hj, rfl⟩ := cast_eq_some_iff.mp hk
      obtain ⟨hne, hd, rfl⟩ := toNat?_eq_some_iff.mp hj
      exact ⟨cs, hne, hd, .inl ⟨rfl, rfl⟩⟩
    · rintro ⟨digits, hne, hd, ⟨rfl, rfl⟩ | ⟨h, -⟩⟩
      · exact ⟨_, cast_eq_some_iff.mpr ⟨_, toNat?_eq_some_iff.mpr ⟨hne, hd, rfl⟩, rfl⟩, rfl⟩
      · exact absurd h (hminus digits)

theorem toInt64?_eq_some_iff {cs : List Char} {n : Int64} : toInt64? cs = some n ↔ Writes cs n.toInt := by
  rw [← toInt?_eq_some_iff]
  unfold toInt64?
  cases h : toInt? cs with
  | none => simp
  | some m =>
    have hmin := n.minValue_le_toInt
    have hmax := n.toInt_le
    simp only [Option.some_inj]
    split
    · rename_i hm
      rw [Option.some_inj]
      constructor
      · rintro rfl
        exact (Int64.toInt_ofInt_of_le hm.1 (Int.lt_add_one_of_le hm.2)).symm
      · rintro rfl
        exact Int64.ofInt_toInt n
    · rename_i hm
      constructor
      · intro hn
        cases hn
      · rintro rfl
        exact absurd ⟨hmin, hmax⟩ hm

theorem toInt64?_eq_none {cs : List Char} (h : ∀ n : Int64, ¬ Writes cs n.toInt) : toInt64? cs = none := by
  cases hn : toInt64? cs with
  | none => rfl
  | some n => exact absurd (toInt64?_eq_some_iff.mp hn) (h n)

theorem writes_ofInt (n : Int) : Writes (ofInt n) n := by
  have digits (k : Nat) : Nat.toDigits 10 k ≠ [] ∧ ∀ c ∈ Nat.toDigits 10 k, c.isDigit = true :=
    ⟨Nat.toDigits_ne_nil, fun c hc => Nat.isDigit_of_mem_toDigits (by decide) (by decide) hc⟩
  cases n with
  | ofNat k =>
    exact ⟨_, (digits k).1, (digits k).2, .inl ⟨rfl, by rw [Nat.ofDigitChars_ten_toDigits]; rfl⟩⟩
  | negSucc k =>
    exact ⟨_, (digits (k + 1)).1, (digits (k + 1)).2, .inr ⟨rfl, by rw [Nat.ofDigitChars_ten_toDigits]; rfl⟩⟩

theorem toInt64?_ofInt (n : Int64) : toInt64? (ofInt n.toInt) = some n :=
  toInt64?_eq_some_iff.mpr (writes_ofInt n.toInt)

end Lisp.Decimal
