import Lisp.Proofs.PrintRead
import Mathlib.Tactic.Ring

namespace Lisp

namespace Decimal

def placeValue : List Char → Nat
  | [] => 0
  | c :: cs => (c.toNat - '0'.toNat) * 10 ^ cs.length + placeValue cs

inductive Numeral : List Char → Int → Prop
  | plain {digits : List Char} : digits ≠ [] → (∀ c ∈ digits, '0' ≤ c ∧ c ≤ '9') →
    Numeral digits (placeValue digits)
  | minus {digits : List Char} : digits ≠ [] → (∀ c ∈ digits, '0' ≤ c ∧ c ≤ '9') →
    Numeral ('-' :: digits) (-placeValue digits)

theorem ofDigitChars_eq_placeValue (cs : List Char) (n : Nat) :
    Nat.ofDigitChars 10 cs n = n * 10 ^ cs.length + placeValue cs := by
  induction cs generalizing n with
  | nil => simp [placeValue]
  | cons c cs ih =>
    rw [Nat.ofDigitChars_cons, ih, placeValue, List.length_cons, Nat.pow_succ]
    ring

theorem isDigit_iff (c : Char) : c.isDigit = true ↔ '0' ≤ c ∧ c ≤ '9' := by
  simp [Char.isDigit, Char.le_def]

theorem writes_iff_numeral {cs : List Char} {z : Int} : Writes cs z ↔ Numeral cs z := by
  have value (digits : List Char) : Nat.ofDigitChars 10 digits 0 = placeValue digits := by
    rw [ofDigitChars_eq_placeValue, Nat.zero_mul, Nat.zero_add]
  simp only [Writes, isDigit_iff, value]
  constructor
  · rintro ⟨digits, hne, hd, ⟨rfl, rfl⟩ | ⟨rfl, rfl⟩⟩
    · exact .plain hne hd
    · exact .minus hne hd
  · rintro (⟨hne, hd⟩ | ⟨hne, hd⟩)
    · exact ⟨_, hne, hd, .inl ⟨rfl, rfl⟩⟩
    · exact ⟨_, hne, hd, .inr ⟨rfl, rfl⟩⟩

end Decimal

open Decimal (Numeral)

namespace Datum

theorem literalExpr_number {l : String} {n : Int64} (h : Numeral l.toList n.toInt) (s : Supply) :
    literalExpr l s = (.number n, s) := by
  rw [literalExpr, Decimal.toInt64?_eq_some_iff.mpr (Decimal.writes_iff_numeral.mpr h)]

theorem literalExpr_symbol {l : String} (h : ∀ n : Int64, ¬ Numeral l.toList n.toInt) (s : Supply) :
    literalExpr l s = (.symbol (s.symbols.intern l).1, { s with symbols := (s.symbols.intern l).2 }) := by
  rw [literalExpr, Decimal.toInt64?_eq_none fun n hn => h n (Decimal.writes_iff_numeral.mp hn)]

theorem literalExpr_number_iff (l : String) (s : Supply) (n : Int64) :
    (literalExpr l s).1 = .number n ↔ Numeral l.toList n.toInt := by
  constructor
  · intro h
    by_cases hex : ∃ m : Int64, Numeral l.toList m.toInt
    · obtain ⟨m, hm⟩ := hex
      rw [literalExpr_number hm] at h
      cases h
      exact hm
    · rw [literalExpr_symbol (not_exists.mp hex)] at h
      cases h
  · intro h
    rw [literalExpr_number h]

end Datum

theorem Reading.ofString_literal {source l : String} (h : Lexeme.Yields source.toList [.literal l]) :
    ofString source = [⟨.ok (.literal l), source.utf8ByteSize⟩] := by
  obtain ⟨ht, hstop⟩ := h.scan
  obtain ⟨lexeme, hs, hl⟩ := List.map_eq_singleton_iff.mp ht
  rw [hs] at hstop
  rw [ofString, hs, all, hl, ← hstop lexeme rfl]
  rfl

namespace Datum

/-- A literal is a number if it is a numeral for one that fits into a word, and otherwise a symbol. What
a number prints as is read as that number. -/
theorem integers_recognised :
    (∀ (l : String) (s : Supply) (n : Int64), (literalExpr l s).1 = .number n ↔
      ∃ z, Numeral l.toList z ∧ -2 ^ 63 ≤ z ∧ z ≤ 2 ^ 63 - 1 ∧ n.toInt = z) ∧
    (∀ (l : String) (s : Supply) (z : Int), Numeral l.toList z → -2 ^ 63 ≤ z → z ≤ 2 ^ 63 - 1 →
      ∃ n : Int64, n.toInt = z ∧ literalExpr l s = (.number n, s)) ∧
    (∀ (l : String) (s : Supply), (∀ z, Numeral l.toList z → ¬ (-2 ^ 63 ≤ z ∧ z ≤ 2 ^ 63 - 1)) →
      literalExpr l s = (.symbol (s.symbols.intern l).1, { s with symbols := (s.symbols.intern l).2 })) ∧
    ∀ (n : Int64) (s : Supply), ∃ d,
      Reading.ofString (Expr.number n).print = [⟨.ok d, (Expr.number n).print.utf8ByteSize⟩] ∧
      d.toExpr s = (.number n, s) := by
  have range (n : Int64) : -2 ^ 63 ≤ n.toInt ∧ n.toInt ≤ 2 ^ 63 - 1 :=
    ⟨n.le_toInt, Int.le_sub_one_of_lt n.toInt_lt⟩
  refine ⟨?_, ?_, ?_, ?_⟩
  · intro l s n
    rw [literalExpr_number_iff]
    constructor
    · intro h
      exact ⟨_, h, (range n).1, (range n).2, rfl⟩
    · rintro ⟨z, h, -, -, rfl⟩
      exact h
  · intro l s z h hmin hmax
    have hz : (Int64.ofInt z).toInt = z := Int64.toInt_ofInt_of_le hmin (Int.lt_of_le_sub_one hmax)
    rw [← hz] at h
    exact ⟨_, hz, literalExpr_number h s⟩
  · intro l s h
    exact literalExpr_symbol (fun n hn => h _ hn (range n)) s
  · intro n s
    have hy : Lexeme.Yields (Expr.number n).print.toList [.literal (Expr.number n).print] := by
      have hn := Expr.yields_number n.toInt
      rwa [Expr.print, String.toList_ofList]
    have hnumeral : Numeral (Expr.number n).print.toList n.toInt := by
      rw [Expr.print, String.toList_ofList]
      exact Decimal.writes_iff_numeral.mp (Decimal.writes_ofInt n.toInt)
    exact ⟨_, Reading.ofString_literal hy, literalExpr_number hnumeral s⟩

theorem integers_recognised_limits :
    ∃ s : Supply, Numeral "-009223372036854775808".toList (-2 ^ 63) ∧
      literalExpr "-009223372036854775808" s = (.number Int64.minValue, s) ∧
      (∀ l ∈ ["-", "+5", "9223372036854775808", "٣"],
        (∀ z, Numeral l.toList z → ¬ (-2 ^ 63 ≤ z ∧ z ≤ 2 ^ 63 - 1)) ∧
        literalExpr l s = (.symbol (s.symbols.intern l).1, { s with symbols := (s.symbols.intern l).2 })) ∧
      (Expr.number Int64.minValue).print = "-9223372036854775808" ∧
      ∃ d, Reading.ofString "-9223372036854775808" = [⟨.ok d, 20⟩] ∧ d.toExpr s = (.number Int64.minValue, s) := by
  let s : Supply := ⟨.initial 0, 0⟩
  have hdigits : ("009223372036854775808".toList.all fun c => decide ('0' ≤ c ∧ c ≤ '9')) = true := by decide
  have hnumeral : Numeral "-009223372036854775808".toList (-2 ^ 63) :=
    @Numeral.minus "009223372036854775808".toList (by decide)
      fun c hc => of_decide_eq_true (List.all_eq_true.mp hdigits c hc)
  have hnone : ∀ l ∈ ["-", "+5", "9223372036854775808", "٣"], Decimal.toInt64? l.toList = none := by decide
  have houtside : ∀ l ∈ ["-", "+5", "9223372036854775808", "٣"],
      ∀ z, Numeral l.toList z → ¬ (-2 ^ 63 ≤ z ∧ z ≤ 2 ^ 63 - 1) := by
    rintro l hl z hz ⟨hmin, hmax⟩
    rw [← Int64.toInt_ofInt_of_le hmin (Int.lt_of_le_sub_one hmax)] at hz
    cases (hnone l hl).symm.trans (Decimal.toInt64?_eq_some_iff.mpr (Decimal.writes_iff_numeral.mpr hz))
  have hprint : (Expr.number Int64.minValue).print = "-9223372036854775808" := by decide +kernel
  obtain ⟨-, hnumber, hsymbol, hread⟩ := integers_recognised
  obtain ⟨n, hn, hl⟩ := hnumber _ s _ hnumeral (by decide) (by decide)
  obtain rfl : n = Int64.minValue := Int64.toInt_inj.mp (hn.trans (by decide))
  obtain ⟨d, hd, he⟩ := hread Int64.minValue s
  rw [hprint] at hd
  exact ⟨s, hnumeral, hl, fun l hl => ⟨houtside l hl, hsymbol l s (houtside l hl)⟩, hprint, d, hd, he⟩

end Datum

end Lisp
