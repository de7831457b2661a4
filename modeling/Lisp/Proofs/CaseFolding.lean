import Lisp.Proofs.Decimals
import Lisp.Proofs.LongestMatch
import Lisp.Proofs.ReadingLoops
import Lisp.Proofs.UppercaseForms

namespace Lisp

def Token.folded : Token → Token
  | literal s => literal (Text.upcase s)
  | t => t

def Lexeme.folded (l : Lexeme) : Lexeme :=
  { l with token := l.token.folded }

def Datum.folded : Datum → Datum
  | literal s => literal (Text.upcase s)
  | string s => string s
  | quoted d => quoted d.folded
  | nil => nil
  | pair h t => pair h.folded t.folded

def Opened.folded : Opened → Opened
  | quote => quote
  | list ds => list (ds.map Datum.folded)
  | improper ds => improper (ds.map Datum.folded)

def Expecting.folded : Expecting → Expecting
  | datum os => datum (os.map Opened.folded)
  | closing ds d os => closing (ds.map Datum.folded) d.folded (os.map Opened.folded)

def Verdict.folded : Verdict → Verdict
  | shift e => shift e.folded
  | accept d => accept d.folded
  | reject r => reject r

theorem Datum.chain_folded (ds : List Datum) (d : Datum) : (chain ds d).folded = chain (ds.map folded) d.folded := by
  induction ds generalizing d with
  | nil => rfl
  | cons d' ds ih => exact ih (.pair d' d)

namespace Expecting

theorem deliver_folded (d : Datum) (os : List Opened) :
    deliver d.folded (os.map Opened.folded) = (deliver d os).folded := by
  induction os generalizing d with
  | nil => rfl
  | cons o os ih =>
    cases o with
    | quote => exact ih (.quoted d)
    | list ds => rfl
    | improper ds => rfl

theorem step_folded (e : Expecting) (t : Token) : e.folded.step t.folded = (e.step t).folded := by
  cases e with
  | closing ds d os =>
    cases t with
    | rightParen =>
      have hd := deliver_folded (.chain ds d) os
      rw [Datum.chain_folded] at hd
      exact hd
    | _ => rfl
  | datum os =>
    cases t with
    | leftParen => rfl
    | quote => rfl
    | unterminated => rfl
    | string s => exact deliver_folded (.string s) os
    | literal s => exact deliver_folded (.literal s) os
    | rightParen =>
      rcases os with _ | ⟨_ | ds | ds, os⟩
      · rfl
      · rfl
      · have hd := deliver_folded (.chain ds .nil) os
        rw [Datum.chain_folded] at hd
        exact hd
      · rfl
    | dot =>
      rcases os with _ | ⟨_ | (_ | ⟨d, ds⟩) | ds, os⟩ <;> rfl

end Expecting

theorem Reading.all_folded (size : Nat) (e : Expecting) (ls : List Lexeme) :
    (all size e.folded (ls.map Lexeme.folded)).map result = (all size e ls).map (·.result.map Datum.folded) := by
  have hinitial : Expecting.initial.folded = .initial := rfl
  induction ls generalizing e with
  | nil =>
    have he : e.folded.isInitial = e.isInitial := by
      rcases e with (_ | ⟨o, os⟩) | _ <;> rfl
    rw [List.map_nil, all, all, he]
    cases e.isInitial <;> rfl
  | cons l ls ih =>
    have hs : e.folded.step l.folded.token = (e.step l.token).folded := e.step_folded l.token
    rw [List.map_cons, all, all, hs]
    cases e.step l.token with
    | shift e' => exact ih e'
    | accept d =>
      simp only [Verdict.folded, List.map_cons, ← ih, hinitial]
      rfl
    | reject r =>
      simp only [Verdict.folded, List.map_cons, ← ih, hinitial]
      rfl

theorem Decimal.writes_low {cs : List Char} {n : Int} (h : Writes cs n) : ∀ c ∈ cs, c.toNat ≤ 0x40 := by
  have digit {c : Char} (hc : c.isDigit = true) : c.toNat ≤ 0x40 := by
    simp only [Char.isDigit, Bool.and_eq_true, decide_eq_true_eq] at hc
    have := UInt32.le_iff_toNat_le.mp hc.2
    exact Nat.le_trans this (by decide)
  obtain ⟨digits, -, hd, ⟨rfl, -⟩ | ⟨rfl, -⟩⟩ := h
  · exact fun c hc => digit (hd c hc)
  · intro c hc
    rcases List.mem_cons.mp hc with rfl | hc
    · decide
    · exact digit (hd c hc)

theorem Decimal.toInt64?_fold_congr {s s' : String} (h : Text.upcase s = Text.upcase s') :
    toInt64? s.toList = toInt64? s'.toList := by
  have same {a b : String} {n : Int64} (hab : Text.upcase a = Text.upcase b) (ha : toInt64? a.toList = some n) :
      toInt64? b.toList = some n := by
    obtain rfl := Text.eq_of_upcase_low hab (writes_low (toInt64?_eq_some_iff.mp ha))
    exact ha
  apply Option.ext
  intro n
  exact ⟨same h, same h.symm⟩

namespace Datum

theorem literalExpr_upcase (s : String) : literalExpr (Text.upcase s) = literalExpr s := by
  funext supply
  unfold literalExpr SymbolTable.intern
  rw [Decimal.toInt64?_fold_congr (Text.upcase_upcase s), Text.upcase_upcase]

theorem toExpr_folded (d : Datum) : d.folded.toExpr = d.toExpr := by
  induction d with
  | literal s => exact literalExpr_upcase s
  | string s => rfl
  | nil => rfl
  | quoted d ih => simp only [folded, toExpr, ih]
  | pair h t ihh iht => simp only [folded, toExpr, ihh, iht]

end Datum

namespace Reading

theorem meaning_eq_folded (r : Reading) : r.meaning = (r.result.map Datum.folded).map Datum.toExpr := by
  rcases r with ⟨e | d, k⟩
  · rfl
  · simp only [meaning, Except.map, Datum.toExpr_folded]

theorem ofString_meaning_congr {source source' : String}
    (h : (Lexeme.scan source).map (·.token.folded) = (Lexeme.scan source').map (·.token.folded)) :
    (ofString source).map meaning = (ofString source').map meaning := by
  have folded (s : String) : (ofString s).map meaning =
      ((all s.utf8ByteSize .initial ((Lexeme.scan s).map Lexeme.folded)).map result).map
        (Except.map Datum.toExpr) := by
    have hs := all_folded s.utf8ByteSize .initial (Lexeme.scan s)
    rw [show Expecting.initial.folded = .initial from rfl] at hs
    rw [hs, List.map_map]
    exact List.map_congr_left (fun r _ => r.meaning_eq_folded)
  rw [folded, folded, all_result_congr]
  rw [List.map_map, List.map_map]
  exact h

end Reading

namespace Lexeme

/-- Scanning finds the lexemes that the text is laid out from, whatever the layout, and they are what
the longest matches give. There is a match wherever there is text, so nothing is beyond recognition. All
that counts for what is read are the tokens without their letter case. -/
theorem scan_by_layout :
    (∀ source ls, scan source = ls ↔ Laid false 0 source.toList ls) ∧
    (∀ source ls, scan source = ls ↔ Munched 0 source.toList ls) ∧
    (∀ c cs, ∃ t word, Longest t word (c :: cs)) ∧
    ∀ source source', (scan source).map (·.token.folded) = (scan source').map (·.token.folded) →
      (Reading.ofString source).map Reading.meaning = (Reading.ofString source').map Reading.meaning ∧
      Machine.parse source = Machine.parse source' ∧
      ∀ depth, Machine.evaluateAll depth source = Machine.evaluateAll depth source' := by
  refine ⟨scan_eq_iff_laid, scan_eq_iff_munched, exists_longest, ?_⟩
  intro source source' h
  have hm := Reading.ofString_meaning_congr h
  refine ⟨hm, ?_, fun depth => ?_⟩
  · rw [Machine.parse, Machine.parse, Machine.readings_eq_perform, hm, ← Machine.readings_eq_perform]
  · rw [Machine.evaluateAll, Machine.evaluateAll, Machine.evaluateReadings_eq_perform, hm,
      ← Machine.evaluateReadings_eq_perform]

theorem scan_by_layout_dotted :
    (scan "(a;x\n.b)").map (·.token.folded) = (scan "( A . B );").map (·.token.folded) ∧
    Machine.parse "(a;x\n.b)" = Machine.parse "( A . B );" ∧
    Laid false 0 "(a;x\n.b)".toList
      [⟨.leftParen, 0, 1⟩, ⟨.literal "a", 1, 2⟩, ⟨.dot, 5, 6⟩, ⟨.literal "b", 6, 7⟩, ⟨.rightParen, 7, 8⟩] := by
  have h : (scan "(a;x\n.b)").map (·.token.folded) = (scan "( A . B );").map (·.token.folded) := by decide +kernel
  obtain ⟨hlaid, -, -, hcase⟩ := scan_by_layout
  exact ⟨h, (hcase _ _ h).2.1, (hlaid _ _).mp (by decide +kernel)⟩

end Lexeme

end Lisp
