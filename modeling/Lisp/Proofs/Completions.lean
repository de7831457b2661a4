import Lisp.Proofs.ReaderGrammar
import Lisp.Proofs.StableReadings

namespace Lisp

def Mode.isString : Mode → Bool
  | string _ _ => true
  | escape _ _ => true
  | _ => false

namespace Lexeme

theorem scanFrom_newline {m : Mode} (hm : m.isString = false) (offset : Nat) (cs : List Char) :
    scanFrom m offset ('\n' :: cs) = m.finish offset ++ scanFrom .between (offset + 1) cs := by
  cases m with
  | string start text => cases hm
  | escape start text => cases hm
  | _ => rfl

theorem finish_isString {m : Mode} (hm : m.isString = true) (offset : Nat) :
    ∃ l, m.finish offset = [l] ∧ l.token = .unterminated := by
  cases m with
  | string start text => exact ⟨_, rfl, rfl⟩
  | escape start text => exact ⟨_, rfl, rfl⟩
  | _ => cases hm

theorem isString_of_finish {m : Mode} {offset : Nat} {l : Lexeme} (h : m.finish offset = [l])
    (hl : l.token = .unterminated) : m.isString = true := by
  cases m with
  | string start text => rfl
  | escape start text => rfl
  | literal start text =>
    rw [Mode.finish, List.singleton_inj] at h
    rw [← h] at hl
    cases hl
  | _ => cases h

theorem scanFrom_isString {m : Mode} (hm : m.isString = true) (offset : Nat) (cs : List Char) :
    ∃ l rest, scanFrom m offset cs = l :: rest ∧ (l.token = .unterminated ∨ ∃ s, l.token = .string s) := by
  induction cs generalizing m offset with
  | nil =>
    obtain ⟨l, hf, hl⟩ := finish_isString hm offset
    exact ⟨l, [], hf, .inl hl⟩
  | cons c cs ih =>
    rw [scanFrom_cons]
    cases m with
    | string start text =>
      rw [Mode.step]
      split
      · exact ⟨_, _, rfl, .inr ⟨_, rfl⟩⟩
      · split
        · exact ih rfl _
        · exact ih rfl _
    | escape start text => exact ih rfl _
    | _ => cases hm

theorem scanFrom_isString_close {m : Mode} (hm : m.isString = true) :
    ∃ cs, ∀ offset, ∃ l offset', (∃ s, l.token = .string s) ∧
      ∀ rest, scanFrom m offset (cs ++ rest) = l :: scanFrom .between offset' rest := by
  cases m with
  | string start text => exact ⟨['"'], fun offset => ⟨_, _, ⟨_, rfl⟩, fun rest => rfl⟩⟩
  -- behind a backslash the first quote belongs to the string
  | escape start text => exact ⟨['"', '"'], fun offset => ⟨_, _, ⟨_, rfl⟩, fun rest => rfl⟩⟩
  | _ => cases hm

theorem scanFrom_parens (n offset : Nat) :
    (scanFrom .between offset (List.replicate n ')')).map token = List.replicate n .rightParen := by
  induction n generalizing offset with
  | zero => rfl
  | succ n ih =>
    rw [List.replicate_succ, List.replicate_succ, ← ih (offset + ')'.utf8Size)]
    rfl

end Lexeme

def Opened.parens : List Opened → Nat
  | [] => 0
  | .quote :: os => parens os
  | .list _ :: os => parens os + 1
  | .improper _ :: os => parens os + 1

namespace Reading

open Opened (parens)
open Text (byteSize)

theorem follow_parens {os : List Opened} {ls : List Lexeme}
    (hls : ls.map Lexeme.token = List.replicate (parens os) .rightParen) (d : Datum) (size stop : Nat) :
    ∃ d' k, follow size stop ls (Expecting.deliver d os) = some (⟨.ok d', k⟩, []) := by
  induction os generalizing ls d stop with
  | nil =>
    obtain rfl : ls = [] := by simpa [parens] using hls
    exact ⟨d, stop, rfl⟩
  | cons o os ih =>
    cases o with
    | quote => exact ih hls (.quoted d) stop
    | list ds =>
      obtain ⟨l, ls, rfl, hl, hls⟩ := List.map_eq_cons_iff.mp hls
      obtain ⟨d', k, h⟩ := ih hls (.chain (d :: ds) .nil) l.stop
      refine ⟨d', k, ?_⟩
      rw [← h, Expecting.deliver, follow, next_cons, hl]
      rfl
    | improper ds =>
      obtain ⟨l, ls, rfl, hl, hls⟩ := List.map_eq_cons_iff.mp hls
      obtain ⟨d', k, h⟩ := ih hls (.chain ds d) l.stop
      refine ⟨d', k, ?_⟩
      rw [← h, Expecting.deliver, follow, next_cons, hl]
      rfl

theorem next_completion (e : Expecting) :
    ∃ cs, ∀ size offset, ∃ d k, next size e (Lexeme.scanFrom .between offset cs) = some (⟨.ok d, k⟩, []) := by
  cases e with
  | datum os =>
    refine ⟨'(' :: ')' :: List.replicate (parens os) ')', fun size offset => ?_⟩
    exact follow_parens (Lexeme.scanFrom_parens _ _) (.chain [] .nil) size (offset + 2)
  | closing ds d os =>
    refine ⟨')' :: List.replicate (parens os) ')', fun size offset => ?_⟩
    exact follow_parens (Lexeme.scanFrom_parens _ _) (.chain ds d) size (offset + 1)

theorem shifts_unterminated {e e' : Expecting} {ts : List Token} (h : e.shifts ts = some e') :
    .unterminated ∉ ts := by
  induction ts generalizing e with
  | nil => simp
  | cons t ts ih =>
    rw [Expecting.shifts] at h
    cases hs : e.step t with
    | shift e₁ =>
      rw [hs] at h
      have ht : t ≠ .unterminated := by
        rintro rfl
        cases e <;> cases hs
      simp [ht.symm, ih h]
    | accept d => simp [hs] at h
    | reject r => simp [hs] at h

theorem completable_of_shifts {source : String} {e : Expecting}
    (he : Expecting.initial.shifts ((Lexeme.scan source).map Lexeme.token) = some e) :
    ∃ more d k, first? (source ++ more) = some ⟨.ok d, k⟩ := by
  have hm : (Lexeme.consume .between 0 source.toList).2.isString = false := by
    rw [Bool.eq_false_iff]
    intro hm
    obtain ⟨l, hf, hl⟩ := Lexeme.finish_isString hm (byteSize source.toList)
    apply shifts_unterminated he
    rw [Lexeme.scan_eq_consume, hf]
    simp [hl]
  obtain ⟨cs, hcs⟩ := next_completion e
  have hscan : Lexeme.scan (source ++ String.ofList ('\n' :: cs)) =
      Lexeme.scan source ++ Lexeme.scanFrom .between (byteSize source.toList + 1) cs := by
    rw [Lexeme.scan_append, String.toList_ofList, Lexeme.scanFrom_newline hm, Lexeme.scan_eq_consume,
      List.append_assoc]
  obtain ⟨d, k, hn⟩ := hcs (source ++ String.ofList ('\n' :: cs)).utf8ByteSize (byteSize source.toList + 1)
  refine ⟨String.ofList ('\n' :: cs), d, k, ?_⟩
  rw [first?, hscan, next_shifts he, hn]
  rfl

theorem scan_unterminated {source : String} {p rest : List Lexeme} {l : Lexeme}
    (hs : Lexeme.scan source = p ++ l :: rest) (hl : l.token = .unterminated) :
    rest = [] ∧ (Lexeme.consume .between 0 source.toList).1 = p ∧
      (Lexeme.consume .between 0 source.toList).2.isString = true := by
  rcases Lexeme.scan_cases hs with ⟨rest', hc⟩ | ⟨hrest, hc, hf⟩
  · exact absurd hl (Lexeme.consume_terminated (by rw [hc]; simp))
  · exact ⟨hrest, hc, Lexeme.isString_of_finish hf hl⟩

theorem completable_of_string {source : String} {p rest : List Lexeme} {l : Lexeme} {os : List Opened}
    (hs : Lexeme.scan source = p ++ l :: rest) (hl : l.token = .unterminated)
    (he : Expecting.initial.shifts (p.map Lexeme.token) = some (.datum os)) :
    ∃ more d k, first? (source ++ more) = some ⟨.ok d, k⟩ := by
  obtain ⟨-, hc, hm⟩ := scan_unterminated hs hl
  obtain ⟨cs, hcs⟩ := Lexeme.scanFrom_isString_close hm
  obtain ⟨l', offset, ⟨s, ht⟩, hclose⟩ := hcs (byteSize source.toList)
  let more := String.ofList (cs ++ List.replicate (parens os) ')')
  have hscan : Lexeme.scan (source ++ more) =
      p ++ l' :: Lexeme.scanFrom .between offset (List.replicate (parens os) ')') := by
    rw [Lexeme.scan_append, hc, String.toList_ofList, hclose]
  obtain ⟨d, k, hn⟩ := follow_parens (Lexeme.scanFrom_parens (parens os) offset) (.string s)
    (source ++ more).utf8ByteSize l'.stop
  refine ⟨more, d, k, ?_⟩
  rw [first?, hscan, next_shifts he, next_cons, ht]
  exact congrArg (Option.map Prod.fst) hn

theorem not_completable_of_string {source : String} {p rest : List Lexeme} {l : Lexeme} {ds : List Datum} {d : Datum}
    {os : List Opened} (hs : Lexeme.scan source = p ++ l :: rest) (hl : l.token = .unterminated)
    (he : Expecting.initial.shifts (p.map Lexeme.token) = some (.closing ds d os)) (more : String) :
    ∃ r k, first? (source ++ more) = some ⟨.error r, k⟩ := by
  obtain ⟨-, hc, hm⟩ := scan_unterminated hs hl
  obtain ⟨l', rest', hscan, ht⟩ := Lexeme.scanFrom_isString hm (byteSize source.toList) more.toList
  rw [← hc] at he
  have hscan' := Lexeme.scan_append source more
  rw [hscan] at hscan'
  rcases ht with ht | ⟨s, ht⟩
  · exact ⟨.unterminatedString, l'.stop, first?_of_step hscan' he (by rw [ht]; rfl)⟩
  · exact ⟨.expectedClose, l'.stop, first?_of_step hscan' he (by rw [ht]; rfl)⟩

/-- The text breaks off inside a string, and no sentence has a string in that place. -/
def StrayString (source : String) : Prop :=
  ∃ p l, Lexeme.scan source = p ++ [l] ∧ l.token = .unterminated ∧
    ∀ s, ¬ Viable (p.map Lexeme.token ++ [.string s])

theorem strayString_iff {source : String} {p : List Lexeme} {l : Lexeme} {e : Expecting}
    (hs : Lexeme.scan source = p ++ [l]) (hl : l.token = .unterminated)
    (he : Expecting.initial.shifts (p.map Lexeme.token) = some e) :
    StrayString source ↔ ∃ ds d os, e = .closing ds d os := by
  have hafter := Expecting.shifts_after Expecting.initial_after he
  cases e with
  | datum os =>
    simp only [reduceCtorEq, exists_false, iff_false]
    rintro ⟨p', l', hs', -, hv⟩
    obtain ⟨rfl, -⟩ := List.append_inj' (hs.symm.trans hs') rfl
    exact hv "" (Spells.viable (d := .string "") hafter (.string ""))
  | closing ds d os =>
    simp only [Expecting.closing.injEq, exists_eq', exists_and_left, and_true, iff_true]
    exact ⟨p, l, hs, hl, fun s => Expecting.reject_not_viable he rfl⟩

/-- A text that breaks off can be completed, unless it does so inside a string that stands where
none can. -/
theorem incomplete_completable_iff {source : String} {r : ReadError} {k : Nat}
    (h : first? source = some ⟨.error r, k⟩) (hr : r.isIncomplete = true) :
    (∃ more d k', first? (source ++ more) = some ⟨.ok d, k'⟩) ↔ ¬ StrayString source := by
  rcases first?_cases h with ⟨-, e, -, he⟩ | ⟨p, l, rest, e, hs, -, he, hv, -⟩
  · refine ⟨fun _ => ?_, fun _ => completable_of_shifts he⟩
    rintro ⟨p, l, hs, hl, -⟩
    apply shifts_unterminated he
    rw [hs]
    simp [hl]
  · have hl : l.token = .unterminated := by
      rcases Expecting.step_reject (Verdict.result?_eq_error.mp hv) with ⟨hl, -⟩ | ⟨-, hr'⟩
      · exact hl
      · rw [hr] at hr'
        cases hr'
    obtain ⟨rfl, -, -⟩ := scan_unterminated hs hl
    rw [strayString_iff hs hl he]
    cases e with
    | datum os => simpa using completable_of_string hs hl he
    | closing ds d os =>
      refine ⟨?_, fun hn => absurd ⟨ds, d, os, rfl⟩ hn⟩
      rintro ⟨more, d', k', hok⟩
      obtain ⟨r', k'', herror⟩ := not_completable_of_string hs hl he more
      cases hok.symm.trans herror

theorem incomplete_completable_iff_escape :
    first? "'(a . \"b\\" = some ⟨.error .unterminatedString, 9⟩ ∧ ReadError.unterminatedString.isIncomplete = true ∧
      ∃ more d k, first? ("'(a . \"b\\" ++ more) = some ⟨.ok d, k⟩ := by
  have h : first? "'(a . \"b\\" = some ⟨.error .unterminatedString, 9⟩ := rfl
  refine ⟨h, rfl, (incomplete_completable_iff h rfl).mpr ?_⟩
  let p : List Lexeme := [⟨.quote, 0, 1⟩, ⟨.leftParen, 1, 2⟩, ⟨.literal "a", 2, 3⟩, ⟨.dot, 4, 5⟩]
  have hs : Lexeme.scan "'(a . \"b\\" = p ++ [⟨.unterminated, 6, 9⟩] := rfl
  have he : Expecting.initial.shifts (p.map Lexeme.token) = some (.datum [.improper [.literal "a"], .quote]) := rfl
  rw [strayString_iff hs rfl he]
  simp

theorem stray_string_incomplete :
    first? "(a . b \"c" = some ⟨.error .unterminatedString, 9⟩ ∧ ReadError.unterminatedString.isIncomplete = true ∧
      ∀ more d k, first? ("(a . b \"c" ++ more) ≠ some ⟨.ok d, k⟩ := by
  refine ⟨rfl, rfl, fun more d k hok => ?_⟩
  let p : List Lexeme := [⟨.leftParen, 0, 1⟩, ⟨.literal "a", 1, 2⟩, ⟨.dot, 3, 4⟩, ⟨.literal "b", 5, 6⟩]
  have hs : Lexeme.scan "(a . b \"c" = p ++ [⟨.unterminated, 7, 9⟩] := rfl
  have he : Expecting.initial.shifts (p.map Lexeme.token) = some (.closing [.literal "a"] (.literal "b") []) := rfl
  obtain ⟨r, k', herror⟩ := not_completable_of_string hs rfl he more
  cases hok.symm.trans herror

end Reading

end Lisp
