import Lisp.Machine
import Lisp.Proofs.Readings
import Lisp.Proofs.WrittenTokens

namespace Lisp

namespace Lexeme

open Text (byteSize)

theorem scan_eq_consume (source : String) :
    scan source = (consume .between 0 source.toList).1 ++
      (consume .between 0 source.toList).2.finish (byteSize source.toList) := by
  rw [scan, scanFrom_eq_consume, Nat.zero_add]

theorem scan_cases {source : String} {p rest : List Lexeme} {l : Lexeme} (h : scan source = p ++ l :: rest) :
    (∃ rest', (consume .between 0 source.toList).1 = p ++ l :: rest') ∨
      rest = [] ∧ (consume .between 0 source.toList).1 = p ∧
        (consume .between 0 source.toList).2.finish (byteSize source.toList) = [l] := by
  rw [scan_eq_consume] at h
  rcases finish_cases (consume .between 0 source.toList).2 (byteSize source.toList) with hf | ⟨-, x, hf, -⟩
  · rw [hf, List.append_nil] at h
    exact .inl ⟨rest, h⟩
  · rw [hf] at h
    rcases List.eq_nil_or_concat rest with rfl | ⟨init, y, rfl⟩
    · obtain ⟨hp, hx⟩ := List.append_inj' h rfl
      exact .inr ⟨rfl, hp, by rw [hf, hx]⟩
    · rw [List.concat_eq_append, ← List.cons_append, ← List.append_assoc] at h
      exact .inl ⟨init, List.append_inj_left' h rfl⟩

theorem scanFrom_literal_head (start offset : Nat) (text cs : List Char) :
    ∃ s stop rest, scanFrom (.literal start text) offset cs = ⟨.literal s, start, stop⟩ :: rest := by
  induction cs generalizing offset text with
  | nil => exact ⟨_, _, _, rfl⟩
  | cons c cs ih =>
    rw [scanFrom_cons, Mode.step]
    split
    · exact ⟨_, _, _, rfl⟩
    · exact ih _ _

theorem scan_append (source more : String) :
    scan (source ++ more) = (consume .between 0 source.toList).1 ++
      scanFrom (consume .between 0 source.toList).2 (byteSize source.toList) more.toList := by
  rw [scan, String.toList_append, scanFrom_append, Nat.zero_add]

/-- Text that follows changes no token but a literal at the very end, and that one only by
lengthening it. -/
theorem scan_append_cases {source : String} {p rest : List Lexeme} {l : Lexeme} (h : scan source = p ++ l :: rest)
    (hl : l.token ≠ .unterminated) (more : String) :
    (∃ rest', scan (source ++ more) = p ++ l :: rest') ∨
      (∃ s, l.token = .literal s) ∧ l.stop = source.utf8ByteSize ∧ ¬ Delimited more.toList ∧
        ∃ l' rest', scan (source ++ more) = p ++ l' :: rest' ∧ ∃ s, l'.token = .literal s := by
  rw [scan_append]
  rcases scan_cases h with ⟨rest', hc⟩ | ⟨-, hc, hf⟩
  · left
    rw [hc, List.append_assoc]
    exact ⟨_, rfl⟩
  · rw [hc]
    cases hm : (consume .between 0 source.toList).2 with
    | between => simp [hm, Mode.finish] at hf
    | comment => simp [hm, Mode.finish] at hf
    | string start text =>
      rw [hm, Mode.finish, List.singleton_inj] at hf
      exact absurd (by rw [← hf]) hl
    | escape start text =>
      rw [hm, Mode.finish, List.singleton_inj] at hf
      exact absurd (by rw [← hf]) hl
    | literal start text =>
      rw [hm, Mode.finish, List.singleton_inj] at hf
      by_cases hd : Delimited more.toList
      · left
        have hs := @scanFrom_literal [] _ (by simp) hd start (byteSize source.toList) text
        rw [List.nil_append] at hs
        rw [hs, ← hf]
        exact ⟨_, rfl⟩
      · right
        obtain ⟨s, stop, rest', hs⟩ := scanFrom_literal_head start (byteSize source.toList) text more.toList
        refine ⟨⟨_, by rw [← hf]; rfl⟩, by rw [← hf, Text.utf8ByteSize_eq]; rfl, hd, _, rest', by rw [hs], s, rfl⟩

end Lexeme

theorem Expecting.step_literal_reject {e : Expecting} {s : String} {r : ReadError}
    (h : e.step (.literal s) = .reject r) (s' : String) : e.step (.literal s') = .reject r := by
  cases e with
  | datum os => exact absurd h deliver_reject
  | closing ds d os => exact h

namespace Reading

def Takes (source : String) (r : Reading) (block : List Lexeme) : Prop :=
  ∃ rest, Lexeme.scan source = block ++ rest ∧
    next source.utf8ByteSize .initial (Lexeme.scan source) = some (r, rest)

theorem first?_of_step {source : String} {p rest : List Lexeme} {l : Lexeme} {e : Expecting}
    {v : Except ReadError Datum} (hs : Lexeme.scan source = p ++ l :: rest)
    (he : Expecting.initial.shifts (p.map Lexeme.token) = some e) (hv : (e.step l.token).result? = some v) :
    first? source = some ⟨v, l.stop⟩ := by
  rw [first?, hs, next_shifts he, next_settles hv]
  rfl

theorem first?_cases {source : String} {v : Except ReadError Datum} {k : Nat} (h : first? source = some ⟨v, k⟩) :
    (v = .error .endOfInput ∧ ∃ e : Expecting, e.isInitial = false ∧
      Expecting.initial.shifts ((Lexeme.scan source).map Lexeme.token) = some e) ∨
    ∃ p l rest e, Lexeme.scan source = p ++ l :: rest ∧ k = l.stop ∧
      Expecting.initial.shifts (p.map Lexeme.token) = some e ∧ (e.step l.token).result? = some v ∧
      next source.utf8ByteSize .initial (Lexeme.scan source) = some (⟨v, k⟩, rest) := by
  obtain ⟨⟨r, rest⟩, hn, hr⟩ := Option.map_eq_some_iff.mp h
  obtain rfl : r = ⟨v, k⟩ := hr
  rcases next_cases .initial (Lexeme.scan source) with ⟨e, he, hnext⟩ | ⟨p, l, rest', e, w, hs, he, hw, hnext⟩
  · rw [hnext] at hn
    split at hn
    · cases hn
    · rename_i hi
      cases hn
      exact .inl ⟨rfl, e, by simpa using hi, he⟩
  · have hn' := hnext source.utf8ByteSize rest'
    rw [← hs, hn] at hn'
    cases hn'
    exact .inr ⟨p, l, _, e, hs, rfl, he, hw, hn⟩

theorem evaluateFirst_congr {source source' : String}
    (h : (first? source').map result = (first? source).map result) (depth : Nat) :
    Machine.evaluateFirst depth source' = Machine.evaluateFirst depth source := by
  have hr (s : String) : Machine.evaluateFirst depth s = match (first? s).map result with
      | none => Run.throw .nothingToRead
      | some (.error e) => Run.throw (.read e)
      | some (.ok d) => Machine.realize d >>= Machine.evaluate depth := by
    rw [Machine.evaluateFirst]
    cases first? s with
    | none => rfl
    | some r => obtain ⟨e | d, k⟩ := r <;> rfl
  rw [hr, hr, h]

theorem first?_append_error {source : String} {r : ReadError} {k : Nat} (h : first? source = some ⟨.error r, k⟩)
    (hr : r.isIncomplete = false) (more : String) : ∃ k', first? (source ++ more) = some ⟨.error r, k'⟩ := by
  rcases first?_cases h with ⟨he, -⟩ | ⟨p, l, rest, e, hs, -, he, hv, -⟩
  · cases he
    cases hr
  · have hreject : e.step l.token = .reject r := Verdict.result?_eq_error.mp hv
    have hl : l.token ≠ .unterminated := by
      intro hl
      rcases Expecting.step_reject hreject with ⟨-, rfl⟩ | ⟨hne, -⟩
      · cases hr
      · exact hne hl
    rcases Lexeme.scan_append_cases hs hl more with ⟨rest', hs'⟩ | ⟨⟨s, ht⟩, -, -, l', rest', hs', s', ht'⟩
    · exact ⟨l.stop, first?_of_step hs' he hv⟩
    · rw [ht] at hreject
      refine ⟨l'.stop, first?_of_step hs' he ?_⟩
      rw [ht', Expecting.step_literal_reject hreject]
      rfl

theorem first?_append_ok {source : String} {d : Datum} {k : Nat} (h : first? source = some ⟨.ok d, k⟩)
    (more : String)
    (hk : k < source.utf8ByteSize ∨
      (∃ block, Takes source ⟨.ok d, k⟩ block ∧
        ∃ l ∈ block.getLast?, l.token = .rightParen ∨ ∃ s, l.token = .string s) ∨
      Lexeme.Delimited more.toList) : first? (source ++ more) = some ⟨.ok d, k⟩ := by
  rcases first?_cases h with ⟨he, -⟩ | ⟨p, l, rest, e, hs, rfl, he, hv, hn⟩
  · cases he
  · have hl : l.token ≠ .unterminated := by
      intro hl
      rw [hl] at hv
      cases e <;> cases hv
    rcases Lexeme.scan_append_cases hs hl more with ⟨rest', hs'⟩ | ⟨⟨s, ht⟩, hstop, hd, -⟩
    · exact first?_of_step hs' he hv
    · exfalso
      rcases hk with hk | ⟨block, ⟨rest', hs', hn'⟩, l', hl', ht'⟩ | hk
      · omega
      · obtain rfl : rest' = rest := by
          rw [hn] at hn'
          cases hn'
          rfl
        obtain rfl : block = p ++ [l] := by
          rw [hs] at hs'
          exact List.append_cancel_right (show block ++ rest' = p ++ [l] ++ rest' by simpa using hs'.symm)
        obtain rfl : l' = l := by simpa using hl'.symm
        rw [ht] at ht'
        simp at ht'
      · exact hd hk

/-- What a text settles stays settled when more text follows: an error that no continuation can
mend, and an expression unless it ends in a literal that the continuation lengthens. -/
theorem first?_append_stable (source more : String) :
    (∀ r k, first? source = some ⟨.error r, k⟩ → r.isIncomplete = false →
      (∃ k', first? (source ++ more) = some ⟨.error r, k'⟩) ∧
        ∀ depth, Machine.evaluateFirst depth (source ++ more) = Machine.evaluateFirst depth source) ∧
    ∀ d k, first? source = some ⟨.ok d, k⟩ →
      (k < source.utf8ByteSize ∨
        (∃ block, Takes source ⟨.ok d, k⟩ block ∧
          ∃ l ∈ block.getLast?, l.token = .rightParen ∨ ∃ s, l.token = .string s) ∨
        Lexeme.Delimited more.toList) →
      first? (source ++ more) = some ⟨.ok d, k⟩ ∧
        ∀ depth, Machine.evaluateFirst depth (source ++ more) = Machine.evaluateFirst depth source := by
  constructor
  · intro r k h hr
    obtain ⟨k', h'⟩ := first?_append_error h hr more
    exact ⟨⟨k', h'⟩, evaluateFirst_congr (by rw [h, h']; rfl)⟩
  · intro d k h hk
    have h' := first?_append_ok h more hk
    exact ⟨h', evaluateFirst_congr (by rw [h, h'])⟩

theorem first?_append_stable_literals :
    first? "(a . b c" = some ⟨.error .expectedClose, 8⟩ ∧
    (∃ k, first? ("(a . b c" ++ "d)") = some ⟨.error .expectedClose, k⟩) ∧
    first? "'x" = some ⟨.ok (.quoted (.literal "x")), 2⟩ ∧ Lexeme.Delimited ";y".toList ∧
    first? ("'x" ++ ";y") = some ⟨.ok (.quoted (.literal "x")), 2⟩ ∧
    first? "(x)" = some ⟨.ok (.pair (.literal "x") .nil), 3⟩ ∧
    first? ("(x)" ++ "y") = some ⟨.ok (.pair (.literal "x") .nil), 3⟩ := by
  have herror : first? "(a . b c" = some ⟨.error .expectedClose, 8⟩ := rfl
  have hquoted : first? "'x" = some ⟨.ok (.quoted (.literal "x")), 2⟩ := rfl
  have hlist : first? "(x)" = some ⟨.ok (.pair (.literal "x") .nil), 3⟩ := rfl
  have hd : Lexeme.Delimited ";y".toList := by
    rintro c ⟨⟩
    rfl
  have hclosed : ∃ block, Takes "(x)" ⟨.ok (.pair (.literal "x") .nil), 3⟩ block ∧
      ∃ l ∈ block.getLast?, l.token = .rightParen ∨ ∃ s, l.token = .string s :=
    ⟨_, ⟨[], (List.append_nil _).symm, rfl⟩, ⟨.rightParen, 2, 3⟩, rfl, .inl rfl⟩
  exact ⟨herror, ((first?_append_stable "(a . b c" "d)").1 _ _ herror rfl).1, hquoted, hd,
    ((first?_append_stable "'x" ";y").2 _ _ hquoted (.inr (.inr hd))).1, hlist,
    ((first?_append_stable "(x)" "y").2 _ _ hlist (.inr (.inl hclosed))).1⟩

end Reading

end Lisp
