import Lisp.Proofs.ViablePrefixes

namespace Lisp

namespace Expecting

def Reads (ts : List Token) (d : Datum) : Prop :=
  ∃ init t, ts = init ++ [t] ∧ ∀ os, ∃ e, (datum os).shifts init = some e ∧ e.step t = deliver d os

theorem Reads.shifts {ts : List Token} {d : Datum} (h : Reads ts d) {os : List Opened} {e : Expecting}
    (he : deliver d os = .shift e) : (datum os).shifts ts = some e := by
  obtain ⟨init, t, rfl, hr⟩ := h
  obtain ⟨e', hs, ht⟩ := hr os
  rw [shifts_append hs, Expecting.shifts, ht, he]
  rfl

theorem reads_elements {parts : List (List Token × Meaning)}
    (h : ∀ p ∈ parts, ∃ d : Datum, d.toExpr = p.2 ∧ Reads p.1 d) :
    ∃ ds : List Datum, ds.map Datum.toExpr = parts.map Prod.snd ∧ ∀ acc os,
      (datum (.list acc :: os)).shifts (parts.map Prod.fst).flatten = some (datum (.list (ds.reverse ++ acc) :: os)) := by
  induction parts with
  | nil => exact ⟨[], rfl, fun _ _ => rfl⟩
  | cons p parts ih =>
    obtain ⟨d, hd, hr⟩ := h p (by simp)
    obtain ⟨ds, hds, hs⟩ := ih (fun q hq => h q (by simp [hq]))
    refine ⟨d :: ds, by simp [hd, hds], fun acc os => ?_⟩
    rw [List.map_cons, List.flatten_cons, shifts_append (hr.shifts rfl), hs]
    simp

theorem reads_of_derives {ts : List Token} {m : Meaning} (h : Derives ts m) :
    ∃ d : Datum, d.toExpr = m ∧ Reads ts d := by
  induction h with
  | literal s => exact ⟨.literal s, rfl, [], _, rfl, fun os => ⟨_, rfl, rfl⟩⟩
  | string s => exact ⟨.string s, rfl, [], _, rfl, fun os => ⟨_, rfl, rfl⟩⟩
  | quoted h ih =>
    obtain ⟨d, rfl, init, t, rfl, hr⟩ := ih
    exact ⟨.quoted d, rfl, .quote :: init, t, rfl, fun os => hr (.quote :: os)⟩
  | list parts h ih =>
    obtain ⟨ds, hds, hs⟩ := reads_elements ih
    refine ⟨.chain ds.reverse .nil, by rw [Datum.toExpr_chain, hds]; rfl,
      .leftParen :: (parts.map Prod.fst).flatten, .rightParen, rfl, fun os => ?_⟩
    exact ⟨_, hs [] os, by rw [List.append_nil]; rfl⟩
  | @dotted parts ts m hne h ht ih iht =>
    obtain ⟨ds, hds, hs⟩ := reads_elements ih
    obtain ⟨d, hd, hr⟩ := iht
    refine ⟨.chain ds.reverse d, by rw [Datum.toExpr_chain, hds, hd],
      .leftParen :: ((parts.map Prod.fst).flatten ++ .dot :: ts), .rightParen, by simp, fun os => ?_⟩
    have hds' : ds.reverse ≠ [] := by
      intro h
      apply hne
      simpa [List.reverse_eq_nil_iff.mp h] using hds.symm
    obtain ⟨x, xs, hx⟩ := List.exists_cons_of_ne_nil hds'
    refine ⟨closing ds.reverse d os, ?_, rfl⟩
    have hopen := hs [] os
    rw [hx, List.append_nil] at hopen
    rw [shifts]
    change (datum (.list [] :: os)).shifts _ = _
    rw [shifts_append hopen, hx]
    exact hr.shifts rfl

theorem reject_not_viable {e : Expecting} {ts : List Token} {t : Token} {r : ReadError}
    (h : initial.shifts ts = some e) (hr : e.step t = .reject r) : ¬ Viable (ts ++ [t]) := by
  rintro ⟨us, m, hd⟩
  obtain ⟨d, -, init, t', hts, hreads⟩ := reads_of_derives hd
  obtain ⟨e', hs, ht⟩ := hreads []
  rcases List.eq_nil_or_concat us with rfl | ⟨us, u, rfl⟩
  · rw [List.append_nil] at hts
    obtain ⟨rfl, h1⟩ := List.append_inj' hts rfl
    obtain rfl := List.singleton_inj.mp h1
    obtain rfl : e = e' := Option.some.inj (h.symm.trans hs)
    cases hr.symm.trans ht
  · rw [List.concat_eq_append, ← List.append_assoc] at hts
    obtain ⟨rfl, -⟩ := List.append_inj' hts rfl
    rw [List.append_assoc] at hs
    have hn : initial.shifts (ts ++ t :: us) = none := by rw [shifts_append h, shifts, hr]
    cases hn.symm.trans hs

end Expecting

namespace Reading

theorem next_of_reads {p : List Lexeme} {d : Datum} (h : Expecting.Reads (p.map Lexeme.token) d) :
    ∃ l ∈ p.getLast?, ∀ size rest, next size .initial (p ++ rest) = some (⟨.ok d, l.stop⟩, rest) := by
  obtain ⟨init, t, hts, hreads⟩ := h
  obtain ⟨e, hs, ht⟩ := hreads []
  obtain ⟨q, l', rfl, rfl, hl⟩ := List.map_eq_append_iff.mp hts
  obtain ⟨l, rfl, rfl⟩ := List.map_eq_singleton_iff.mp hl
  refine ⟨l, by simp, fun size rest => ?_⟩
  rw [List.append_assoc, Expecting.initial, next_shifts hs, List.singleton_append, next, ht]
  rfl

theorem next_of_derives {p : List Lexeme} {m : Meaning} (h : Derives (p.map Lexeme.token) m) :
    ∃ d : Datum, d.toExpr = m ∧ ∃ offset, ∀ size rest,
      next size .initial (p ++ rest) = some (⟨.ok d, offset⟩, rest) := by
  obtain ⟨d, hd, hr⟩ := Expecting.reads_of_derives h
  obtain ⟨l, -, hn⟩ := next_of_reads hr
  exact ⟨d, hd, l.stop, hn⟩

/-- The first reading is one of four: none, a sentence, tokens that break off, or tokens of which
the last is the first that cannot stand where it does. -/
theorem next_outcome {ls : List Lexeme} (h : ∀ l ∈ ls, l.token ≠ .unterminated) (size : Nat) :
    (ls = [] ∧ next size .initial ls = none) ∨
    (∃ p rest d offset, ls = p ++ rest ∧ Derives (p.map Lexeme.token) d.toExpr ∧
      next size .initial ls = some (⟨.ok d, offset⟩, rest)) ∨
    (ls ≠ [] ∧ Viable (ls.map Lexeme.token) ∧ next size .initial ls = some (⟨.error .endOfInput, size⟩, [])) ∨
    (∃ p l rest r, ls = p ++ l :: rest ∧ r.isIncomplete = false ∧ Viable (p.map Lexeme.token) ∧
      ¬ Viable ((p ++ [l]).map Lexeme.token) ∧ next size .initial ls = some (⟨.error r, l.stop⟩, rest)) := by
  have after {p : List Lexeme} {e : Expecting} (he : Expecting.initial.shifts (p.map Lexeme.token) = some e) :
      e.After (p.map Lexeme.token) := Expecting.shifts_after Expecting.initial_after he
  rcases next_cases .initial ls with ⟨e, he, hn⟩ | ⟨p, l, rest, e, v, rfl, he, hv, hn⟩
  · by_cases hl : ls = []
    · subst hl
      exact .inl ⟨rfl, rfl⟩
    · have hi := Expecting.shifts_isInitial he (by simpa using hl)
      exact .inr (.inr (.inl ⟨hl, (after he).viable, by rw [hn, hi]; rfl⟩))
  · cases hs : e.step l.token with
    | shift e₁ => simp [hs, Verdict.result?] at hv
    | accept d =>
      obtain rfl : .ok d = v := by simpa [hs, Verdict.result?] using hv
      refine .inr (.inl ⟨p ++ [l], rest, d, l.stop, by simp, ?_, hn size rest⟩)
      simpa using (Expecting.step_after (after he) l.token).2 d hs
    | reject r =>
      obtain rfl : .error r = v := by simpa [hs, Verdict.result?] using hv
      refine .inr (.inr (.inr ⟨p, l, rest, r, rfl, ?_, (after he).viable, ?_, hn size rest⟩))
      · rcases Expecting.step_reject hs with ⟨ht, -⟩ | ⟨-, hr⟩
        · exact absurd ht (h l (by simp))
        · exact hr
      · simpa using Expecting.reject_not_viable he hs

theorem next_of_hasSentence {ls : List Lexeme} (h : HasSentence (ls.map Lexeme.token)) (size : Nat) :
    ∃ d offset rest, next size .initial ls = some (⟨.ok d, offset⟩, rest) := by
  obtain ⟨p, rest, m, hts, hd⟩ := h
  obtain ⟨q, ls', rfl, rfl, rfl⟩ := List.map_eq_append_iff.mp hts
  obtain ⟨d, -, offset, hn⟩ := next_of_derives hd
  exact ⟨d, offset, ls', hn size ls'⟩

theorem next_ok_iff {ls : List Lexeme} (h : ∀ l ∈ ls, l.token ≠ .unterminated) (size : Nat) (rest : List Lexeme)
    (m : Meaning) :
    (∃ d offset, next size .initial ls = some (⟨.ok d, offset⟩, rest) ∧ d.toExpr = m) ↔
      ∃ p, ls = p ++ rest ∧ Derives (p.map Lexeme.token) m := by
  constructor
  · rintro ⟨d, offset, hn, rfl⟩
    rcases next_outcome h size with
      ⟨-, ho⟩ | ⟨p, rest', d', offset', rfl, hd, ho⟩ | ⟨-, -, ho⟩ | ⟨p, l, rest', r, -, -, -, -, ho⟩
    · cases ho.symm.trans hn
    · cases ho.symm.trans hn
      exact ⟨p, rfl, hd⟩
    · cases ho.symm.trans hn
    · cases ho.symm.trans hn
  · rintro ⟨p, rfl, hd⟩
    obtain ⟨d, hm, offset, hn⟩ := next_of_derives hd
    exact ⟨d, offset, hn size rest, hm⟩

theorem sentence_unique {p rest p' rest' : List Lexeme} {m m' : Meaning} (he : p ++ rest = p' ++ rest')
    (h : Derives (p.map Lexeme.token) m) (h' : Derives (p'.map Lexeme.token) m') : p = p' ∧ m = m' := by
  obtain ⟨d, rfl, offset, hn⟩ := next_of_derives h
  obtain ⟨d', rfl, offset', hn'⟩ := next_of_derives h'
  cases (hn 0 rest).symm.trans ((congrArg (next 0 .initial) he).trans (hn' 0 rest'))
  exact ⟨List.append_cancel_right he, rfl⟩

theorem next_endOfInput_iff {ls : List Lexeme} (h : ∀ l ∈ ls, l.token ≠ .unterminated) (size : Nat) :
    (∃ offset rest, next size .initial ls = some (⟨.error .endOfInput, offset⟩, rest)) ↔
      ls ≠ [] ∧ ¬ HasSentence (ls.map Lexeme.token) ∧ Unfinished (ls.map Lexeme.token) := by
  constructor
  · rintro ⟨offset, rest, hn⟩
    have hns : ¬ HasSentence (ls.map Lexeme.token) := by
      intro hs
      obtain ⟨d, offset', rest', hok⟩ := next_of_hasSentence hs size
      cases hok.symm.trans hn
    rcases next_outcome h size with
      ⟨-, ho⟩ | ⟨p, rest', d', offset', rfl, hd, ho⟩ | ⟨hl, hv, ho⟩ | ⟨p, l, rest', r, -, hr, -, -, ho⟩
    · cases ho.symm.trans hn
    · cases ho.symm.trans hn
    · exact ⟨hl, hns, hv.unfinished hns⟩
    · cases ho.symm.trans hn
      cases hr
  · rintro ⟨hl, hns, us, m, -, hd⟩
    rcases next_outcome h size with
      ⟨hnil, -⟩ | ⟨p, rest, d, offset, rfl, hp, -⟩ | ⟨-, -, ho⟩ | ⟨p, l, rest, r, rfl, -, -, hnv, -⟩
    · exact absurd hnil hl
    · exact absurd ⟨_, _, _, List.map_append, hp⟩ hns
    · exact ⟨size, [], ho⟩
    · refine absurd ?_ hnv
      exact ⟨rest.map Lexeme.token ++ us, m, by simpa using hd⟩

theorem next_rejected_iff {ls : List Lexeme} (h : ∀ l ∈ ls, l.token ≠ .unterminated) (size : Nat) :
    (∃ p l rest r, ls = p ++ l :: rest ∧ next size .initial ls = some (⟨.error r, l.stop⟩, rest) ∧
        r.isIncomplete = false ∧ Viable (p.map Lexeme.token) ∧ ¬ Viable ((p ++ [l]).map Lexeme.token)) ↔
      ls ≠ [] ∧ ¬ HasSentence (ls.map Lexeme.token) ∧ ¬ Unfinished (ls.map Lexeme.token) := by
  constructor
  · rintro ⟨p, l, rest, r, rfl, hn, -, -, hnv⟩
    refine ⟨by simp, fun hs => ?_, ?_⟩
    · obtain ⟨d, offset, rest', hok⟩ := next_of_hasSentence hs size
      cases hok.symm.trans hn
    · rintro ⟨us, m, -, hd⟩
      exact hnv ⟨rest.map Lexeme.token ++ us, m, by simpa using hd⟩
  · rintro ⟨hl, hns, hnu⟩
    rcases next_outcome h size with
      ⟨hnil, -⟩ | ⟨p, rest, d, offset, rfl, hp, -⟩ | ⟨-, hv, -⟩ | ⟨p, l, rest, r, hls, hr, hv, hnv, ho⟩
    · exact absurd hnil hl
    · exact absurd ⟨_, _, _, List.map_append, hp⟩ hns
    · exact absurd (hv.unfinished hns) hnu
    · exact ⟨p, l, rest, r, hls, ho, hr, hv, hnv⟩

/-- The reader accepts the sentences of the grammar with their meanings, and stops at the first
token behind which no sentence is left. -/
theorem next_iff_grammar (size : Nat) (ls : List Lexeme) (h : ∀ l ∈ ls, l.token ≠ .unterminated) :
    (∀ rest m, (∃ d offset, next size .initial ls = some (⟨.ok d, offset⟩, rest) ∧ d.toExpr = m) ↔
      ∃ p, ls = p ++ rest ∧ Derives (p.map Lexeme.token) m) ∧
    (∀ p rest m p' rest' m', ls = p ++ rest → Derives (p.map Lexeme.token) m →
      ls = p' ++ rest' → Derives (p'.map Lexeme.token) m' → p = p' ∧ m = m') ∧
    (next size .initial ls = none ↔ ls = []) ∧
    ((∃ offset rest, next size .initial ls = some (⟨.error .endOfInput, offset⟩, rest)) ↔
      ls ≠ [] ∧ ¬ HasSentence (ls.map Lexeme.token) ∧ Unfinished (ls.map Lexeme.token)) ∧
    ((∃ p l rest r, ls = p ++ l :: rest ∧ next size .initial ls = some (⟨.error r, l.stop⟩, rest) ∧
        r.isIncomplete = false ∧ Viable (p.map Lexeme.token) ∧ ¬ Viable ((p ++ [l]).map Lexeme.token)) ↔
      ls ≠ [] ∧ ¬ HasSentence (ls.map Lexeme.token) ∧ ¬ Unfinished (ls.map Lexeme.token)) := by
  refine ⟨next_ok_iff h size, ?_, ⟨next_eq_none, fun hl => by rw [hl]; rfl⟩, next_endOfInput_iff h size,
    next_rejected_iff h size⟩
  rintro p rest m p' rest' m' rfl hd he hd'
  exact sentence_unique he hd hd'

theorem next_iff_grammar_dotted :
    (∀ l ∈ Lexeme.scan "'(A . B) C", l.token ≠ .unterminated) ∧
      ∃ p, Lexeme.scan "'(A . B) C" = p ++ [⟨.literal "C", 9, 10⟩] ∧
        Derives (p.map Lexeme.token)
          (Meaning.quoted (.list [Datum.literalExpr "A"] (Datum.literalExpr "B"))) := by
  have h : ∀ l ∈ Lexeme.scan "'(A . B) C", l.token ≠ .unterminated := by decide
  refine ⟨h, ((next_iff_grammar 10 _ h).1 _ _).mp ⟨.quoted (.pair (.literal "A") (.literal "B")), 8, rfl, ?_⟩⟩
  exact congrArg Meaning.quoted (Datum.toExpr_chain [.literal "A"] (.literal "B"))

end Reading

end Lisp
