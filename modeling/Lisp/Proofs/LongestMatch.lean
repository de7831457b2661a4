import Lisp.Proofs.TextLayout
import Mathlib.Data.Nat.Find

namespace Lisp.Lexeme

open Text (byteSize)

/-- The texts that match a pattern of the lexer as a whole, with the token that each stands for.
Those that stand for none are skipped. -/
inductive Matched : Option Token → List Char → Prop
  | blanks {cs : List Char} : cs ≠ [] → (∀ c ∈ cs, Text.isBlank c = true) → Matched none cs
  | comment {text : List Char} : '\n' ∉ text → Matched none (';' :: text)
  | spelled {t : Token} {word : List Char} : Spelled t word → Matched (some t) word
  | unterminated {body : List Char} : Unclosed body → Matched (some .unterminated) ('"' :: body)

structure Longest (t : Option Token) (word cs : List Char) : Prop where
  matched : Matched t word
  start : word <+: cs
  longest : ∀ t' word', Matched t' word' → word' <+: cs → word'.length ≤ word.length

/-- The lexemes that come of taking the longest match again and again, from a given offset on, until
nothing is left of the text. -/
inductive Munched : Nat → List Char → List Lexeme → Prop
  | done {k : Nat} : Munched k [] []
  | skip {k : Nat} {word rest : List Char} {ls : List Lexeme} : Longest none word (word ++ rest) →
    Munched (k + byteSize word) rest ls → Munched k (word ++ rest) ls
  | token {k : Nat} {t : Token} {word rest : List Char} {ls : List Lexeme} : Longest (some t) word (word ++ rest) →
    Munched (k + byteSize word) rest ls → Munched k (word ++ rest) (⟨t, k, k + byteSize word⟩ :: ls)

theorem Matched.ne_nil {t : Option Token} {word : List Char} (h : Matched t word) : word ≠ [] := by
  cases h with
  | blanks hne _ => exact hne
  | comment _ => simp
  | spelled hw => cases hw <;> simp
  | unterminated _ => simp

theorem Quoted.append {body body' text text' : List Char} (h : Quoted body text) (h' : Quoted body' text') :
    Quoted (body ++ body') (text ++ text') := by
  induction h with
  | nil => exact h'
  | plain hq hb _ ih => exact ih.plain hq hb
  | escape _ ih => exact ih.escape

namespace Longest

variable {t t' : Option Token} {word rest : List Char}

theorem not_matched {c : Char} (h : Longest t word (word ++ c :: rest)) : ¬ Matched t' (word ++ [c]) := by
  intro hm
  have hle := h.longest t' _ hm ⟨rest, by simp⟩
  rw [List.length_append, List.length_singleton] at hle
  omega

theorem newline {text : List Char} (h : Longest t (';' :: text) (';' :: text ++ rest)) (ht : '\n' ∉ text) :
    ∀ c ∈ rest.head?, c = '\n' := by
  intro c hc
  obtain ⟨rest, rfl⟩ := List.head?_eq_some_iff.mp hc
  by_contra hne
  have ht' : '\n' ∉ text ++ [c] := by simp [ht, Ne.symm hne]
  exact h.not_matched (.comment ht')

theorem delimited {c : Char} {cs : List Char} (h : Longest t (c :: cs) (c :: cs ++ rest))
    (hc : Mode.isDelimiter c = false) (hdot : c ≠ '.') (hcs : ∀ x ∈ cs, Mode.isDelimiter x = false) :
    Delimited rest := by
  intro d hd
  obtain ⟨rest, rfl⟩ := List.head?_eq_some_iff.mp hd
  by_contra hne
  rw [Bool.not_eq_true] at hne
  have hcs' : ∀ x ∈ cs ++ [d], Mode.isDelimiter x = false := by
    simpa [or_imp, forall_and, hne] using hcs
  exact h.not_matched (.spelled (.literal hc hdot hcs'))

theorem eq_nil {body : List Char} (h : Longest t ('"' :: body) ('"' :: body ++ rest)) (hu : Unclosed body) :
    rest = [] := by
  cases rest with
  | nil => rfl
  | cons c rest =>
    exfalso
    obtain ⟨body, text, hq, rfl | rfl⟩ := hu
    · by_cases hquote : c = '"'
      · subst hquote
        exact h.not_matched (.spelled (.string hq))
      by_cases hslash : c = '\\'
      · subst hslash
        exact h.not_matched (.unterminated ⟨body, text, hq, .inr rfl⟩)
      · exact h.not_matched (.unterminated ⟨_, _, hq.append (.plain hquote hslash .nil), .inl rfl⟩)
    · have hnext := hq.append (.escape (c := c) .nil)
      exact h.not_matched (.unterminated ⟨_, _, hnext, .inl (by simp)⟩)

end Longest

theorem gap_of_blanks {cs : List Char} (h : ∀ c ∈ cs, Text.isBlank c = true) : Gap cs := by
  induction cs with
  | nil => exact .nil
  | cons c cs ih =>
    obtain ⟨hc, hcs⟩ := List.forall_mem_cons.mp h
    exact .blank hc (ih hcs)

theorem scanFrom_comment_end {rest : List Char} (h : ∀ c ∈ rest.head?, c = '\n') (k : Nat) :
    scanFrom .comment k rest = scanFrom .between k rest := by
  cases rest with
  | nil => rfl
  | cons c rest =>
    obtain rfl := h c rfl
    rfl

theorem Longest.scanFrom_skip {word rest : List Char} (h : Longest none word (word ++ rest)) (k : Nat) :
    scanFrom .between k (word ++ rest) = scanFrom .between (k + byteSize word) rest := by
  cases h.matched with
  | blanks _ hb => exact (gap_of_blanks hb).scanFrom k rest
  | comment ht =>
    rw [List.cons_append, scanFrom_semicolon ht]
    exact scanFrom_comment_end (h.newline ht) _

theorem Longest.scanFrom_token {t : Token} {word rest : List Char} (h : Longest (some t) word (word ++ rest)) (k : Nat) :
    scanFrom .between k (word ++ rest) =
      ⟨t, k, k + byteSize word⟩ :: scanFrom .between (k + byteSize word) rest := by
  cases h.matched with
  | spelled hw =>
    apply hw.scanFrom
    intro ht
    cases hw with
    | literal hc hdot hcs => exact h.delimited hc hdot hcs
    | _ => cases ht
  | unterminated hu =>
    obtain rfl := h.eq_nil hu
    rw [List.append_nil]
    exact hu.scanFrom k

theorem Munched.scanFrom {k : Nat} {cs : List Char} {ls : List Lexeme} (h : Munched k cs ls) :
    scanFrom .between k cs = ls := by
  induction h with
  | done => rfl
  | skip hw _ ih => rw [hw.scanFrom_skip, ih]
  | token hw _ ih => rw [hw.scanFrom_token, ih]

theorem exists_matched (c : Char) (cs : List Char) : ∃ t word, Matched t word ∧ word <+: c :: cs := by
  cases hb : Text.isBlank c with
  | true => exact ⟨none, [c], .blanks (by simp) (by simpa using hb), cs, rfl⟩
  | false =>
    by_cases hc : c = ';'
    · subst hc
      exact ⟨none, [';'], .comment (by simp), cs, rfl⟩
    obtain ⟨t, word, rest, hw, hword, -⟩ | ⟨body, hbody, hu⟩ := spelled_split cs hb hc
    · exact ⟨t, word, .spelled hw, rest, hword.symm⟩
    · exact ⟨_, _, .unterminated hu, [], by rw [hbody, List.append_nil]⟩

theorem exists_longest (c : Char) (cs : List Char) : ∃ t word, Longest t word (c :: cs) := by
  classical
  -- no match is longer than the text, so there is a greatest length
  let P (n : Nat) : Prop := ∃ t word, Matched t word ∧ word <+: c :: cs ∧ word.length = n
  obtain ⟨t, word, hm, hp⟩ := exists_matched c cs
  have bound {word : List Char} (hp : word <+: c :: cs) : word.length ≤ (c :: cs).length := hp.length_le
  obtain ⟨t', word', hm', hp', hn⟩ : P (Nat.findGreatest P (c :: cs).length) :=
    Nat.findGreatest_spec (bound hp) ⟨t, word, hm, hp, rfl⟩
  refine ⟨t', word', hm', hp', ?_⟩
  intro u v hu hv
  rw [hn]
  exact Nat.le_findGreatest (bound hv) ⟨u, v, hu, hv, rfl⟩

theorem exists_munched (k : Nat) (cs : List Char) : ∃ ls, Munched k cs ls := by
  induction hn : cs.length using Nat.strongRecOn generalizing k cs with
  | ind n ih =>
  cases cs with
  | nil => exact ⟨[], .done⟩
  | cons c cs =>
    obtain ⟨t, word, h⟩ := exists_longest c cs
    obtain ⟨rest, hrest⟩ := h.start
    rw [← hrest] at h hn ⊢
    have hlt : rest.length < n := by
      have hpos := List.length_pos_iff.mpr h.matched.ne_nil
      rw [List.length_append] at hn
      omega
    obtain ⟨ls, hls⟩ := ih rest.length hlt (k + byteSize word) rest rfl
    cases t with
    | none => exact ⟨ls, .skip h hls⟩
    | some t => exact ⟨_, .token h hls⟩

theorem scan_eq_iff_munched (source : String) (ls : List Lexeme) :
    scan source = ls ↔ Munched 0 source.toList ls := by
  constructor
  · rintro rfl
    obtain ⟨ls, h⟩ := exists_munched 0 source.toList
    rw [scan, h.scanFrom]
    exact h
  · intro h
    exact h.scanFrom

end Lisp.Lexeme
