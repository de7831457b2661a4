import Lisp.Proofs.WrittenTokens

namespace Lisp

namespace Token

def isLiteral : Token → Bool
  | literal _ => true
  | _ => false

def sticks : Token → Bool
  | literal _ => true
  | dot => true
  | _ => false

end Token

namespace Lexeme

open Text (byteSize)

inductive Gap : List Char → Prop
  | nil : Gap []
  | blank {c : Char} {cs : List Char} : Text.isBlank c = true → Gap cs → Gap (c :: cs)
  | comment {text cs : List Char} : '\n' ∉ text → Gap cs → Gap (';' :: (text ++ '\n' :: cs))

def Unclosed (cs : List Char) : Prop :=
  ∃ body text, Quoted body text ∧ (cs = body ∨ cs = body ++ ['\\'])

inductive Spelled : Token → List Char → Prop
  | leftParen : Spelled .leftParen ['(']
  | rightParen : Spelled .rightParen [')']
  | quote : Spelled .quote ['\'']
  | dot : Spelled .dot ['.']
  | string {body text : List Char} :
    Quoted body text → Spelled (.string (String.ofList text)) ('"' :: (body ++ ['"']))
  | literal {c : Char} {cs : List Char} :
    Mode.isDelimiter c = false → c ≠ '.' → (∀ x ∈ cs, Mode.isDelimiter x = false) →
      Spelled (.literal (String.ofList (c :: cs))) (c :: cs)

/-- The text is made up of the lexemes with gaps around them, from a given offset on. Two of them
may touch unless the second sticks to a literal before it, and `literal` says whether there is one. At
the end there may be a comment without a newline or a string without its closing quote. -/
inductive Laid : (literal : Bool) → Nat → List Char → List Lexeme → Prop
  | done {b : Bool} {k : Nat} {gap : List Char} : Gap gap → Laid b k gap []
  | comment {b : Bool} {k : Nat} {gap text : List Char} :
    Gap gap → '\n' ∉ text → Laid b k (gap ++ ';' :: text) []
  | unterminated {b : Bool} {k : Nat} {gap body : List Char} : Gap gap → Unclosed body →
    Laid b k (gap ++ '"' :: body) [⟨.unterminated, k + byteSize gap, k + byteSize gap + byteSize ('"' :: body)⟩]
  | token {b : Bool} {k : Nat} {gap word rest : List Char} {t : Token} {ls : List Lexeme} :
    Gap gap → Spelled t word → (b = true → t.sticks = true → gap ≠ []) →
      Laid t.isLiteral (k + byteSize gap + byteSize word) rest ls →
      Laid b k (gap ++ word ++ rest) (⟨t, k + byteSize gap, k + byteSize gap + byteSize word⟩ :: ls)

theorem Gap.delimited {gap : List Char} (h : Gap gap) (hne : gap ≠ []) (rest : List Char) :
    Delimited (gap ++ rest) := by
  cases h with
  | nil => exact absurd rfl hne
  | blank hc _ =>
    rintro _ ⟨⟩
    simp [Mode.isDelimiter, hc]
  | comment _ _ =>
    rintro _ ⟨⟩
    decide

theorem Spelled.delimited {t : Token} {word : List Char} (h : Spelled t word) (ht : t.sticks = false)
    (rest : List Char) : Delimited (word ++ rest) := by
  cases h with
  | dot => cases ht
  | literal _ _ _ => cases ht
  | _ =>
    rintro _ ⟨⟩
    decide

theorem Spelled.not_delimited {t : Token} {word : List Char} (h : Spelled t word) (ht : t.sticks = true)
    (rest : List Char) : ¬ Delimited (word ++ rest) := by
  intro hd
  cases h with
  | dot => exact absurd (hd '.' rfl) (by decide)
  | @literal c _ hc _ _ => simp [hd c rfl] at hc
  | _ => cases ht

theorem Laid.delimited {k : Nat} {cs : List Char} {ls : List Lexeme} (h : Laid true k cs ls) : Delimited cs := by
  cases h with
  | done hg =>
    by_cases hne : cs = []
    · simp [hne, Delimited]
    · simpa using hg.delimited hne []
  | @comment _ _ gap text hg _ =>
    by_cases hne : gap = []
    · subst hne
      rintro _ ⟨⟩
      decide
    · exact hg.delimited hne _
  | @unterminated _ _ gap body hg _ =>
    by_cases hne : gap = []
    · subst hne
      rintro _ ⟨⟩
      decide
    · exact hg.delimited hne _
  | @token _ _ gap word rest t _ hg hw hs _ =>
    rw [List.append_assoc]
    by_cases hne : gap = []
    · subst hne
      apply hw.delimited
      cases ht : t.sticks with
      | false => rfl
      | true => exact absurd rfl (hs rfl ht)
    · exact hg.delimited hne _

theorem scanFrom_comment {text : List Char} (h : '\n' ∉ text) (k : Nat) (rest : List Char) :
    scanFrom .comment k (text ++ rest) = scanFrom .comment (k + byteSize text) rest := by
  induction text generalizing k with
  | nil => rfl
  | cons c text ih =>
    obtain ⟨hc, htext⟩ := not_or.mp (mt List.mem_cons.mpr h)
    rw [List.cons_append, scanFrom_cons, Mode.step, if_neg (Ne.symm hc), List.nil_append, ih htext,
      Text.byteSize_cons, Nat.add_assoc]

theorem scanFrom_semicolon {text : List Char} (h : '\n' ∉ text) (k : Nat) (rest : List Char) :
    scanFrom .between k (';' :: (text ++ rest)) = scanFrom .comment (k + byteSize (';' :: text)) rest := by
  rw [Text.byteSize_cons, ← Nat.add_assoc, ← scanFrom_comment h]
  rfl

theorem Gap.scanFrom {gap : List Char} (h : Gap gap) (k : Nat) (rest : List Char) :
    scanFrom .between k (gap ++ rest) = scanFrom .between (k + byteSize gap) rest := by
  induction h generalizing k with
  | nil => rfl
  | blank hc _ ih =>
    rw [List.cons_append, scanFrom_cons, Mode.step, Mode.fresh, if_pos hc, List.nil_append, ih,
      Text.byteSize_cons, Nat.add_assoc]
  | @comment text cs ht _ ih =>
    rw [List.cons_append, List.append_assoc, scanFrom_semicolon ht, List.cons_append, scanFrom_cons]
    simp only [Mode.step, if_pos, List.nil_append, ih]
    simp only [Text.byteSize_cons, Text.byteSize_append, Nat.add_assoc]

theorem Unclosed.scanFrom {body : List Char} (h : Unclosed body) (k : Nat) :
    scanFrom .between k ('"' :: body) = [⟨.unterminated, k, k + byteSize ('"' :: body)⟩] := by
  obtain ⟨body', text, hq, rfl | rfl⟩ := h
  · have hs := hq.scanFrom k (k + 1) [] []
    rw [List.append_nil] at hs
    rw [Text.byteSize_cons, ← Nat.add_assoc]
    exact hs
  · have hs := hq.scanFrom k (k + 1) [] ['\\']
    rw [Text.byteSize_cons, Text.byteSize_append, ← Nat.add_assoc, ← Nat.add_assoc]
    exact hs

theorem Spelled.scanFrom {t : Token} {word rest : List Char} (h : Spelled t word)
    (hr : t.isLiteral = true → Delimited rest) (k : Nat) :
    scanFrom .between k (word ++ rest) =
      ⟨t, k, k + byteSize word⟩ :: scanFrom .between (k + byteSize word) rest := by
  cases h with
  | string hq => exact hq.scanFrom_close k rest
  | @literal c cs hc hdot hcs =>
    rw [List.cons_append, scanFrom_cons, Mode.step, fresh_literal hc hdot, List.nil_append,
      scanFrom_literal hcs (hr rfl), Text.byteSize_cons, Nat.add_assoc]
    simp [Mode.closeLiteral]
  | _ => rfl

theorem Laid.scanFrom {b : Bool} {k : Nat} {cs : List Char} {ls : List Lexeme} (h : Laid b k cs ls) :
    scanFrom .between k cs = ls := by
  induction h with
  | @done _ k _ hg =>
    have hs := hg.scanFrom k []
    rwa [List.append_nil] at hs
  | @comment _ k gap _ hg ht =>
    have hs := scanFrom_semicolon ht (k + byteSize gap) []
    rw [List.append_nil] at hs
    rw [hg.scanFrom, hs]
    rfl
  | unterminated hg hu => rw [hg.scanFrom, hu.scanFrom]
  | token hg hw hs hrest ih =>
    rw [List.append_assoc, hg.scanFrom, hw.scanFrom, ih]
    intro ht
    rw [ht] at hrest
    exact hrest.delimited

theorem Laid.spelled {b : Bool} {k : Nat} {cs : List Char} {ls : List Lexeme} (h : Laid b k cs ls) {l : Lexeme}
    (hl : l ∈ ls) : ∃ before word after, cs = before ++ word ++ after ∧ l.start = k + byteSize before ∧
      l.stop = l.start + byteSize word ∧
      (Spelled l.token word ∨ l.token = .unterminated ∧ after = [] ∧ ∃ body, word = '"' :: body ∧ Unclosed body) := by
  induction h with
  | done _ => cases hl
  | comment _ _ => cases hl
  | @unterminated _ _ gap body _ hu =>
    obtain rfl := List.mem_singleton.mp hl
    exact ⟨gap, '"' :: body, [], (List.append_nil _).symm, rfl, rfl, .inr ⟨rfl, rfl, body, rfl, hu⟩⟩
  | @token _ _ gap word rest _ _ _ hw _ _ ih =>
    rcases List.mem_cons.mp hl with rfl | hl
    · exact ⟨gap, word, rest, rfl, rfl, rfl, .inl hw⟩
    · obtain ⟨before, word', after, rfl, hstart, hstop, hspelled⟩ := ih hl
      refine ⟨gap ++ word ++ before, word', after, by simp, ?_, hstop, hspelled⟩
      rw [hstart, Text.byteSize_append, Text.byteSize_append, ← Nat.add_assoc, ← Nat.add_assoc]

theorem quoted_split (cs : List Char) :
    (∃ body text rest, Quoted body text ∧ cs = body ++ '"' :: rest) ∨ Unclosed cs := by
  match cs with
  | [] => exact .inr ⟨[], [], .nil, .inl rfl⟩
  | c :: cs =>
    by_cases hq : c = '"'
    · exact .inl ⟨[], [], cs, .nil, by rw [hq]; rfl⟩
    by_cases hb : c = '\\'
    · subst hb
      match cs with
      | [] => exact .inr ⟨[], [], .nil, .inr rfl⟩
      | d :: cs =>
        obtain ⟨body, text, rest, h, rfl⟩ | ⟨body, text, h, hcs⟩ := quoted_split cs
        · exact .inl ⟨'\\' :: d :: body, _, rest, h.escape, rfl⟩
        · refine .inr ⟨'\\' :: d :: body, _, h.escape, ?_⟩
          simpa using hcs
    · obtain ⟨body, text, rest, h, rfl⟩ | ⟨body, text, h, hcs⟩ := quoted_split cs
      · exact .inl ⟨c :: body, _, rest, h.plain hq hb, rfl⟩
      · refine .inr ⟨c :: body, _, h.plain hq hb, ?_⟩
        simpa using hcs

theorem literal_split (cs : List Char) :
    ∃ word rest, cs = word ++ rest ∧ (∀ c ∈ word, Mode.isDelimiter c = false) ∧ Delimited rest := by
  induction cs with
  | nil => exact ⟨[], [], rfl, by simp, by simp [Delimited]⟩
  | cons c cs ih =>
    cases hc : Mode.isDelimiter c with
    | true => exact ⟨[], c :: cs, rfl, by simp, by simpa [Delimited] using hc⟩
    | false =>
      obtain ⟨word, rest, rfl, hw, hr⟩ := ih
      exact ⟨c :: word, rest, rfl, by simpa [hc] using hw, hr⟩

theorem spelled_split {c : Char} (cs : List Char) (hb : Text.isBlank c = false) (hc : c ≠ ';') :
    (∃ t word rest, Spelled t word ∧ c :: cs = word ++ rest ∧ (t.isLiteral = true → Delimited rest)) ∨
      ∃ body, c :: cs = '"' :: body ∧ Unclosed body := by
  by_cases hdot : c = '.'
  · exact .inl ⟨.dot, ['.'], cs, .dot, by rw [hdot]; rfl, by simp [Token.isLiteral]⟩
  cases hd : Mode.isDelimiter c with
  | false =>
    obtain ⟨word, rest, rfl, hw, hr⟩ := literal_split cs
    exact .inl ⟨_, c :: word, rest, .literal hd hdot hw, rfl, fun _ => hr⟩
  | true =>
    simp only [Mode.isDelimiter, hb, Bool.false_or, Bool.or_eq_true, beq_iff_eq, hc, or_false] at hd
    obtain ((rfl | rfl) | rfl) | rfl := hd
    · exact .inl ⟨.leftParen, ['('], cs, .leftParen, rfl, by simp [Token.isLiteral]⟩
    · exact .inl ⟨.rightParen, [')'], cs, .rightParen, rfl, by simp [Token.isLiteral]⟩
    · exact .inl ⟨.quote, ['\''], cs, .quote, rfl, by simp [Token.isLiteral]⟩
    · obtain ⟨body, text, rest, h, rfl⟩ | h := quoted_split cs
      · exact .inl ⟨_, _, rest, .string h, by simp, by simp [Token.isLiteral]⟩
      · exact .inr ⟨cs, rfl, h⟩

theorem gap_split (cs : List Char) :
    ∃ gap rest, Gap gap ∧ cs = gap ++ rest ∧
      ∀ c ∈ rest.head?, Text.isBlank c = false ∧ (c = ';' → '\n' ∉ rest) := by
  -- on the length, as a comment is left behind as a whole
  induction hn : cs.length using Nat.strongRecOn generalizing cs with
  | ind n ih =>
  subst hn
  cases cs with
  | nil => exact ⟨[], [], .nil, rfl, by simp⟩
  | cons c cs =>
    cases hb : Text.isBlank c with
    | true =>
      obtain ⟨gap, rest, hg, rfl, hr⟩ := ih cs.length (by simp) cs rfl
      exact ⟨c :: gap, rest, .blank hb hg, rfl, hr⟩
    | false =>
      by_cases hc : c = ';' ∧ '\n' ∈ cs
      · obtain ⟨rfl, hn⟩ := hc
        obtain ⟨text, cs, rfl, ht⟩ := List.eq_append_cons_of_mem hn
        obtain ⟨gap, rest, hg, rfl, hr⟩ := ih cs.length (by simp; omega) cs rfl
        exact ⟨';' :: (text ++ '\n' :: gap), rest, .comment ht hg, by simp, hr⟩
      · refine ⟨[], c :: cs, .nil, rfl, ?_⟩
        simp only [List.head?_cons, Option.mem_def, Option.some_inj, forall_eq']
        refine ⟨hb, ?_⟩
        rintro rfl
        simpa using hc

theorem exists_laid {b : Bool} {cs : List Char} (hb : b = true → Delimited cs) (k : Nat) : ∃ ls, Laid b k cs ls := by
  induction hn : cs.length using Nat.strongRecOn generalizing b cs k with
  | ind n ih =>
  obtain ⟨gap, rest, hg, rfl, hr⟩ := gap_split cs
  cases rest with
  | nil => exact ⟨[], by rw [List.append_nil]; exact .done hg⟩
  | cons c rest =>
    obtain ⟨hblank, hsemi⟩ := hr c rfl
    by_cases hc : c = ';'
    · subst hc
      exact ⟨[], .comment hg (by simpa using hsemi rfl)⟩
    obtain ⟨t, word, after, hw, hword, hd⟩ | ⟨body, hbody, hu⟩ := spelled_split rest hblank hc
    · have hlt : after.length < n := by
        have hne : 0 < word.length := by cases hw <;> simp
        rw [← hn, hword, List.length_append, List.length_append]
        omega
      -- without a gap, the text would go on with the literal before it
      have hs : b = true → t.sticks = true → gap ≠ [] := by
        rintro hb' ht rfl
        apply hw.not_delimited ht after
        rw [← hword]
        exact hb hb'
      obtain ⟨ls, hls⟩ := ih after.length hlt hd (k + byteSize gap + byteSize word) rfl
      rw [hword, ← List.append_assoc]
      exact ⟨_, .token hg hw hs hls⟩
    · rw [hbody]
      exact ⟨_, .unterminated hg hu⟩

theorem scan_eq_iff_laid (source : String) (ls : List Lexeme) : scan source = ls ↔ Laid false 0 source.toList ls := by
  constructor
  · rintro rfl
    have hstart : false = true → Delimited source.toList := by simp
    obtain ⟨ls, h⟩ := exists_laid hstart 0
    rw [scan, h.scanFrom]
    exact h
  · intro h
    exact h.scanFrom

end Lexeme

end Lisp
