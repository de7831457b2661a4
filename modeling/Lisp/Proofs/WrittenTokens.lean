import Lisp.Proofs.Scanning

namespace Lisp.Lexeme

open Text (byteSize)

def Delimited (cs : List Char) : Prop :=
  ∀ c ∈ cs.head?, Mode.isDelimiter c = true

/-- Where a token may start, the characters make up the tokens and nothing more, the last of them
ending with the last character. -/
def Yields (cs : List Char) (ts : List Token) : Prop :=
  ∀ offset rest, Delimited rest → ∃ ls,
    scanFrom .between offset (cs ++ rest) = ls ++ scanFrom .between (offset + byteSize cs) rest ∧
      ls.map token = ts ∧ ∀ l ∈ ls.getLast?, l.stop = offset + byteSize cs

theorem Yields.scan {source : String} {ts : List Token} (h : Yields source.toList ts) :
    (Lexeme.scan source).map token = ts ∧ ∀ l ∈ (Lexeme.scan source).getLast?, l.stop = source.utf8ByteSize := by
  obtain ⟨ls, hs, ht, hstop⟩ := h 0 [] (by simp [Delimited])
  rw [List.append_nil, scanFrom_nil, Mode.finish, List.append_nil] at hs
  rw [Nat.zero_add, ← Text.utf8ByteSize_eq] at hstop
  rw [Lexeme.scan, hs]
  exact ⟨ht, hstop⟩

theorem Yields.append {cs cs' : List Char} {ts ts' : List Token} (h : Yields cs ts) (h' : Yields cs' ts')
    (hd : ∀ rest, Delimited rest → Delimited (cs' ++ rest)) (hne : ts' ≠ []) :
    Yields (cs ++ cs') (ts ++ ts') := by
  intro offset rest hr
  obtain ⟨ls, hs, rfl, -⟩ := h offset (cs' ++ rest) (hd rest hr)
  obtain ⟨ls', hs', rfl, hstop⟩ := h' (offset + byteSize cs) rest hr
  have hls : ls' ≠ [] := by simpa using hne
  refine ⟨ls ++ ls', ?_, by simp, ?_⟩
  · rw [List.append_assoc, hs, hs', Text.byteSize_append, List.append_assoc, Nat.add_assoc]
  · intro l hl
    rw [Text.byteSize_append, ← Nat.add_assoc]
    exact hstop l (by simpa [List.getLast?_append, hls] using hl)

theorem Yields.blank {cs : List Char} {ts : List Token} (h : Yields cs ts) : Yields (' ' :: cs) ts := by
  intro offset rest hr
  obtain ⟨ls, hs, ht, hstop⟩ := h (offset + ' '.utf8Size) rest hr
  have hsize : offset + byteSize (' ' :: cs) = offset + ' '.utf8Size + byteSize cs := by
    rw [Text.byteSize_cons, Nat.add_assoc]
  rw [hsize]
  exact ⟨ls, hs, ht, hstop⟩

theorem Yields.cons {c : Char} {cs : List Char} {t : Token} {ts : List Token}
    (hc : ∀ offset, Mode.fresh offset c = ([⟨t, offset, offset + 1⟩], .between)) (hsize : c.utf8Size = 1)
    (h : Yields cs ts) (hne : ts ≠ []) : Yields (c :: cs) (t :: ts) := by
  intro offset rest hr
  obtain ⟨ls, hs, rfl, hstop⟩ := h (offset + 1) rest hr
  obtain ⟨x, xs, rfl⟩ := List.exists_cons_of_ne_nil (show ls ≠ [] by simpa using hne)
  have hsum : offset + byteSize (c :: cs) = offset + 1 + byteSize cs := by
    rw [Text.byteSize_cons, hsize, Nat.add_assoc]
  refine ⟨⟨t, offset, offset + 1⟩ :: x :: xs, ?_, rfl, ?_⟩
  · rw [List.cons_append, scanFrom_cons, Mode.step, hc, hsize, hs, hsum]
    rfl
  · intro l hl
    rw [hsum]
    exact hstop l (by rwa [List.getLast?_cons_cons] at hl)

theorem yields_close : Yields [')'] [.rightParen] := by
  intro offset rest _
  exact ⟨[⟨.rightParen, offset, offset + 1⟩], rfl, rfl, by simp; rfl⟩

theorem scanFrom_literal {cs rest : List Char} (hc : ∀ c ∈ cs, Mode.isDelimiter c = false) (hr : Delimited rest)
    (start offset : Nat) (text : List Char) :
    scanFrom (.literal start text) offset (cs ++ rest) =
      Mode.closeLiteral start (cs.reverse ++ text) (offset + byteSize cs) ::
        scanFrom .between (offset + byteSize cs) rest := by
  induction cs generalizing offset text with
  | nil =>
    cases rest with
    | nil => rfl
    | cons c rest =>
      have hd := hr c (by simp)
      rw [List.nil_append, scanFrom_cons, Mode.step, if_pos hd]
      rfl
  | cons c cs ih =>
    have hd := hc c (by simp)
    have hcs : ∀ c ∈ cs, Mode.isDelimiter c = false := fun x hx => hc x (by simp [hx])
    rw [List.cons_append, scanFrom_cons, Mode.step, hd, if_neg (by simp)]
    rw [List.nil_append, ih hcs, Text.byteSize_cons, Nat.add_assoc, List.reverse_cons, List.append_assoc]
    rfl

theorem fresh_literal {c : Char} (hc : Mode.isDelimiter c = false) (hdot : c ≠ '.') (offset : Nat) :
    Mode.fresh offset c = ([], .literal offset [c]) := by
  simp only [Mode.isDelimiter, Bool.or_eq_false_iff, beq_eq_false_iff_ne] at hc
  obtain ⟨⟨⟨⟨⟨hb, h₁⟩, h₂⟩, h₃⟩, h₄⟩, h₅⟩ := hc
  simp [Mode.fresh, hb, h₁, h₂, h₃, h₄, h₅, hdot]

theorem yields_literal {cs : List Char} (hne : cs ≠ []) (hc : ∀ c ∈ cs, Mode.isDelimiter c = false)
    (hdot : cs.head? ≠ some '.') : Yields cs [.literal (String.ofList cs)] := by
  intro offset rest hr
  obtain ⟨c, cs, rfl⟩ := List.exists_cons_of_ne_nil hne
  have hcs : ∀ c ∈ cs, Mode.isDelimiter c = false := fun x hx => hc x (by simp [hx])
  have hf := fresh_literal (hc c (by simp)) (by simpa using hdot) offset
  refine ⟨[Mode.closeLiteral offset (cs.reverse ++ [c]) (offset + byteSize (c :: cs))], ?_, ?_, ?_⟩
  · rw [List.cons_append, scanFrom_cons, Mode.step, hf, List.nil_append, scanFrom_literal hcs hr,
      Text.byteSize_cons, Nat.add_assoc]
    rfl
  · simp [Mode.closeLiteral]
  · simp [Mode.closeLiteral]

/-- The characters between two quotes that stand for `text`. A backslash takes the character behind
it along, whatever that is. -/
inductive Quoted : List Char → List Char → Prop
  | nil : Quoted [] []
  | plain {c : Char} {body text : List Char} :
    c ≠ '"' → c ≠ '\\' → Quoted body text → Quoted (c :: body) (c :: text)
  | escape {c : Char} {body text : List Char} :
    Quoted body text → Quoted ('\\' :: c :: body) (Mode.unescape c :: text)

theorem Quoted.scanFrom {body text : List Char} (h : Quoted body text) (start offset : Nat) (before rest : List Char) :
    scanFrom (.string start before) offset (body ++ rest) =
      scanFrom (.string start (text.reverse ++ before)) (offset + byteSize body) rest := by
  induction h generalizing offset before with
  | nil => rfl
  | plain hq hb _ ih =>
    rw [List.cons_append, scanFrom_cons, Mode.step, if_neg hq, if_neg hb, List.nil_append, ih]
    simp [Nat.add_assoc]
  | escape _ ih =>
    rw [List.cons_append, List.cons_append, scanFrom_cons, scanFrom_cons]
    simp only [Mode.step, if_neg (show '\\' ≠ '"' by decide), if_pos, List.nil_append, ih]
    simp [Nat.add_assoc]

theorem quoted_self {cs : List Char} (hq : '"' ∉ cs) (hb : '\\' ∉ cs) : Quoted cs cs := by
  induction cs with
  | nil => exact .nil
  | cons c cs ih =>
    obtain ⟨hq₁, hq₂⟩ := not_or.mp (mt List.mem_cons.mpr hq)
    obtain ⟨hb₁, hb₂⟩ := not_or.mp (mt List.mem_cons.mpr hb)
    exact .plain (Ne.symm hq₁) (Ne.symm hb₁) (ih hq₂ hb₂)

theorem Quoted.scanFrom_close {body text : List Char} (h : Quoted body text) (offset : Nat) (rest : List Char) :
    Lexeme.scanFrom .between offset ('"' :: (body ++ ['"']) ++ rest) =
      ⟨.string (String.ofList text), offset, offset + byteSize ('"' :: (body ++ ['"']))⟩ ::
        Lexeme.scanFrom .between (offset + byteSize ('"' :: (body ++ ['"']))) rest := by
  have hsize : offset + byteSize ('"' :: (body ++ ['"'])) = offset + 1 + byteSize body + 1 := by
    rw [Text.byteSize_cons, Text.byteSize_append, ← Nat.add_assoc, ← Nat.add_assoc]
    rfl
  have hs := h.scanFrom offset (offset + 1) [] ('"' :: rest)
  rw [scanFrom_cons, Mode.step, if_pos rfl, List.append_nil, List.reverse_reverse] at hs
  rw [hsize, List.cons_append, List.append_assoc, List.singleton_append, scanFrom_cons]
  exact hs

theorem yields_string {cs : List Char} (hq : '"' ∉ cs) (hb : '\\' ∉ cs) :
    Yields ('"' :: (cs ++ ['"'])) [.string (String.ofList cs)] := by
  intro offset rest _
  exact ⟨[_], (quoted_self hq hb).scanFrom_close offset rest, rfl, by simp⟩

end Lisp.Lexeme
