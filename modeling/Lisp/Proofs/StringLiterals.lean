import Lisp.Expr.Print
import Lisp.Proofs.Readings
import Lisp.Proofs.TextLayout
import Mathlib.Algebra.Group.Nat.Even

namespace Lisp

namespace Text

def slashes (cs : List Char) : Nat :=
  (cs.reverse.takeWhile (· = '\\')).length

/-- A quote behind the text would be free, as the backslashes right before it pair up. -/
def Unescaped (cs : List Char) : Prop :=
  Even (slashes cs)

def Endless (cs : List Char) : Prop :=
  ∀ before after, cs = before ++ '"' :: after → ¬ Unescaped before

structure Closes (cs : List Char) : Prop where
  unescaped : Unescaped cs
  endless : Endless cs

def decoded : List Char → List Char
  | [] => []
  | ['\\'] => []
  | '\\' :: 'n' :: cs => '\n' :: decoded cs
  | '\\' :: 't' :: cs => '\t' :: decoded cs
  | '\\' :: 'r' :: cs => '\r' :: decoded cs
  | '\\' :: c :: cs => c :: decoded cs
  | c :: cs => c :: decoded cs

theorem slashes_le (cs : List Char) : slashes cs ≤ cs.length := by
  have h := (List.takeWhile_prefix (l := cs.reverse) (fun c : Char => decide (c = '\\'))).length_le
  rwa [List.length_reverse] at h

theorem slashes_cons (c : Char) (cs : List Char) :
    slashes (c :: cs) = if slashes cs = cs.length ∧ c = '\\' then slashes cs + 1 else slashes cs := by
  have happend : slashes (c :: cs) =
      (if slashes cs = cs.length then cs.reverse ++ [c].takeWhile (· = '\\')
        else cs.reverse.takeWhile (· = '\\')).length := by
    rw [slashes, List.reverse_cons, List.takeWhile_append, List.length_reverse]
    rfl
  rw [happend]
  -- A character in front is among the last backslashes only if all that follow it are.
  by_cases hall : slashes cs = cs.length
  · by_cases hc : c = '\\'
    · simp [hall, hc]
    · simp [hall, hc]
  · simp [hall]
    rfl

theorem unescaped_nil : Unescaped [] :=
  Even.zero

theorem not_unescaped_slash : ¬ Unescaped ['\\'] := by
  simp [Unescaped, slashes]

theorem unescaped_plain {c : Char} (hc : c ≠ '\\') (cs : List Char) : Unescaped (c :: cs) ↔ Unescaped cs := by
  rw [Unescaped, Unescaped, slashes_cons, if_neg (fun h => hc h.2)]

theorem unescaped_pair (c : Char) (cs : List Char) : Unescaped ('\\' :: c :: cs) ↔ Unescaped cs := by
  have hle := slashes_le cs
  have hne : slashes cs ≠ cs.length + 1 := by omega
  -- Two more backslashes leave the number even or odd; any other character hides the one before it.
  by_cases hc : c = '\\'
  · by_cases hall : slashes cs = cs.length
    · simp [Unescaped, slashes_cons, hc, hall, Nat.even_add]
    · simp [Unescaped, slashes_cons, hc, hall, hne]
  · simp [Unescaped, slashes_cons, hc, hne]

theorem endless_nil : Endless [] := by
  intro before after h
  simp at h

theorem endless_slash : Endless ['\\'] := by
  intro before after h
  rcases before with _ | ⟨c, _ | ⟨d, before⟩⟩ <;> simp at h

theorem endless_plain {c : Char} (hq : c ≠ '"') (hb : c ≠ '\\') (cs : List Char) : Endless (c :: cs) ↔ Endless cs := by
  constructor
  · rintro h before after rfl hu
    exact h (c :: before) after rfl ((unescaped_plain hb before).mpr hu)
  · intro h before after hcs
    cases before with
    | nil => exact absurd (List.cons.inj hcs).1 hq
    | cons d before =>
      obtain ⟨rfl, rfl⟩ := List.cons.inj hcs
      rw [unescaped_plain hb]
      exact h before after rfl

theorem endless_pair (c : Char) (cs : List Char) : Endless ('\\' :: c :: cs) ↔ Endless cs := by
  constructor
  · rintro h before after rfl hu
    exact h ('\\' :: c :: before) after rfl ((unescaped_pair c before).mpr hu)
  · intro h before after hcs
    rcases before with _ | ⟨d, _ | ⟨d', before⟩⟩
    · simp at hcs
    · obtain ⟨rfl, -⟩ := List.cons.inj hcs
      exact not_unescaped_slash
    · simp only [List.cons_append, List.cons.injEq] at hcs
      obtain ⟨rfl, rfl, rfl⟩ := hcs
      rw [unescaped_pair]
      exact h before after rfl

theorem decoded_plain {c : Char} (hc : c ≠ '\\') (cs : List Char) : decoded (c :: cs) = c :: decoded cs := by
  rw [decoded] <;> simp [hc]

theorem decoded_pair (c : Char) (cs : List Char) : decoded ('\\' :: c :: cs) = Mode.unescape c :: decoded cs := by
  unfold Mode.unescape
  split
  · rfl
  · rfl
  · rfl
  · rw [decoded] <;> assumption

end Text

namespace Lexeme

open Text

theorem Quoted.endless {body text rest : List Char} (h : Quoted body text) (hr : Endless rest) :
    Endless (body ++ rest) := by
  induction h with
  | nil => exact hr
  | plain hq hb _ ih => exact (endless_plain hq hb _).mpr ih
  | escape _ ih => exact (endless_pair _ _).mpr ih

theorem Quoted.closes {body text : List Char} (h : Quoted body text) : Closes body := by
  constructor
  · induction h with
    | nil => exact unescaped_nil
    | plain _ hb _ ih => exact (unescaped_plain hb _).mpr ih
    | escape _ ih => exact (unescaped_pair _ _).mpr ih
  · have he := h.endless endless_nil
    rwa [List.append_nil] at he

theorem Quoted.eq_decoded {body text : List Char} (h : Quoted body text) : text = decoded body := by
  induction h with
  | nil => rfl
  | plain _ hb _ ih => rw [decoded_plain hb, ← ih]
  | escape _ ih => rw [decoded_pair, ← ih]

theorem quoted_decoded {body : List Char} (h : Closes body) : Quoted body (decoded body) := by
  match body with
  | [] => exact .nil
  | c :: cs =>
    by_cases hb : c = '\\'
    · subst hb
      match cs with
      | [] => exact absurd h.unescaped not_unescaped_slash
      | d :: cs =>
        rw [decoded_pair]
        have hcs : Closes cs := ⟨(unescaped_pair d cs).mp h.unescaped, (endless_pair d cs).mp h.endless⟩
        exact (quoted_decoded hcs).escape
    · have hq : c ≠ '"' := by
        rintro rfl
        exact h.endless [] cs rfl unescaped_nil
      rw [decoded_plain hb]
      have hcs : Closes cs := ⟨(unescaped_plain hb cs).mp h.unescaped, (endless_plain hq hb cs).mp h.endless⟩
      exact (quoted_decoded hcs).plain hq hb

theorem quoted_iff {body text : List Char} : Quoted body text ↔ Closes body ∧ text = decoded body := by
  constructor
  · intro h
    exact ⟨h.closes, h.eq_decoded⟩
  · rintro ⟨h, rfl⟩
    exact quoted_decoded h

theorem unclosed_iff {cs : List Char} : Unclosed cs ↔ Endless cs := by
  constructor
  · rintro ⟨body, text, h, rfl | rfl⟩
    · exact h.closes.endless
    · exact h.endless endless_slash
  · intro h
    rcases quoted_split cs with ⟨body, text, rest, hq, rfl⟩ | hu
    · exact absurd hq.closes.unescaped (h body rest rfl)
    · exact hu

theorem quoted_escaped (cs : List Char) : Quoted (Style.escaped cs) cs := by
  induction cs with
  | nil => exact .nil
  | cons c cs ih =>
    rw [Style.escaped]
    by_cases hc : c = '"' ∨ c = '\\'
    · have hself : Mode.unescape c = c := by rcases hc with rfl | rfl <;> rfl
      have he : Quoted ('\\' :: c :: Style.escaped cs) (Mode.unescape c :: cs) := ih.escape
      rw [hself] at he
      rwa [if_pos hc]
    · obtain ⟨hq, hb⟩ := not_or.mp hc
      rw [if_neg hc]
      exact ih.plain hq hb

end Lexeme

namespace Reading

open Text

theorem first?_string {body text : List Char} (h : Lexeme.Quoted body text) (rest : List Char) :
    first? (String.ofList ('"' :: (body ++ '"' :: rest))) =
      some ⟨.ok (.string (String.ofList text)), byteSize body + 2⟩ := by
  have hs := h.scanFrom_close 0 rest
  have hsize : byteSize ('"' :: (body ++ ['"'])) = byteSize body + 2 := by
    rw [byteSize_cons, byteSize_append, byteSize_cons, byteSize_nil, Nat.add_comm]
    rfl
  rw [List.cons_append, List.append_assoc, List.singleton_append, Nat.zero_add, hsize] at hs
  rw [first?, Lexeme.scan, String.toList_ofList, hs]
  rfl

theorem first?_unterminated {cs : List Char} (h : Lexeme.Unclosed cs) :
    first? (String.ofList ('"' :: cs)) =
      some ⟨.error .unterminatedString, (String.ofList ('"' :: cs)).utf8ByteSize⟩ := by
  rw [utf8ByteSize_eq, first?, Lexeme.scan, String.toList_ofList, h.scanFrom, Nat.zero_add]
  rfl

theorem all_unterminated {l : Lexeme} (hl : l.token = .unterminated) (size : Nat) (e : Expecting)
    (ls : List Lexeme) : (all size e (ls ++ [l])).getLast? = some ⟨.error .unterminatedString, l.stop⟩ := by
  induction ls generalizing e with
  | nil =>
    -- An open string is refused wherever it stands.
    have hreject : e.step l.token = .reject .unterminatedString := by
      rw [hl]
      cases e <;> rfl
    rw [List.nil_append, all, hreject]
    rfl
  | cons l' ls ih =>
    rw [List.cons_append, all]
    cases e.step l'.token with
    | shift e' => exact ih e'
    | accept d => rw [List.getLast?_cons, ih .initial, Option.getD_some]
    | reject r => rw [List.getLast?_cons, ih .initial, Option.getD_some]

theorem ofString_unterminated {source : String} {l : Lexeme} (h : l ∈ Lexeme.scan source)
    (hl : l.token = .unterminated) :
    (ofString source).getLast? = some ⟨.error .unterminatedString, l.stop⟩ := by
  obtain ⟨ls, ls', hs⟩ := List.append_of_mem h
  obtain rfl := unterminated_last hs hl
  rw [ofString, hs]
  exact all_unterminated hl _ _ ls

theorem lexeme_string {source : String} {l : Lexeme} (h : l ∈ Lexeme.scan source) {text : String}
    (ht : l.token = .string text) :
    ∃ before body rest, source.toList = before ++ '"' :: (body ++ '"' :: rest) ∧ Closes body ∧
      text = String.ofList (decoded body) ∧ l.start = byteSize before ∧
      l.stop = byteSize before + byteSize body + 2 := by
  have hlaid := (Lexeme.scan_eq_iff_laid source _).mp rfl
  obtain ⟨before, word, rest, hsource, hstart, hstop, hw | ⟨hu, -⟩⟩ := hlaid.spelled h
  · rw [ht] at hw
    cases hw with
    | @string body decodedBody hq =>
      obtain ⟨hc, rfl⟩ := Lexeme.quoted_iff.mp hq
      refine ⟨before, body, rest, by simpa using hsource, hc, rfl, by omega, ?_⟩
      have hsize : byteSize ('"' :: (body ++ ['"'])) = 1 + (byteSize body + 1) := by simp; rfl
      omega
  · rw [ht] at hu
    cases hu

theorem lexeme_unterminated {source : String} {l : Lexeme} (h : l ∈ Lexeme.scan source)
    (ht : l.token = .unterminated) :
    ∃ before cs, source.toList = before ++ '"' :: cs ∧ Endless cs ∧ l.start = byteSize before ∧
      l.stop = source.utf8ByteSize := by
  have hlaid := (Lexeme.scan_eq_iff_laid source _).mp rfl
  obtain ⟨before, word, rest, hsource, hstart, hstop, hw | ⟨-, rfl, cs, rfl, hu⟩⟩ := hlaid.spelled h
  · rw [ht] at hw
    cases hw
  · rw [List.append_nil] at hsource
    refine ⟨before, cs, hsource, Lexeme.unclosed_iff.mp hu, by omega, ?_⟩
    rw [utf8ByteSize_eq, hsource, byteSize_append]
    omega

/-- Every text can be written between quotes, with a backslash before each of its own quotes and
backslashes. Wherever a string starts, it ends at the first free quote, whatever follows, and stands for
what is decoded from there; a string without a free quote takes up the rest of the source and cannot be
read. -/
theorem string_literals_end :
    (∀ text rest : String, first? ("\"" ++ String.ofList (Style.escaped text.toList) ++ "\"" ++ rest) =
      some ⟨.ok (.string text), (String.ofList (Style.escaped text.toList)).utf8ByteSize + 2⟩) ∧
    (∀ text s, ((Datum.string text).toExpr s).1 = .string s.next text) ∧
    (∀ body rest, Closes body → first? (String.ofList ('"' :: (body ++ '"' :: rest))) =
      some ⟨.ok (.string (String.ofList (decoded body))), byteSize body + 2⟩) ∧
    (∀ cs, Endless cs → first? (String.ofList ('"' :: cs)) =
      some ⟨.error .unterminatedString, (String.ofList ('"' :: cs)).utf8ByteSize⟩) ∧
    ∀ source, ∀ l ∈ Lexeme.scan source,
      (∀ text, l.token = .string text → ∃ before body rest,
        source.toList = before ++ '"' :: (body ++ '"' :: rest) ∧ Closes body ∧ text = String.ofList (decoded body) ∧
        l.start = byteSize before ∧ l.stop = byteSize before + byteSize body + 2) ∧
      (l.token = .unterminated → ∃ before cs, source.toList = before ++ '"' :: cs ∧ Endless cs ∧
        l.start = byteSize before ∧ l.stop = source.utf8ByteSize ∧
        (ofString source).getLast? = some ⟨.error .unterminatedString, source.utf8ByteSize⟩) := by
  refine ⟨?_, fun _ _ => rfl, ?_, ?_, ?_⟩
  · intro text rest
    have hsource : "\"" ++ String.ofList (Style.escaped text.toList) ++ "\"" ++ rest =
        String.ofList ('"' :: (Style.escaped text.toList ++ '"' :: rest.toList)) := by
      apply String.toList_inj.mp
      simp
    rw [hsource, first?_string (Lexeme.quoted_escaped text.toList), String.ofList_toList, utf8ByteSize_eq,
      String.toList_ofList]
  · intro body rest h
    exact first?_string (Lexeme.quoted_decoded h) rest
  · intro cs h
    exact first?_unterminated (Lexeme.unclosed_iff.mpr h)
  · intro source l h
    refine ⟨fun text ht => lexeme_string h ht, fun ht => ?_⟩
    obtain ⟨before, cs, hsource, he, hstart, hstop⟩ := lexeme_unterminated h ht
    exact ⟨before, cs, hsource, he, hstart, hstop, by rw [ofString_unterminated h ht, hstop]⟩

theorem string_literals_end_slashes :
    ∃ body rest cs : List Char, body = "a\\\\\\\"\\né".toList ∧ rest = "\\\"(".toList ∧ cs = "\\\"\\".toList ∧
      Closes body ∧ Endless cs ∧
      first? (String.ofList ('"' :: (body ++ '"' :: rest))) = some ⟨.ok (.string "a\\\"\né"), 11⟩ ∧
      first? (String.ofList ('"' :: cs)) = some ⟨.error .unterminatedString, 4⟩ ∧
      (∃ l ∈ Lexeme.scan "('x \"a", l.token = .unterminated) ∧
      (ofString "('x \"a").getLast? = some ⟨.error .unterminatedString, 6⟩ := by
  let body := "a\\\\\\\"\\né".toList
  let cs := "\\\"\\".toList
  have hbody : Closes body :=
    Lexeme.Quoted.closes (.plain (by decide) (by decide) (.escape (.escape (.escape
      (.plain (by decide) (by decide) .nil)))))
  have hcs : Endless cs := (endless_pair _ _).mpr endless_slash
  have hl : ⟨.unterminated, 4, 6⟩ ∈ Lexeme.scan "('x \"a" := by decide
  obtain ⟨-, -, hclosed, hopen, hlexemes⟩ := string_literals_end
  obtain ⟨before, text, -, -, -, -, hlast⟩ := (hlexemes _ _ hl).2 rfl
  exact ⟨body, _, cs, rfl, rfl, rfl, hbody, hcs, hclosed body _ hbody, hopen cs hcs, ⟨_, hl, rfl⟩, hlast⟩

end Reading

end Lisp
