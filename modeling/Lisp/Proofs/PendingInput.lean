import Lisp.Proofs.LongestMatch
import Lisp.Proofs.LoopSteps
import Lisp.Proofs.SourceSequencing

namespace Lisp.Reading

open Text (Lined)

def lastUnfinished? (xs : List (Except ReadError Datum)) : Option ReadError :=
  match xs.getLast? with
  | some (.error e) => if e.isIncomplete then some e else none
  | _ => none

/-- Why a text that is read to its end, past every failure on the way, wants more input, if it does. -/
def unfinished? (source : String) : Option ReadError :=
  lastUnfinished? ((ofString source).map result)

theorem lastUnfinished?_eq_none {xs : List (Except ReadError Datum)} (h : ∀ x ∈ xs, isUnfinished x = false) :
    lastUnfinished? xs = none := by
  rw [lastUnfinished?]
  split
  · rename_i e he
    have hx := h _ (List.mem_of_getLast? he)
    rw [isUnfinished] at hx
    rw [hx]
    rfl
  · rfl

theorem lastUnfinished?_append_error (xs : List (Except ReadError Datum)) {e : ReadError} (he : e.isIncomplete = true) :
    lastUnfinished? (xs ++ [.error e]) = some e := by
  simp [lastUnfinished?, he]

/-- Of some lines the complete readings are done with, and `rest` is what they leave: nothing, or the text
of an expression that wants more input. -/
structure Leaves (cs rest : List Char) : Prop where
  resumes : ∃ xs, (∀ x ∈ xs, isUnfinished x = false) ∧ ∀ ds, Lined cs ∨ ds = [] →
    (ofString (String.ofList (cs ++ ds))).map result = xs ++ (ofString (String.ofList (rest ++ ds))).map result
  waits : rest = [] ∨ ∃ e : ReadError, e.isIncomplete = true ∧
    (ofString (String.ofList rest)).map result = [.error e]

namespace Leaves

variable {cs rest : List Char}

theorem nil : Leaves [] [] :=
  ⟨⟨[], by simp, fun _ _ => rfl⟩, .inl rfl⟩

theorem line {p : String} (h : Leaves cs p.toList) (hcs : Lined cs) {l : List Char} (hl : l ≠ []) :
    let text := p ++ String.ofList l
    Leaves (cs ++ l) (Text.dropBytes (settled text.utf8ByteSize 0 (ofString text)) text.toList) := by
  obtain ⟨xs, hxs, hresumes⟩ := h.resumes
  dsimp only
  generalize htext : p ++ String.ofList l = text
  have hlist : p.toList ++ l = text.toList := by rw [← htext, String.toList_append, String.toList_ofList]
  refine ⟨⟨xs ++ (complete (ofString text)).map result, ?_, ?_⟩, ?_⟩
  · intro x hx
    exact (List.mem_append.mp hx).elim (hxs x) (complete_results _ x)
  · intro ds hd
    have hd' : Lined text.toList ∨ ds = [] := by
      refine hd.imp_left fun hlined => ?_
      rw [← hlist]
      exact hlined.of_append.append p.toList hl
    rw [List.append_assoc, hresumes (l ++ ds) (.inl hcs), ← List.append_assoc, hlist, (ofString_resume text hd').1,
      List.append_assoc]
  · obtain ⟨hsplit, hwait⟩ := @ofString_resume text [] (.inr rfl)
    obtain hc | ⟨r, more, hr, hinc⟩ := complete_cases (ofString text)
    · left
      rw [settled_of_complete hc, Text.utf8ByteSize_eq, Text.dropBytes_byteSize]
    · right
      refine hwait.resolve_left ?_
      intro hnone
      -- the reading that wants more input would be none of the text
      rw [List.append_nil, List.append_nil, String.ofList_toList, hnone, List.append_nil] at hsplit
      have hlen := congrArg List.length hsplit
      rw [List.length_map, List.length_map] at hlen
      have hlen' := congrArg List.length hr
      rw [List.length_append, List.length_cons] at hlen'
      omega

theorem unfinished?_eq (h : Leaves cs rest) :
    unfinished? (String.ofList cs) = unfinished? (String.ofList rest) := by
  obtain ⟨xs, hxs, hresumes⟩ := h.resumes
  have hall := hresumes [] (.inr rfl)
  rw [List.append_nil, List.append_nil] at hall
  rw [unfinished?, unfinished?, hall]
  rcases h.waits with rfl | ⟨e, he, hrest⟩
  · have hnil : (ofString (String.ofList [])).map result = [] := rfl
    rw [hnil, List.append_nil, lastUnfinished?_eq_none hxs]
    rfl
  · rw [hrest, lastUnfinished?_append_error xs he]
    exact (lastUnfinished?_append_error [] he).symm

theorem cases (h : Leaves cs rest) :
    (rest = [] ∧ unfinished? (String.ofList cs) = none) ∨
      ∃ (e : ReadError) (offset : Nat), rest ≠ [] ∧ unfinished? (String.ofList cs) = some e ∧
        ofString (String.ofList rest) = [⟨.error e, offset⟩] := by
  rw [h.unfinished?_eq]
  rcases h.waits with rfl | ⟨e, he, hrest⟩
  · exact .inl ⟨rfl, rfl⟩
  · obtain ⟨⟨v, offset⟩, hr, rfl⟩ := List.map_eq_singleton_iff.mp hrest
    refine .inr ⟨e, offset, ?_, ?_, hr⟩
    · rintro rfl
      cases hr
    · rw [unfinished?, hrest]
      exact lastUnfinished?_append_error [] he

theorem eq_nil_iff (h : Leaves cs rest) : rest = [] ↔ unfinished? (String.ofList cs) = none := by
  rcases h.cases with ⟨rfl, hnone⟩ | ⟨e, offset, hne, hsome, -⟩
  · simp [hnone]
  · simp [hne, hsome]

theorem eq_nil_of_ofString (h : Leaves cs rest) (hrest : ofString (String.ofList rest) = []) : rest = [] := by
  rcases h.cases with ⟨hnil, -⟩ | ⟨e, offset, -, -, hsome⟩
  · exact hnil
  · rw [hrest] at hsome
    cases hsome

theorem eq_nil_of_blank (h : Leaves cs rest) (hb : rest.all Text.isBlank = true) : rest = [] := by
  have hscan := (Lexeme.gap_of_blanks (List.all_eq_true.mp hb)).scanFrom 0 []
  rw [List.append_nil] at hscan
  apply h.eq_nil_of_ofString
  rw [ofString, Lexeme.scan, String.toList_ofList, hscan]
  rfl

theorem blank_iff (h : Leaves cs rest) :
    rest.all Text.isBlank = true ↔ unfinished? (String.ofList cs) = none := by
  rw [← h.eq_nil_iff]
  refine ⟨h.eq_nil_of_blank, ?_⟩
  rintro rfl
  rfl

end Leaves

end Lisp.Reading
