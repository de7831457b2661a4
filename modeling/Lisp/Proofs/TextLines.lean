import Lisp.Text.Bytes

namespace Lisp.Text

def byteSize : List Char → Nat
  | [] => 0
  | c :: cs => c.utf8Size + byteSize cs

@[simp]
theorem byteSize_nil : byteSize [] = 0 := rfl

@[simp]
theorem byteSize_cons (c : Char) (cs : List Char) : byteSize (c :: cs) = c.utf8Size + byteSize cs := rfl

@[simp]
theorem byteSize_append (cs ds : List Char) : byteSize (cs ++ ds) = byteSize cs + byteSize ds := by
  induction cs with
  | nil => simp
  | cons c cs ih => simp only [List.cons_append, byteSize_cons, ih, Nat.add_assoc]

theorem byteSize_lt_append {ds : List Char} (h : ds ≠ []) (cs : List Char) : byteSize cs < byteSize (cs ++ ds) := by
  rw [byteSize_append]
  cases ds with
  | nil => exact absurd rfl h
  | cons d ds =>
    have hd := d.utf8Size_pos
    rw [byteSize_cons]
    omega

theorem utf8ByteSize_eq (s : String) : s.utf8ByteSize = byteSize s.toList := by
  have h (cs : List Char) : (cs.flatMap String.utf8EncodeChar).length = byteSize cs := by
    induction cs with
    | nil => rfl
    | cons c cs ih =>
      simp only [List.flatMap_cons, List.length_append, String.length_utf8EncodeChar, ih, byteSize_cons]
  rw [← h, ← String.size_toByteArray, ← String.utf8Encode_toList, List.utf8Encode, List.size_toByteArray]

def Boundary (source : String) (offset : Nat) : Prop :=
  String.Pos.Raw.IsValid source ⟨offset⟩ ∧ offset ≤ source.utf8ByteSize

theorem boundary_of_append {source : String} {before after : List Char} (h : source.toList = before ++ after) :
    Boundary source (byteSize before) := by
  have hv : String.Pos.Raw.IsValid source ⟨byteSize before⟩ := by
    rw [String.Pos.Raw.isValid_iff_exists_append]
    refine ⟨String.ofList before, String.ofList after, ?_, ?_⟩
    · rw [← String.ofList_append, ← h, String.ofList_toList]
    · rw [String.rawEndPos, utf8ByteSize_eq, String.toList_ofList]
  exact ⟨hv, hv.le_utf8ByteSize⟩

theorem dropBytes_zero (cs : List Char) : dropBytes 0 cs = cs := by
  cases cs <;> rfl

theorem dropBytes_append (before cs : List Char) : dropBytes (byteSize before) (before ++ cs) = cs := by
  induction before with
  | nil => exact dropBytes_zero cs
  | cons c before ih =>
    have hc := c.utf8Size_pos
    have hn : byteSize (c :: before) ≠ 0 := by simp only [byteSize_cons]; omega
    rw [List.cons_append, dropBytes, if_neg hn, byteSize_cons, Nat.add_sub_cancel_left, ih]

theorem dropBytes_byteSize (cs : List Char) : dropBytes (byteSize cs) cs = [] := by
  simpa using dropBytes_append cs []

theorem append_inj_byteSize {before before' after after' : List Char}
    (h : before ++ after = before' ++ after') (hs : byteSize before = byteSize before') : after = after' := by
  have hd := dropBytes_append before after
  rw [h, hs, dropBytes_append] at hd
  exact hd.symm

def charLines : List Char → List (List Char)
  | [] => []
  | c :: cs =>
    if c = '\n' then [c] :: charLines cs
    else
      match charLines cs with
      | [] => [[c]]
      | l :: ls => (c :: l) :: ls

theorem charLines_flatten (cs : List Char) : (charLines cs).flatten = cs := by
  induction cs with
  | nil => rfl
  | cons c cs ih =>
    rw [charLines]
    by_cases hc : c = '\n'
    · simp [hc, ih]
    · rw [if_neg hc]
      cases h : charLines cs with
      | nil => simpa [h] using ih
      | cons l ls => simpa [h] using ih

def Lined (cs : List Char) : Prop :=
  ∀ c ∈ cs.getLast?, c = '\n'

theorem Lined.nil : Lined [] := by
  simp [Lined]

theorem Lined.of_append {cs ds : List Char} (h : Lined (cs ++ ds)) : Lined ds := by
  cases ds with
  | nil => exact .nil
  | cons d ds => simpa [Lined, List.getLast?_append] using h

theorem Lined.append {ds : List Char} (cs : List Char) (h : Lined ds) (hd : ds ≠ []) : Lined (cs ++ ds) := by
  simpa [Lined, List.getLast?_append, hd] using h

def Broken : List (List Char) → Prop
  | [] => True
  | l :: ls => l ≠ [] ∧ (Lined l ∨ ls = []) ∧ Broken ls

theorem charLines_broken (cs : List Char) : Broken (charLines cs) := by
  induction cs with
  | nil => trivial
  | cons c cs ih =>
    rw [charLines]
    by_cases hc : c = '\n'
    · rw [if_pos hc]
      exact ⟨by simp, .inl (by simp [Lined, hc]), ih⟩
    · rw [if_neg hc]
      cases h : charLines cs with
      | nil => exact ⟨by simp, .inr rfl, trivial⟩
      | cons l ls =>
        rw [h] at ih
        obtain ⟨hl, he, hb⟩ := ih
        exact ⟨by simp, he.imp_left (fun hl' => Lined.append [c] hl' hl), hb⟩

theorem newline_mem_encoding {c : Char} (h : 10 ∈ String.utf8EncodeChar c) : c = '\n' := by
  have key (n : Nat) (hn : n < 256) : (10 : UInt8) = UInt8.ofNat n ↔ n = 10 := by
    rw [← UInt8.toNat_inj, UInt8.toNat_ofNat', Nat.mod_eq_of_lt hn]
    exact eq_comm
  have hv : c.val.toNat = 10 → c = '\n' := fun hv => Char.toNat_inj.mp hv
  unfold String.utf8EncodeChar at h
  dsimp only at h
  split at h
  · rw [List.mem_singleton, key _ (by omega)] at h
    exact hv h
  · split at h
    · simp only [List.mem_cons, List.not_mem_nil, or_false] at h
      rw [key _ (by omega), key _ (by omega)] at h
      omega
    · split at h
      · simp only [List.mem_cons, List.not_mem_nil, or_false] at h
        rw [key _ (by omega), key _ (by omega), key _ (by omega)] at h
        omega
      · simp only [List.mem_cons, List.not_mem_nil, or_false] at h
        rw [key _ (by omega), key _ (by omega), key _ (by omega), key _ (by omega)] at h
        omega

theorem lines_unbroken (bs rest : List UInt8) (hb : bs ≠ []) (hn : 10 ∉ bs) :
    lines (bs ++ rest) = match lines rest with
      | [] => [bs]
      | l :: ls => (bs ++ l) :: ls := by
  induction bs with
  | nil => exact absurd rfl hb
  | cons b bs ih =>
    obtain ⟨h10, hbs⟩ := not_or.mp (mt List.mem_cons.mpr hn)
    rw [List.cons_append, lines, if_neg (Ne.symm h10)]
    cases bs with
    | nil => rw [List.nil_append]; cases lines rest <;> rfl
    | cons b' bs =>
      rw [ih (by simp) hbs]
      cases lines rest <;> rfl

theorem lines_encoding (cs : List Char) :
    lines (cs.flatMap String.utf8EncodeChar) = (charLines cs).map (·.flatMap String.utf8EncodeChar) := by
  induction cs with
  | nil => rfl
  | cons c cs ih =>
    rw [List.flatMap_cons, charLines]
    by_cases hc : c = '\n'
    · rw [if_pos hc, List.map_cons, ← ih, hc]
      rfl
    · rw [if_neg hc, lines_unbroken _ _ String.utf8EncodeChar_ne_nil (fun h => hc (newline_mem_encoding h)), ih]
      cases charLines cs <;> simp

theorem decode?_encoding (cs : List Char) :
    decode? (cs.flatMap String.utf8EncodeChar) = some (String.ofList cs) := by
  have h : (cs.flatMap String.utf8EncodeChar).toByteArray = cs.utf8Encode := rfl
  rw [decode?, h, String.fromUTF8?, dif_pos ByteArray.isValidUTF8_utf8Encode]
  rw [Option.some_inj, ← String.toByteArray_inj, String.toByteArray_ofList]
  rfl

theorem encode_eq (s : String) : encode s = s.toList.flatMap String.utf8EncodeChar := by
  rw [encode, String.toUTF8_eq_toByteArray, ← String.utf8Encode_toList, List.utf8Encode, List.data_toByteArray]

theorem decode_lines_encode (s : String) :
    (lines (encode s)).map decode? = (charLines s.toList).map (fun l => some (String.ofList l)) := by
  rw [encode_eq, lines_encoding, List.map_map]
  exact List.map_congr_left (fun l _ => decode?_encoding l)

theorem encode_append (s t : String) : encode (s ++ t) = encode s ++ encode t := by
  rw [encode_eq, encode_eq, encode_eq, String.toList_append, List.flatMap_append]

theorem decode?_eq_some_iff {bs : List UInt8} {s : String} : decode? bs = some s ↔ bs = encode s := by
  constructor
  · intro h
    rw [decode?, String.fromUTF8?] at h
    split at h
    · cases h
      exact (congrArg Array.toList List.data_toByteArray).symm
    · cases h
  · rintro rfl
    rw [encode_eq, decode?_encoding, String.ofList_toList]

theorem lines_flatten (bs : List UInt8) : (lines bs).flatten = bs := by
  induction bs with
  | nil => rfl
  | cons b bs ih =>
    rw [lines]
    by_cases hb : b = 10
    · simp [hb, ih]
    · rw [if_neg hb]
      cases h : lines bs with
      | nil => simpa [h] using ih
      | cons l ls => simpa [h] using ih

theorem lines_of_append {bs : List UInt8} {ls rest : List (List UInt8)} (h : lines bs = ls ++ rest) :
    lines ls.flatten = ls := by
  induction bs generalizing ls with
  | nil =>
    obtain ⟨rfl, -⟩ := List.append_eq_nil_iff.mp h.symm
    rfl
  | cons b bs ih =>
    cases ls with
    | nil => rfl
    | cons l ls =>
      rw [lines] at h
      by_cases hb : b = 10
      · rw [if_pos hb, List.cons_append, List.cons.injEq] at h
        obtain ⟨rfl, hrest⟩ := h
        rw [List.flatten_cons, List.singleton_append, lines, if_pos hb, ih hrest]
      · rw [if_neg hb] at h
        split at h
        · rw [List.cons_append, List.cons.injEq] at h
          obtain ⟨rfl, hrest⟩ := h
          obtain ⟨rfl, -⟩ := List.append_eq_nil_iff.mp hrest.symm
          rw [List.flatten_singleton, lines, if_neg hb]
          rfl
        · rename_i l' ls' hlines
          rw [List.cons_append, List.cons.injEq] at h
          obtain ⟨rfl, hrest⟩ := h
          have hfirst : lines bs = (l' :: ls) ++ rest := by rw [hlines, hrest, List.cons_append]
          have hl := ih hfirst
          rw [List.flatten_cons] at hl
          rw [List.flatten_cons, List.cons_append, lines, if_neg hb, hl]

theorem exists_decode?_flatten {ls : List (List UInt8)} (h : ∀ l ∈ ls, decode? l ≠ none) :
    ∃ s, decode? ls.flatten = some s := by
  induction ls with
  | nil => exact ⟨"", decode?_eq_some_iff.mpr rfl⟩
  | cons l ls ih =>
    obtain ⟨hl, hls⟩ := List.forall_mem_cons.mp h
    obtain ⟨s, hs⟩ := Option.ne_none_iff_exists'.mp hl
    obtain ⟨t, ht⟩ := ih hls
    refine ⟨s ++ t, decode?_eq_some_iff.mpr ?_⟩
    rw [List.flatten_cons, decode?_eq_some_iff.mp hs, decode?_eq_some_iff.mp ht, encode_append]

theorem decode?_line {s : String} {l : List UInt8} (h : l ∈ lines (encode s)) : decode? l ≠ none := by
  have hmem := List.mem_map_of_mem (f := decode?) h
  rw [decode_lines_encode] at hmem
  obtain ⟨cs, -, hcs⟩ := List.mem_map.mp hmem
  rw [← hcs]
  exact Option.some_ne_none _

theorem decode?_cases (bs : List UInt8) :
    (∃ s, bs = encode s) ∨
      (decode? bs = none ∧ ∃ s bad rest, lines bs = lines (encode s) ++ bad :: rest ∧ decode? bad = none) := by
  let valid (l : List UInt8) : Bool := (decode? l).isSome
  have hsplit := List.takeWhile_append_dropWhile (p := valid) (l := lines bs)
  have hgood : ∀ l ∈ (lines bs).takeWhile valid, decode? l ≠ none := by
    intro l hl
    have hv := List.all_eq_true.mp List.all_takeWhile l hl
    exact Option.isSome_iff_ne_none.mp hv
  obtain ⟨s, hs⟩ := exists_decode?_flatten hgood
  rw [decode?_eq_some_iff] at hs
  cases hd : (lines bs).dropWhile valid with
  | nil =>
    rw [hd, List.append_nil] at hsplit
    rw [hsplit, lines_flatten] at hs
    exact .inl ⟨s, hs⟩
  | cons bad rest =>
    rw [hd] at hsplit
    have hbad : decode? bad = none := by
      have hv := List.head?_dropWhile_not valid (lines bs)
      rw [hd] at hv
      exact Option.isNone_iff_eq_none.mp (Option.isSome_eq_false_iff.mp hv)
    refine .inr ⟨?_, s, bad, rest, ?_, hbad⟩
    · rw [Option.eq_none_iff_forall_ne_some]
      intro t ht
      rw [decode?_eq_some_iff] at ht
      have hmem : bad ∈ lines bs := hsplit ▸ List.mem_append_right _ List.mem_cons_self
      rw [ht] at hmem
      exact decode?_line hmem hbad
    · rw [← hs, lines_of_append hsplit.symm, hsplit]

end Lisp.Text
