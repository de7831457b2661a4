import Lisp.Text.Uppercase
import Mathlib.Tactic.SplitIfs

namespace Lisp.Text

namespace CaseRun

def Lists (r : CaseRun) (n : Nat) : Prop :=
  r.first ≤ n ∧ n ≤ r.last ∧ (n - r.first) % r.step = 0

def image (r : CaseRun) : CaseRun :=
  ⟨(r.first + r.shift).toNat, (r.last + r.shift).toNat, r.step, 0⟩

def point (n : Nat) : CaseRun :=
  ⟨n, n, 1, 0⟩

/-- None of the runs shifts a code point of `r`. Two runs of every other code point may overlap if
the one lists even code points and the other odd ones. -/
def unshifted (r : CaseRun) : List CaseRun → Bool
  | [] => true
  | q :: qs => Nat.blt r.last q.first ||
    ((Nat.blt q.last r.first ||
      (Nat.beq q.step 2 && (Nat.beq r.step 2 || Nat.beq r.first r.last) && Nat.beq ((r.first + q.first) % 2) 1)) &&
      r.unshifted qs)

def unexpanded (r : CaseRun) : List (Nat × List Nat) → Bool
  | [] => true
  | (m, _) :: es => Nat.blt r.last m || (Nat.blt m r.first && r.unexpanded es)

def encodable (r : CaseRun) : Bool :=
  Nat.blt r.last 0xD800 || (Nat.blt 0xDFFF r.first && Nat.blt r.last 0x110000)

theorem lists_point (n : Nat) : (point n).Lists n :=
  ⟨Nat.le_refl n, Nat.le_refl n, Nat.mod_one _⟩

theorem Lists.image {r : CaseRun} {n : Nat} (h : r.Lists n) (hs : 0 ≤ r.first + r.shift) :
    r.image.Lists (n + r.shift).toNat := by
  obtain ⟨hlo, hhi, hstep⟩ := h
  have hsub : (n + r.shift).toNat - (r.first + r.shift).toNat = n - r.first := by omega
  refine ⟨?_, ?_, ?_⟩
  · change (r.first + r.shift).toNat ≤ _
    omega
  · change _ ≤ (r.last + r.shift).toNat
    omega
  · change ((n + r.shift).toNat - (r.first + r.shift).toNat) % r.step = 0
    rw [hsub, hstep]

theorem Lists.shiftOf_eq_zero {r : CaseRun} {n : Nat} (h : r.Lists n) {qs : List CaseRun}
    (hq : r.unshifted qs = true) : shiftOf n qs = 0 := by
  obtain ⟨hlo, hhi, hstep⟩ := h
  induction qs with
  | nil => rfl
  | cons q qs ih =>
    simp only [unshifted, Bool.or_eq_true, Bool.and_eq_true, Nat.blt_eq, Nat.beq_eq] at hq
    rw [shiftOf]
    split_ifs with h₁ h₂ h₃
    · rfl
    · obtain hq | ⟨-, hq⟩ := hq
      · omega
      · exact ih hq
    · -- both runs list `n`, so they would have to list code points of one parity
      exfalso
      obtain hq | ⟨hq | ⟨⟨hs, hr | hr⟩, hodd⟩, -⟩ := hq
      · omega
      · omega
      · rw [hs] at h₃
        rw [hr] at hstep
        omega
      · rw [hs] at h₃
        omega
    · rfl

theorem Lists.expansionOf?_eq_none {r : CaseRun} {n : Nat} (h : r.Lists n) {es : List (Nat × List Nat)}
    (he : r.unexpanded es = true) : expansionOf? n es = none := by
  obtain ⟨hlo, hhi, -⟩ := h
  induction es with
  | nil => rfl
  | cons e es ih =>
    obtain ⟨m, ms⟩ := e
    simp only [unexpanded, Bool.or_eq_true, Bool.and_eq_true, Nat.blt_eq] at he
    rw [expansionOf?]
    split_ifs with h₁ h₂
    · rfl
    · omega
    · obtain he | ⟨-, he⟩ := he
      · omega
      · exact ih he

theorem Lists.isValidChar {r : CaseRun} {n : Nat} (h : r.Lists n) (hr : r.encodable = true) : n.isValidChar := by
  obtain ⟨hlo, hhi, -⟩ := h
  simp only [encodable, Bool.or_eq_true, Bool.and_eq_true, Nat.blt_eq] at hr
  simp only [Nat.isValidChar]
  omega

theorem Lists.upcaseChar {r : CaseRun} {c : Char} (h : r.Lists c.toNat) (hs : r.unshifted caseRuns = true)
    (he : r.unexpanded caseExpansions = true) : upcaseChar c = [c] := by
  rw [Text.upcaseChar, h.expansionOf?_eq_none he, h.shiftOf_eq_zero hs, Int.add_zero]
  simp

end CaseRun

theorem shiftOf_cases (n : Nat) (rs : List CaseRun) :
    shiftOf n rs = 0 ∨ ∃ r ∈ rs, r.Lists n ∧ shiftOf n rs = r.shift := by
  induction rs with
  | nil => exact .inl rfl
  | cons r rs ih =>
    rw [shiftOf]
    split_ifs with h₁ h₂ h₃
    · exact .inl rfl
    · exact ih.imp_right fun ⟨q, hq, h⟩ => ⟨q, by simp [hq], h⟩
    · exact .inr ⟨r, by simp, ⟨by omega, by omega, h₃⟩, rfl⟩
    · exact .inl rfl

theorem expansionOf?_mem {n : Nat} {es : List (Nat × List Nat)} {ms : List Nat} (h : expansionOf? n es = some ms) :
    (n, ms) ∈ es := by
  induction es with
  | nil => cases h
  | cons e es ih =>
    obtain ⟨m, ks⟩ := e
    rw [expansionOf?] at h
    split_ifs at h with h₁ h₂
    · obtain rfl := Option.some.inj h
      simp [h₂]
    · simp [ih h]

def capitals : List CaseRun :=
  caseRuns.map CaseRun.image ++ (caseExpansions.flatMap Prod.snd).map CaseRun.point

theorem capitals_checked : (capitals.all fun r => r.unshifted caseRuns && r.unexpanded caseExpansions &&
    r.encodable && Nat.blt 0x40 r.first) = true := by
  decide +kernel

theorem capitals_fixed {r : CaseRun} (hr : r ∈ capitals) : r.unshifted caseRuns = true ∧
    r.unexpanded caseExpansions = true ∧ r.encodable = true ∧ 0x40 < r.first := by
  have h := List.all_eq_true.mp capitals_checked r hr
  simpa only [Bool.and_eq_true, Nat.blt_eq, and_assoc] using h

theorem shift_bounded : ∀ r ∈ caseRuns, 0 ≤ r.first + r.shift := by
  decide +kernel

theorem upcaseChar_cases (c : Char) :
    upcaseChar c = [c] ∨ upcaseChar c ≠ [] ∧ ∀ d ∈ upcaseChar c, ∃ r ∈ capitals, r.Lists d.toNat := by
  have toNat {r : CaseRun} {n : Nat} (hr : r ∈ capitals) (h : r.Lists n) : (Char.ofNat n).toNat = n := by
    rw [Char.ofNat, dif_pos (h.isValidChar (capitals_fixed hr).2.2.1)]
    rfl
  rw [upcaseChar]
  cases he : expansionOf? c.toNat caseExpansions with
  | some ms =>
    have hmem := expansionOf?_mem he
    have hne : ∀ e ∈ caseExpansions, e.2 ≠ [] := by decide +kernel
    refine .inr ⟨by simpa using hne _ hmem, ?_⟩
    intro d hd
    obtain ⟨n, hn, rfl⟩ := List.mem_map.mp hd
    have hr : CaseRun.point n ∈ capitals :=
      List.mem_append_right _ (List.mem_map_of_mem (List.mem_flatMap.mpr ⟨_, hmem, hn⟩))
    exact ⟨_, hr, by rw [toNat hr (CaseRun.lists_point n)]; exact CaseRun.lists_point n⟩
  | none =>
    dsimp only
    obtain hz | ⟨r, hr, hl, hs⟩ := shiftOf_cases c.toNat caseRuns
    · left
      rw [hz, Int.add_zero]
      simp
    · have hi : r.image ∈ capitals := List.mem_append_left _ (List.mem_map_of_mem hr)
      have hl' := hl.image (shift_bounded r hr)
      refine .inr ⟨by simp, ?_⟩
      simp only [List.mem_singleton, forall_eq]
      exact ⟨_, hi, by rw [hs, toNat hi hl']; exact hl'⟩

theorem upcaseChar_fixed {c d : Char} (h : d ∈ upcaseChar c) : upcaseChar d = [d] := by
  obtain hc | ⟨-, hc⟩ := upcaseChar_cases c
  · obtain rfl : d = c := by simpa [hc] using h
    exact hc
  · obtain ⟨r, hr, hd⟩ := hc d h
    obtain ⟨hs, he, -⟩ := capitals_fixed hr
    exact hd.upcaseChar hs he

theorem flatMap_upcaseChar {cs : List Char} (h : ∀ c ∈ cs, upcaseChar c = [c]) : cs.flatMap upcaseChar = cs := by
  induction cs with
  | nil => rfl
  | cons c cs ih => simp [h c (by simp), ih fun d hd => h d (by simp [hd])]

theorem upcase_upcase (s : String) : upcase (upcase s) = upcase s := by
  simp only [upcase, String.toList_ofList]
  rw [flatMap_upcaseChar]
  intro d hd
  obtain ⟨c, -, hd⟩ := List.mem_flatMap.mp hd
  exact upcaseChar_fixed hd

theorem toList_upcase (s : String) : (upcase s).toList = s.toList.flatMap upcaseChar := by
  simp [upcase]

theorem upcaseChar_low {c : Char} (h : c.toNat ≤ 0x40) : upcaseChar c = [c] := by
  have hl : CaseRun.Lists ⟨0, 0x40, 1, 0⟩ c.toNat := ⟨Nat.zero_le _, h, Nat.mod_one _⟩
  exact hl.upcaseChar (by decide +kernel) (by decide +kernel)

theorem eq_of_upcaseChar_low {c d : Char} (h : d ∈ upcaseChar c) (hd : d.toNat ≤ 0x40) : upcaseChar c = [c] := by
  obtain hc | ⟨-, hc⟩ := upcaseChar_cases c
  · exact hc
  · obtain ⟨r, hr, hl, -⟩ := hc d h
    have hlow := (capitals_fixed hr).2.2.2
    omega

theorem eq_of_upcase_low {s s' : String} (h : upcase s = upcase s') (hs : ∀ c ∈ s.toList, c.toNat ≤ 0x40) : s = s' := by
  -- `s` is its own uppercase form, so every character of `s'` gives way to one below the letters
  have hfixed : s.toList.flatMap upcaseChar = s.toList := flatMap_upcaseChar fun c hc => upcaseChar_low (hs c hc)
  have heq : s'.toList.flatMap upcaseChar = s.toList := by rw [← toList_upcase, ← h, toList_upcase, hfixed]
  have hlow (c : Char) (hc : c ∈ s'.toList) : upcaseChar c = [c] := by
    obtain hone | ⟨hne, -⟩ := upcaseChar_cases c
    · exact hone
    · obtain ⟨d, hd⟩ := List.exists_mem_of_ne_nil _ hne
      apply eq_of_upcaseChar_low hd
      apply hs d
      rw [← heq]
      exact List.mem_flatMap.mpr ⟨c, hc, hd⟩
  rw [flatMap_upcaseChar hlow] at heq
  exact String.toList_inj.mp heq.symm

end Lisp.Text
