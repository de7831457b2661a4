import Lisp.Proofs.TextLines
import Lisp.Token.Scan
import Mathlib.Tactic.SplitIfs

namespace Lisp

namespace Mode

def moved (k : Nat) : Mode → Mode
  | between => between
  | comment => comment
  | literal start text => literal (start + k) text
  | string start text => string (start + k) text
  | escape start text => escape (start + k) text

end Mode

namespace Lexeme

open Text (byteSize Lined)

def moved (k : Nat) (l : Lexeme) : Lexeme :=
  ⟨l.token, l.start + k, l.stop + k⟩

@[simp]
theorem scanFrom_nil (m : Mode) (offset : Nat) : scanFrom m offset [] = m.finish offset := rfl

theorem scanFrom_cons (m : Mode) (offset : Nat) (c : Char) (cs : List Char) :
    scanFrom m offset (c :: cs) =
      (m.step offset c).1 ++ scanFrom (m.step offset c).2 (offset + c.utf8Size) cs := rfl

theorem fresh_moved (k offset : Nat) (c : Char) :
    Mode.fresh (offset + k) c = ((Mode.fresh offset c).1.map (moved k), (Mode.fresh offset c).2.moved k) := by
  unfold Mode.fresh
  split_ifs <;> simp [moved, Mode.moved, Nat.add_right_comm]

theorem step_moved (k offset : Nat) (c : Char) (m : Mode) :
    (m.moved k).step (offset + k) c = ((m.step offset c).1.map (moved k), (m.step offset c).2.moved k) := by
  cases m with
  | between => exact fresh_moved k offset c
  | comment => simp only [Mode.moved, Mode.step]; split_ifs <;> rfl
  | literal start text =>
    simp only [Mode.moved, Mode.step]
    split_ifs
    · rw [fresh_moved]; rfl
    · rfl
  | string start text =>
    simp only [Mode.moved, Mode.step]
    split_ifs <;> simp [moved, Nat.add_right_comm]
  | escape start text => rfl

theorem scanFrom_moved (k : Nat) (m : Mode) (offset : Nat) (cs : List Char) :
    scanFrom (m.moved k) (offset + k) cs = (scanFrom m offset cs).map (moved k) := by
  induction cs generalizing m offset with
  | nil => cases m <;> rfl
  | cons c cs ih =>
    rw [scanFrom_cons, scanFrom_cons, step_moved, Nat.add_right_comm, ih, List.map_append]

def consume (m : Mode) (offset : Nat) : List Char → List Lexeme × Mode
  | [] => ([], m)
  | c :: cs =>
    let (ls, m') := m.step offset c
    let (ls', m'') := consume m' (offset + c.utf8Size) cs
    (ls ++ ls', m'')

theorem consume_cons (m : Mode) (offset : Nat) (c : Char) (cs : List Char) :
    consume m offset (c :: cs) =
      ((m.step offset c).1 ++ (consume (m.step offset c).2 (offset + c.utf8Size) cs).1,
        (consume (m.step offset c).2 (offset + c.utf8Size) cs).2) := rfl

theorem consume_append (m : Mode) (offset : Nat) (cs ds : List Char) :
    (consume m offset (cs ++ ds)).2 = (consume (consume m offset cs).2 (offset + byteSize cs) ds).2 := by
  induction cs generalizing m offset with
  | nil => rfl
  | cons c cs ih =>
    simp only [List.cons_append, consume_cons, ih, Text.byteSize_cons, Nat.add_assoc]

theorem scanFrom_append (m : Mode) (offset : Nat) (cs ds : List Char) :
    scanFrom m offset (cs ++ ds) =
      (consume m offset cs).1 ++ scanFrom (consume m offset cs).2 (offset + byteSize cs) ds := by
  induction cs generalizing m offset with
  | nil => rfl
  | cons c cs ih =>
    simp only [List.cons_append, scanFrom_cons, consume_cons, ih, Text.byteSize_cons, Nat.add_assoc,
      List.append_assoc]

theorem scanFrom_eq_consume (m : Mode) (offset : Nat) (cs : List Char) :
    scanFrom m offset cs =
      (consume m offset cs).1 ++ (consume m offset cs).2.finish (offset + byteSize cs) := by
  simpa using scanFrom_append m offset cs []

theorem fresh_cases (offset : Nat) (c : Char) :
    ((Mode.fresh offset c).1 = [] ∨
      ∃ l, Mode.fresh offset c = ([l], .between) ∧ l.stop = offset + c.utf8Size ∧ l.token ≠ .unterminated) := by
  unfold Mode.fresh
  split_ifs with h₁ h₂ h₃ h₄ h₅ h₆ h₇
  · exact .inl rfl
  · exact .inl rfl
  · exact .inl rfl
  · exact .inr ⟨_, rfl, by rw [h₄]; rfl, by simp⟩
  · exact .inr ⟨_, rfl, by rw [h₅]; rfl, by simp⟩
  · exact .inr ⟨_, rfl, by rw [h₆]; rfl, by simp⟩
  · exact .inr ⟨_, rfl, by rw [h₇]; rfl, by simp⟩
  · exact .inl rfl

theorem step_cases (m : Mode) (offset : Nat) (c : Char) :
    (m.step offset c).1 = [] ∨
    (∃ l, m.step offset c = ([l], .between) ∧ l.stop = offset + c.utf8Size ∧ l.token ≠ .unterminated) ∨
    (∃ start text, m = .literal start text ∧
      m.step offset c = (Mode.closeLiteral start text offset :: (Mode.fresh offset c).1, (Mode.fresh offset c).2)) := by
  cases m with
  | between => exact (fresh_cases offset c).imp_right .inl
  | comment => exact .inl rfl
  | literal start text =>
    simp only [Mode.step]
    split_ifs
    · exact .inr (.inr ⟨start, text, rfl, rfl⟩)
    · exact .inl rfl
  | string start text =>
    simp only [Mode.step]
    split_ifs with h₁ h₂
    · exact .inr (.inl ⟨_, rfl, by rw [h₁]; rfl, by simp⟩)
    · exact .inl rfl
    · exact .inl rfl
  | escape start text => exact .inl rfl

theorem finish_cases (m : Mode) (offset : Nat) :
    m.finish offset = [] ∨ m ≠ .between ∧ ∃ l, m.finish offset = [l] ∧ l.stop = offset := by
  cases m with
  | between => exact .inl rfl
  | comment => exact .inl rfl
  | literal start text => exact .inr ⟨by simp, _, rfl, rfl⟩
  | string start text => exact .inr ⟨by simp, _, rfl, rfl⟩
  | escape start text => exact .inr ⟨by simp, _, rfl, rfl⟩

/-- The text can be cut behind any of its lexemes and scanned afresh from there. -/
theorem scanFrom_restart {m : Mode} {offset : Nat} {cs : List Char} {ls ls' : List Lexeme} {l : Lexeme}
    (h : scanFrom m offset cs = ls ++ l :: ls') :
    ∃ before after, cs = before ++ after ∧ l.stop = offset + byteSize before ∧
      ls' = scanFrom .between l.stop after ∧ (m = .between → before ≠ []) := by
  induction cs generalizing m offset ls with
  | nil =>
    rw [scanFrom_nil] at h
    rcases finish_cases m offset with hf | ⟨hm, x, hf, hx⟩
    · simp [hf] at h
    · rw [hf, List.singleton_eq_append_iff] at h
      obtain ⟨-, h⟩ | ⟨-, h⟩ := h
      · obtain ⟨rfl, rfl⟩ := List.cons.inj h
        exact ⟨[], [], rfl, hx, rfl, fun hb => absurd hb hm⟩
      · simp at h
  | cons c cs ih =>
    -- the character either adds to what is cut off later, or ends it
    have later {m' : Mode} {ls : List Lexeme} (h : scanFrom m' (offset + c.utf8Size) cs = ls ++ l :: ls') :
        ∃ before after, c :: cs = before ++ after ∧ l.stop = offset + byteSize before ∧
          ls' = scanFrom .between l.stop after ∧ before ≠ [] := by
      obtain ⟨before, after, rfl, hstop, hrest, -⟩ := ih h
      exact ⟨c :: before, after, rfl, by rw [hstop, Text.byteSize_cons, Nat.add_assoc], hrest, by simp⟩
    have token {x : Lexeme} {ls : List Lexeme} (hx : x.stop = offset + c.utf8Size)
        (h : x :: scanFrom .between (offset + c.utf8Size) cs = ls ++ l :: ls') :
        ∃ before after, c :: cs = before ++ after ∧ l.stop = offset + byteSize before ∧
          ls' = scanFrom .between l.stop after ∧ before ≠ [] := by
      cases ls with
      | nil =>
        obtain ⟨rfl, rfl⟩ := List.cons.inj h
        exact ⟨[c], cs, rfl, by simpa using hx, by rw [hx], by simp⟩
      | cons y ls => exact later (List.cons.inj h).2
    rw [scanFrom_cons] at h
    rcases step_cases m offset c with hs | ⟨x, hs, hx, -⟩ | ⟨start, text, rfl, hs⟩
    · rw [hs, List.nil_append] at h
      obtain ⟨before, after, hc, hstop, hrest, hne⟩ := later h
      exact ⟨before, after, hc, hstop, hrest, fun _ => hne⟩
    · rw [hs, List.singleton_append] at h
      obtain ⟨before, after, hc, hstop, hrest, hne⟩ := token hx h
      exact ⟨before, after, hc, hstop, hrest, fun _ => hne⟩
    · rw [hs, List.cons_append] at h
      cases ls with
      | nil =>
        obtain ⟨rfl, rfl⟩ := List.cons.inj h
        exact ⟨[], c :: cs, rfl, rfl, rfl, by simp⟩
      | cons y ls =>
        replace h := (List.cons.inj h).2
        rcases fresh_cases offset c with hf | ⟨x, hf, hx, -⟩
        · rw [hf, List.nil_append] at h
          obtain ⟨before, after, hc, hstop, hrest, hne⟩ := later h
          exact ⟨before, after, hc, hstop, hrest, fun _ => hne⟩
        · rw [hf, List.singleton_append] at h
          obtain ⟨before, after, hc, hstop, hrest, hne⟩ := token hx h
          exact ⟨before, after, hc, hstop, hrest, fun _ => hne⟩

theorem consume_terminated {m : Mode} {offset : Nat} {cs : List Char} {l : Lexeme}
    (h : l ∈ (consume m offset cs).1) : l.token ≠ .unterminated := by
  induction cs generalizing m offset with
  | nil => simp [consume] at h
  | cons c cs ih =>
    rw [consume_cons, List.mem_append] at h
    rcases h with h | h
    · rcases step_cases m offset c with hs | ⟨x, hs, -, hx⟩ | ⟨start, text, rfl, hs⟩
      · simp [hs] at h
      · rw [hs, List.mem_singleton] at h
        exact h ▸ hx
      · rw [hs, List.mem_cons] at h
        rcases h with rfl | h
        · simp [Mode.closeLiteral]
        · rcases fresh_cases offset c with hf | ⟨x, hf, -, hx⟩
          · simp [hf] at h
          · rw [hf, List.mem_singleton] at h
            exact h ▸ hx
    · exact ih h

theorem step_newline (m : Mode) (offset : Nat) :
    (m.step offset '\n').2 = .between ∨ ∃ start text, (m.step offset '\n').2 = .string start text := by
  cases m with
  | between => exact .inl rfl
  | comment => exact .inl rfl
  | literal start text => exact .inl rfl
  | string start text => exact .inr ⟨_, _, rfl⟩
  | escape start text => exact .inr ⟨_, _, rfl⟩

theorem consume_lined {cs : List Char} (h : Lined cs) (offset : Nat) :
    (consume .between offset cs).2 = .between ∨
      ∃ start text, (consume .between offset cs).2 = .string start text := by
  rcases List.eq_nil_or_concat cs with rfl | ⟨ds, c, rfl⟩
  · exact .inl rfl
  · obtain rfl : c = '\n' := h c (by simp)
    rw [List.concat_eq_append, consume_append]
    exact step_newline _ _

end Lexeme

end Lisp
