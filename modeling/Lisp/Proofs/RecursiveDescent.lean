import Lisp.Proofs.ReaderGrammar
import Lisp.Proofs.Runs

namespace Lisp

structure Reader where
  size : Nat
  lexemes : List Lexeme
  pushback : Option Token
  offset : Nat

namespace Reader

def ofString (source : String) : Reader :=
  ⟨source.utf8ByteSize, Lexeme.scan source, none, 0⟩

def nextToken : Run ReadError Reader (Option Token) := fun r =>
  match r.pushback, r.lexemes with
  | some t, _ => .value (some t) { r with pushback := none }
  | none, [] => .value none { r with offset := r.size }
  | none, l :: ls =>
    let r' : Reader := { r with lexemes := ls, offset := l.stop }
    if l.token = .unterminated then .error .unterminatedString r' else .value (some l.token) r'

def pushBack (t : Token) : Run ReadError Reader Unit :=
  Run.modify (fun r => { r with pushback := some t })

def expectToken : Run ReadError Reader Token := do
  match ← nextToken with
  | some t => pure t
  | none => Run.throw .endOfInput

mutual

def required : Nat → Run ReadError Reader Datum
  | 0 => Run.exhaust
  | depth + 1 => do ofToken depth (← expectToken)

def ofToken : Nat → Token → Run ReadError Reader Datum
  | 0, _ => Run.exhaust
  | _ + 1, .rightParen => Run.throw .unexpectedClose
  | _ + 1, .dot => Run.throw .unexpectedDot
  | _ + 1, .unterminated => Run.throw .unterminatedString
  | _ + 1, .string text => pure (.string text)
  | _ + 1, .literal text => pure (.literal text)
  | depth + 1, .quote => do pure (.quoted (← required depth))
  | depth + 1, .leftParen => list depth []

def list : Nat → List Datum → Run ReadError Reader Datum
  | 0, _ => Run.exhaust
  | depth + 1, ds => do
    match ← expectToken, ds with
    | .rightParen, ds => pure (.chain ds .nil)
    | .dot, d :: ds =>
      let tail ← required depth
      match ← expectToken with
      | .rightParen => pure (.chain (d :: ds) tail)
      | _ => Run.throw .expectedClose
    | t, ds =>
      pushBack t
      let d ← required depth
      list depth (d :: ds)

end

def expression (depth : Nat) : Run ReadError Reader (Option Datum) := do
  match ← nextToken with
  | none => pure none
  | some t => some <$> ofToken depth t

open Expecting (deliver)
open Reading (next follow)

variable {size k : Nat}

/-- The run leaves no token put back, and reading as a pushdown machine comes to the same: a datum
is delivered to what is open around it, and a failure is the answer. -/
inductive Agrees (size k : Nat) (os : List Opened) (answer : Option (Reading × List Lexeme)) :
    Outcome ReadError Reader Datum → Prop where
  | value {d : Datum} {ls : List Lexeme} {offset : Nat} (hls : ls.length ≤ k)
      (h : answer = follow size offset ls (deliver d os)) : Agrees size k os answer (.value d ⟨size, ls, none, offset⟩)
  | error {e : ReadError} {ls : List Lexeme} {offset : Nat} (h : answer = some (⟨.error e, offset⟩, ls)) :
      Agrees size k os answer (.error e ⟨size, ls, none, offset⟩)

variable {os os' : List Opened} {answer : Option (Reading × List Lexeme)} {r : Reader}

theorem Agrees.mono {k' : Nat} {o : Outcome ReadError Reader Datum} (h : Agrees size k os answer o) (hk : k ≤ k') :
    Agrees size k' os answer o := by
  cases h with
  | value hls h => exact .value (Nat.le_trans hls hk) h
  | error h => exact .error h

theorem Agrees.bind {x : Run ReadError Reader Datum} {f : Datum → Run ReadError Reader Datum}
    (hx : Agrees size k os' answer (x r))
    (hf : ∀ d ls offset, ls.length ≤ k → answer = follow size offset ls (deliver d os') →
      Agrees size k os answer (f d ⟨size, ls, none, offset⟩)) : Agrees size k os answer ((x >>= f) r) := by
  generalize ho : x r = o at hx
  cases hx with
  | value hls h =>
    rw [Run.bind_value ho]
    exact hf _ _ _ hls h
  | error h =>
    rw [Run.bind_error ho]
    exact .error h

theorem nextToken_unterminated {l : Lexeme} (hl : l.token = .unterminated) (ls : List Lexeme) (offset : Nat) :
    nextToken ⟨size, l :: ls, none, offset⟩ = .error .unterminatedString ⟨size, ls, none, l.stop⟩ := by
  simp [nextToken, hl]

theorem nextToken_token {l : Lexeme} (hl : l.token ≠ .unterminated) (ls : List Lexeme) (offset : Nat) :
    nextToken ⟨size, l :: ls, none, offset⟩ = .value (some l.token) ⟨size, ls, none, l.stop⟩ := by
  simp [nextToken, hl]

theorem expectToken_bind {e : Expecting} (he : e.isInitial = false) {ls : List Lexeme} {offset : Nat}
    {f : Token → Run ReadError Reader Datum}
    (hf : ∀ l ls', ls = l :: ls' → l.token ≠ .unterminated →
      Agrees size k os (follow size l.stop ls' (e.step l.token)) (f l.token ⟨size, ls', none, l.stop⟩)) :
    Agrees size k os (next size e ls) ((expectToken >>= f) ⟨size, ls, none, offset⟩) := by
  cases ls with
  | nil =>
    apply Agrees.error
    rw [next, he]
    rfl
  | cons l ls =>
    rw [Reading.next_cons]
    by_cases hl : l.token = .unterminated
    · have ht : expectToken ⟨size, l :: ls, none, offset⟩ = .error .unterminatedString ⟨size, ls, none, l.stop⟩ :=
        Run.bind_error (nextToken_unterminated hl ls offset) _
      rw [Run.bind_error ht, hl]
      apply Agrees.error
      cases e <;> rfl
    · have ht : expectToken ⟨size, l :: ls, none, offset⟩ = .value l.token ⟨size, ls, none, l.stop⟩ :=
        Run.bind_value (nextToken_token hl ls offset) _
      rw [Run.bind_value ht]
      exact hf l ls rfl hl

def Starts (os : List Opened) (t : Token) : Prop :=
  (t = .rightParen → (Expecting.datum os).step t = .reject .unexpectedClose) ∧
    (t = .dot → (Expecting.datum os).step t = .reject .unexpectedDot)

theorem starts_of_not_list (h : ∀ ds os', os ≠ .list ds :: os') (t : Token) : Starts os t := by
  constructor <;> rintro rfl
  all_goals
    cases os with
    | nil => rfl
    | cons o os =>
      cases o with
      | list ds => exact absurd rfl (h ds os)
      | _ => rfl

theorem pushBack_required (depth : Nat) (t : Token) (f : Datum → Run ReadError Reader Datum) (ls : List Lexeme)
    (offset : Nat) :
    (do pushBack t; let d ← required (depth + 1); f d : Run ReadError Reader Datum) ⟨size, ls, none, offset⟩ =
      (ofToken depth t >>= f) ⟨size, ls, none, offset⟩ := by
  rw [required]
  rfl

theorem closing_agrees (ds : List Datum) (d : Datum) (ls : List Lexeme) (offset : Nat) :
    Agrees size ls.length os (next size (.closing ds d os) ls)
      ((do
        match ← expectToken with
        | .rightParen => pure (.chain ds d)
        | _ => Run.throw .expectedClose : Run ReadError Reader Datum) ⟨size, ls, none, offset⟩) := by
  apply expectToken_bind rfl
  rintro l ls rfl hl
  cases ht : l.token with
  | rightParen => exact .value (Nat.le_succ _) rfl
  | unterminated => exact absurd ht hl
  | _ => exact .error rfl

-- A token leads at most three calls deeper: the rest of the list, the element put back, its datum.
mutual

theorem required_agrees {depth : Nat} {ls : List Lexeme} (hd : 3 * ls.length + 1 ≤ depth) (offset : Nat)
    {o : Opened} {os : List Opened} (ho : ∀ ds, o ≠ .list ds) :
    Agrees size ls.length (o :: os) (next size (.datum (o :: os)) ls) (required depth ⟨size, ls, none, offset⟩) := by
  obtain ⟨depth, rfl⟩ : ∃ n, depth = n + 1 := ⟨depth - 1, by omega⟩
  rw [required]
  apply expectToken_bind rfl
  rintro l ls rfl -
  rw [List.length_cons] at hd
  exact (ofToken_agrees (by omega) l.stop (starts_of_not_list (by simpa using ho) l.token)).mono (Nat.le_succ _)

theorem ofToken_agrees {depth : Nat} {ls : List Lexeme} (hd : 3 * ls.length + 2 ≤ depth) (offset : Nat)
    {os : List Opened} {t : Token} (ht : Starts os t) :
    Agrees size ls.length os (follow size offset ls ((Expecting.datum os).step t))
      (ofToken depth t ⟨size, ls, none, offset⟩) := by
  obtain ⟨depth, rfl⟩ : ∃ n, depth = n + 1 := ⟨depth - 1, by omega⟩
  cases t with
  | rightParen =>
    rw [ht.1 rfl]
    exact .error rfl
  | dot =>
    rw [ht.2 rfl]
    exact .error rfl
  | unterminated => exact .error rfl
  | string text => exact .value (Nat.le_refl _) rfl
  | literal text => exact .value (Nat.le_refl _) rfl
  | quote =>
    rw [ofToken]
    apply (required_agrees (by omega) offset (by simp)).bind
    intro d ls' offset' hls h
    exact .value hls h
  | leftParen => exact list_agrees (by omega) offset []

theorem list_agrees {depth : Nat} {ls : List Lexeme} (hd : 3 * ls.length + 1 ≤ depth) (offset : Nat)
    (ds : List Datum) {os : List Opened} :
    Agrees size ls.length os (next size (.datum (.list ds :: os)) ls) (list depth ds ⟨size, ls, none, offset⟩) := by
  obtain ⟨depth, rfl⟩ : ∃ n, depth = n + 1 := ⟨depth - 1, by omega⟩
  rw [list]
  apply expectToken_bind rfl
  rintro l ls rfl -
  rw [List.length_cons] at hd
  refine Agrees.mono ?_ (Nat.le_succ ls.length)
  have element (ht : Starts (.list ds :: os) l.token) :
      Agrees size ls.length os (follow size l.stop ls ((Expecting.datum (.list ds :: os)).step l.token))
        ((do pushBack l.token; let d ← required depth; list depth (d :: ds) : Run ReadError Reader Datum)
          ⟨size, ls, none, l.stop⟩) := by
    obtain ⟨n, rfl⟩ : ∃ n, depth = n + 1 := ⟨depth - 1, by omega⟩
    rw [pushBack_required]
    apply (ofToken_agrees (by omega) l.stop ht).bind
    intro d ls' offset' hls h
    rw [h]
    exact (list_agrees (by omega) offset' (d :: ds)).mono hls
  cases ht : l.token with
  | rightParen => exact .value (Nat.le_refl _) rfl
  | dot =>
    cases ds with
    | nil =>
      rw [ht] at element
      exact element ⟨by simp, fun _ => rfl⟩
    | cons d ds =>
      change Agrees size ls.length os (next size (.datum (.improper (d :: ds) :: os)) ls) _
      apply (required_agrees (by omega) l.stop (by simp)).bind
      intro tail ls' offset' hls h
      rw [h]
      exact (closing_agrees (d :: ds) tail ls' offset').mono hls
  | _ =>
    rw [ht] at element
    exact element ⟨by simp, by simp⟩

end

theorem expression_eq_next {depth : Nat} {ls : List Lexeme} (hd : 3 * ls.length ≤ depth) (offset : Nat) :
    expression depth ⟨size, ls, none, offset⟩ = match next size .initial ls with
      | none => .value none ⟨size, [], none, size⟩
      | some (⟨.ok d, offset'⟩, rest) => .value (some d) ⟨size, rest, none, offset'⟩
      | some (⟨.error e, offset'⟩, rest) => .error e ⟨size, rest, none, offset'⟩ := by
  cases ls with
  | nil => rfl
  | cons l ls =>
    rw [List.length_cons] at hd
    rw [Reading.next_cons]
    by_cases hl : l.token = .unterminated
    · rw [expression, Run.bind_error (nextToken_unterminated hl ls offset), hl]
      rfl
    · rw [expression, Run.bind_value (nextToken_token hl ls offset)]
      have hagrees := @ofToken_agrees size depth ls (by omega) l.stop [] l.token (starts_of_not_list (by simp) l.token)
      generalize ho : ofToken depth l.token ⟨size, ls, none, l.stop⟩ = o at hagrees
      change (ofToken depth l.token >>= fun d => pure (some d)) _ = _
      cases hagrees with
      | value hls h =>
        rw [Run.bind_value ho, Expecting.initial, h]
        rfl
      | error h => rw [Run.bind_error ho, Expecting.initial, h]

section Grammar

variable {depth offset offset' : Nat} {ls rest : List Lexeme}

theorem expression_eq_some_iff (hd : 3 * ls.length ≤ depth) {d : Datum} :
    expression depth ⟨size, ls, none, offset⟩ = .value (some d) ⟨size, rest, none, offset'⟩ ↔
      next size .initial ls = some (⟨.ok d, offset'⟩, rest) := by
  rw [expression_eq_next hd]
  split
  all_goals
    rename_i hn
    rw [hn]
    constructor <;> intro h <;> cases h <;> rfl

theorem expression_eq_none_iff (hd : 3 * ls.length ≤ depth) :
    (∃ r', expression depth ⟨size, ls, none, offset⟩ = .value none r') ↔ next size .initial ls = none := by
  rw [expression_eq_next hd]
  split
  · rename_i hn
    exact ⟨fun _ => hn, fun _ => ⟨_, rfl⟩⟩
  all_goals
    rename_i hn
    rw [hn]
    exact ⟨nofun, nofun⟩

theorem expression_eq_error_iff (hd : 3 * ls.length ≤ depth) {e : ReadError} :
    expression depth ⟨size, ls, none, offset⟩ = .error e ⟨size, rest, none, offset'⟩ ↔
      next size .initial ls = some (⟨.error e, offset'⟩, rest) := by
  rw [expression_eq_next hd]
  split
  all_goals
    rename_i hn
    rw [hn]
    constructor <;> intro h <;> cases h <;> rfl

/-- The reader that calls itself accepts the sentences of the grammar with their meanings too, finds nothing
only where there is no token, and tells input that breaks off from a token that cannot stand where it does. -/
theorem expression_iff_grammar (hd : 3 * ls.length ≤ depth) (h : ∀ l ∈ ls, l.token ≠ .unterminated) :
    let answer := expression depth ⟨size, ls, none, offset⟩
    (∀ rest m, (∃ d offset', answer = .value (some d) ⟨size, rest, none, offset'⟩ ∧ d.toExpr = m) ↔
      ∃ p, ls = p ++ rest ∧ Derives (p.map Lexeme.token) m) ∧
    ((∃ r', answer = .value none r') ↔ ls = []) ∧
    ((∃ offset' rest, answer = .error .endOfInput ⟨size, rest, none, offset'⟩) ↔
      ls ≠ [] ∧ ¬ HasSentence (ls.map Lexeme.token) ∧ Unfinished (ls.map Lexeme.token)) ∧
    ((∃ p l rest e, ls = p ++ l :: rest ∧ answer = .error e ⟨size, rest, none, l.stop⟩ ∧ e.isIncomplete = false ∧
        Viable (p.map Lexeme.token) ∧ ¬ Viable ((p ++ [l]).map Lexeme.token)) ↔
      ls ≠ [] ∧ ¬ HasSentence (ls.map Lexeme.token) ∧ ¬ Unfinished (ls.map Lexeme.token)) := by
  simp only [expression_eq_some_iff hd, expression_eq_none_iff hd, expression_eq_error_iff hd]
  refine ⟨Reading.next_ok_iff h size, ⟨Reading.next_eq_none, ?_⟩, Reading.next_endOfInput_iff h size,
    Reading.next_rejected_iff h size⟩
  rintro rfl
  rfl

end Grammar

end Reader

end Lisp
