import Lisp.Datum.Read
import Lisp.Proofs.Scanning

namespace Lisp

def Verdict.result? : Verdict → Option (Except ReadError Datum)
  | .shift _ => none
  | .accept d => some (.ok d)
  | .reject e => some (.error e)

theorem Verdict.result?_eq_error {v : Verdict} {r : ReadError} : v.result? = some (.error r) ↔ v = .reject r := by
  cases v <;> simp [result?]

namespace Expecting

def shifts : Expecting → List Token → Option Expecting
  | e, [] => some e
  | e, t :: ts =>
    match e.step t with
    | .shift e' => shifts e' ts
    | _ => none

theorem shifts_append {e e' : Expecting} {ts us : List Token} (h : e.shifts ts = some e') :
    e.shifts (ts ++ us) = e'.shifts us := by
  induction ts generalizing e with
  | nil => rw [shifts, Option.some_inj] at h; rw [h, List.nil_append]
  | cons t ts ih =>
    rw [shifts] at h
    rw [List.cons_append, shifts]
    cases hs : e.step t with
    | shift e₁ => rw [hs] at h; exact ih h
    | accept d => simp [hs] at h
    | reject r => simp [hs] at h

theorem deliver_shift {d : Datum} {os : List Opened} {e : Expecting} (h : deliver d os = .shift e) :
    e.isInitial = false := by
  induction os generalizing d with
  | nil => simp [deliver] at h
  | cons o os ih =>
    cases o with
    | quote => exact ih h
    | list ds => obtain rfl := Verdict.shift.inj h; rfl
    | improper ds => obtain rfl := Verdict.shift.inj h; rfl

theorem step_shift {e e' : Expecting} {t : Token} (h : e.step t = .shift e') : e'.isInitial = false := by
  unfold step at h
  split at h
  case h_1 => cases h
  case h_2 => exact deliver_shift h
  case h_3 => cases h
  case h_4 => obtain rfl := Verdict.shift.inj h; rfl
  case h_5 => obtain rfl := Verdict.shift.inj h; rfl
  case h_6 => exact deliver_shift h
  case h_7 => exact deliver_shift h
  case h_8 => exact deliver_shift h
  case h_9 => cases h
  case h_10 => obtain rfl := Verdict.shift.inj h; rfl
  case h_11 => cases h

theorem shifts_isInitial {e e' : Expecting} {ts : List Token} (h : e.shifts ts = some e') (hts : ts ≠ []) :
    e'.isInitial = false := by
  induction ts generalizing e with
  | nil => exact absurd rfl hts
  | cons t ts ih =>
    rw [shifts] at h
    cases hs : e.step t with
    | accept d => simp [hs] at h
    | reject r => simp [hs] at h
    | shift e₁ =>
      rw [hs] at h
      cases ts with
      | nil => obtain rfl := Option.some.inj h; exact step_shift hs
      | cons u us => exact ih h (by simp)

theorem deliver_reject {d : Datum} {os : List Opened} {r : ReadError} : deliver d os ≠ .reject r := by
  induction os generalizing d with
  | nil => simp [deliver]
  | cons o os ih =>
    cases o with
    | quote => exact ih
    | list ds => simp [deliver]
    | improper ds => simp [deliver]

theorem step_reject {e : Expecting} {t : Token} {r : ReadError} (h : e.step t = .reject r) :
    t = .unterminated ∧ r = .unterminatedString ∨ t ≠ .unterminated ∧ r.isIncomplete = false := by
  unfold step at h
  split at h
  case h_1 => exact .inl ⟨rfl, (Verdict.reject.inj h).symm⟩
  case h_2 => exact absurd h deliver_reject
  case h_3 ht _ => obtain rfl := Verdict.reject.inj h; exact .inr ⟨ht, rfl⟩
  case h_4 => cases h
  case h_5 => cases h
  case h_6 => exact absurd h deliver_reject
  case h_7 => exact absurd h deliver_reject
  case h_8 => exact absurd h deliver_reject
  case h_9 => obtain rfl := Verdict.reject.inj h; exact .inr ⟨by simp, rfl⟩
  case h_10 => cases h
  case h_11 => obtain rfl := Verdict.reject.inj h; exact .inr ⟨by simp, rfl⟩

theorem step_ne_endOfInput {e : Expecting} {t : Token} :
    (e.step t).result? ≠ some (.error .endOfInput) := by
  intro h
  rcases step_reject (Verdict.result?_eq_error.mp h) with ⟨-, hr⟩ | ⟨-, hr⟩
  · cases hr
  · cases hr

end Expecting

namespace Reading

open Text (byteSize Lined)

def isIncomplete (r : Reading) : Bool :=
  match r.result with
  | .ok _ => false
  | .error e => e.isIncomplete

theorem all_eq_next (size : Nat) (e : Expecting) (ls : List Lexeme) :
    all size e ls = match next size e ls with
      | none => []
      | some (r, rest) => r :: all size .initial rest := by
  induction ls generalizing e with
  | nil =>
    rw [all, next]
    cases e.isInitial <;> rfl
  | cons l ls ih =>
    rw [all, next]
    cases e.step l.token with
    | shift e' => exact ih e'
    | accept d => rfl
    | reject r => rfl

def follow (size stop : Nat) (rest : List Lexeme) : Verdict → Option (Reading × List Lexeme)
  | .shift e => next size e rest
  | .accept d => some (⟨.ok d, stop⟩, rest)
  | .reject r => some (⟨.error r, stop⟩, rest)

theorem next_cons (size : Nat) (e : Expecting) (l : Lexeme) (ls : List Lexeme) :
    next size e (l :: ls) = follow size l.stop ls (e.step l.token) := by
  rw [next]
  cases e.step l.token <;> rfl

theorem next_shifts {e e' : Expecting} {p : List Lexeme} (h : e.shifts (p.map Lexeme.token) = some e') (size : Nat)
    (ls : List Lexeme) : next size e (p ++ ls) = next size e' ls := by
  induction p generalizing e with
  | nil => rw [Option.some.inj h, List.nil_append]
  | cons l p ih =>
    rw [List.map_cons, Expecting.shifts] at h
    rw [List.cons_append, next]
    cases hs : e.step l.token with
    | shift e₁ => rw [hs] at h; exact ih h
    | accept d => simp [hs] at h
    | reject r => simp [hs] at h

theorem next_settles {e : Expecting} {l : Lexeme} {r : Except ReadError Datum}
    (hr : (e.step l.token).result? = some r) (size : Nat) (rest : List Lexeme) :
    next size e (l :: rest) = some (⟨r, l.stop⟩, rest) := by
  rw [next]
  cases hs : e.step l.token with
  | shift e' => simp [hs, Verdict.result?] at hr
  | accept d => simpa [hs, Verdict.result?] using hr
  | reject x => simpa [hs, Verdict.result?] using hr

theorem next_cases (e : Expecting) (ls : List Lexeme) :
    (∃ e', e.shifts (ls.map Lexeme.token) = some e' ∧
      ∀ size, next size e ls = if e'.isInitial then none else some (⟨.error .endOfInput, size⟩, [])) ∨
    (∃ p l rest e' r, ls = p ++ l :: rest ∧ e.shifts (p.map Lexeme.token) = some e' ∧
      (e'.step l.token).result? = some r ∧
      ∀ size rest', next size e (p ++ l :: rest') = some (⟨r, l.stop⟩, rest')) := by
  induction ls generalizing e with
  | nil => exact .inl ⟨e, rfl, fun _ => rfl⟩
  | cons l ls ih =>
    cases hr : (e.step l.token).result? with
    | some r => exact .inr ⟨[], l, ls, e, r, rfl, rfl, hr, next_settles hr⟩
    | none =>
      obtain ⟨e₁, hs⟩ : ∃ e₁, e.step l.token = .shift e₁ := by
        cases hs : e.step l.token with
        | shift e₁ => exact ⟨e₁, rfl⟩
        | accept d => simp [hs, Verdict.result?] at hr
        | reject x => simp [hs, Verdict.result?] at hr
      have hcons (ts : List Token) : e.shifts (l.token :: ts) = e₁.shifts ts := by rw [Expecting.shifts, hs]
      rcases ih e₁ with ⟨e', he, hn⟩ | ⟨p, l', rest, e', r, rfl, he, hr, -⟩
      · exact .inl ⟨e', by rw [List.map_cons, hcons, he], fun size => by rw [next, hs]; exact hn size⟩
      · have he' : e.shifts ((l :: p).map Lexeme.token) = some e' := by rw [List.map_cons, hcons, he]
        exact .inr ⟨l :: p, l', rest, e', r, rfl, he', hr, fun size rest' => by rw [next_shifts he', next_settles hr]⟩

theorem next_eq_none {size : Nat} {ls : List Lexeme} (h : next size .initial ls = none) : ls = [] := by
  rcases next_cases .initial ls with ⟨e', he, hn⟩ | ⟨p, l, rest, e', r, rfl, -, -, hn⟩
  · by_cases hl : ls = []
    · exact hl
    · rw [hn size, Expecting.shifts_isInitial he (by simpa using hl)] at h
      cases h
  · rw [hn size rest] at h
    cases h

theorem all_result_congr {size size' : Nat} {e : Expecting} {ls ls' : List Lexeme}
    (h : ls.map Lexeme.token = ls'.map Lexeme.token) :
    (all size e ls).map result = (all size' e ls').map result := by
  induction ls generalizing e ls' with
  | nil =>
    obtain rfl : ls' = [] := by simpa using h.symm
    rw [all, all]
    cases e.isInitial <;> rfl
  | cons l ls ih =>
    cases ls' with
    | nil => simp at h
    | cons l' ls' =>
      obtain ⟨ht, hr⟩ := List.cons.inj h
      rw [all, all, ← ht]
      cases e.step l.token with
      | shift e' => exact ih hr
      | accept d => simp only [List.map_cons, ih hr]
      | reject r => simp only [List.map_cons, ih hr]

theorem all_result_scan (size offset : Nat) (cs : List Char) :
    (all size .initial (Lexeme.scanFrom .between offset cs)).map result =
      (ofString (String.ofList cs)).map result := by
  rw [ofString, Lexeme.scan, String.toList_ofList]
  apply all_result_congr
  have h := Lexeme.scanFrom_moved offset .between 0 cs
  rw [Nat.zero_add] at h
  rw [show Mode.between = Mode.between.moved offset from rfl, h, List.map_map]
  rfl

theorem unterminated_last {m : Mode} {offset : Nat} {cs : List Char} {ls ls' : List Lexeme} {l : Lexeme}
    (h : Lexeme.scanFrom m offset cs = ls ++ l :: ls') (hl : l.token = .unterminated) : ls' = [] := by
  have hc {init : List Lexeme} : (Lexeme.consume m offset cs).1 ≠ ls ++ l :: init := fun he =>
    Lexeme.consume_terminated (l := l) (by rw [he]; simp) hl
  rw [Lexeme.scanFrom_eq_consume] at h
  rcases Lexeme.finish_cases (Lexeme.consume m offset cs).2 (offset + byteSize cs) with hf | ⟨-, x, hf, -⟩
  · rw [hf, List.append_nil] at h
    exact absurd h hc
  · rcases List.eq_nil_or_concat ls' with rfl | ⟨init, y, rfl⟩
    · rfl
    · rw [hf, List.concat_eq_append, ← List.cons_append, ← List.append_assoc] at h
      exact absurd (List.append_inj_left' h rfl) hc

theorem next_incomplete {size offset : Nat} {cs : List Char} {r : Reading} {rest : List Lexeme}
    (h : next size .initial (Lexeme.scanFrom .between offset cs) = some (r, rest))
    (hr : r.isIncomplete = true) : rest = [] := by
  rcases next_cases .initial (Lexeme.scanFrom .between offset cs) with
    ⟨e', -, hn⟩ | ⟨p, l, rest', e', v, hls, -, hv, hn⟩
  · rw [hn size] at h
    split at h
    · cases h
    · exact (Prod.mk.inj (Option.some.inj h)).2.symm
  · rw [hls, hn size rest'] at h
    obtain ⟨rfl, rfl⟩ := Prod.mk.inj (Option.some.inj h)
    cases hs : e'.step l.token with
    | shift e₁ => simp [hs, Verdict.result?] at hv
    | accept d =>
      obtain rfl : .ok d = v := by simpa [hs, Verdict.result?] using hv
      cases hr
    | reject x =>
      obtain rfl : .error x = v := by simpa [hs, Verdict.result?] using hv
      rcases Expecting.step_reject hs with ⟨ht, -⟩ | ⟨-, hx⟩
      · exact unterminated_last hls ht
      · exact absurd hr (by simp [isIncomplete, hx])

/-- What is complete in the lines read so far stays as it is, whatever lines follow, and reading
goes on behind it. -/
theorem next_complete {size offset : Nat} {cs ds : List Char} {r : Reading} {rest : List Lexeme}
    (h : next size .initial (Lexeme.scanFrom .between offset cs) = some (r, rest))
    (hr : r.isIncomplete = false) (hd : Lined cs ∨ ds = []) :
    ∃ before after, cs = before ++ after ∧ before ≠ [] ∧ r.offset = offset + byteSize before ∧
      rest = Lexeme.scanFrom .between r.offset after ∧
      ∀ size', next size' .initial (Lexeme.scanFrom .between offset (cs ++ ds)) =
        some (r, Lexeme.scanFrom .between r.offset (after ++ ds)) := by
  rcases next_cases .initial (Lexeme.scanFrom .between offset cs) with
    ⟨e', -, hn⟩ | ⟨p, l, rest', e', v, hls, -, hv, hn⟩
  · rw [hn size] at h
    split at h
    · cases h
    · obtain rfl := (Prod.mk.inj (Option.some.inj h)).1
      cases hr
  · rw [hls, hn size rest'] at h
    obtain ⟨rfl, rfl⟩ := Prod.mk.inj (Option.some.inj h)
    have hl : l.token ≠ .unterminated := by
      intro hl
      obtain rfl : .error .unterminatedString = v := by
        rw [hl] at hv
        cases e' <;> exact Option.some.inj hv
      cases hr
    obtain ⟨before, after, rfl, hstop, hrest, hne⟩ := Lexeme.scanFrom_restart hls
    -- the lexemes up to `l` are there before the continuation is looked at
    have hext : ∃ more, Lexeme.scanFrom .between offset (before ++ after ++ ds) = p ++ l :: more := by
      rcases hd with hd | rfl
      · rw [Lexeme.scanFrom_append]
        rw [Lexeme.scanFrom_eq_consume] at hls
        rcases Lexeme.consume_lined hd offset with hm | ⟨start, text, hm⟩
        · rw [hm, Mode.finish, List.append_nil] at hls
          exact ⟨_, by rw [hls, List.append_assoc, List.cons_append]⟩
        · rcases List.eq_nil_or_concat rest' with rfl | ⟨init, y, rfl⟩
          · rw [hm, Mode.finish] at hls
            obtain rfl := List.singleton_inj.mp (List.append_inj_right' hls rfl)
            exact absurd rfl hl
          · rw [hm, Mode.finish, List.concat_eq_append, ← List.cons_append, ← List.append_assoc] at hls
            exact ⟨_, by rw [List.append_inj_left' hls rfl, List.append_assoc, List.cons_append]⟩
      · exact ⟨rest', by rw [List.append_nil]; exact hls⟩
    obtain ⟨more, hmore⟩ := hext
    obtain ⟨before', after', hcut, hstop', hrest', -⟩ := Lexeme.scanFrom_restart hmore
    rw [List.append_assoc] at hcut
    have hafter : after ++ ds = after' := Text.append_inj_byteSize hcut (by omega)
    refine ⟨before, after, rfl, hne rfl, hstop, hrest, fun size' => ?_⟩
    rw [hmore, hn size' more, hrest', hafter]

theorem scan_nothing {size offset : Nat} {cs ds : List Char}
    (h : next size .initial (Lexeme.scanFrom .between offset cs) = none) (hd : Lined cs ∨ ds = []) :
    Lexeme.scanFrom .between offset (cs ++ ds) = Lexeme.scanFrom .between (offset + byteSize cs) ds := by
  have hls := next_eq_none h
  rcases hd with hd | rfl
  · rw [Lexeme.scanFrom_eq_consume, List.append_eq_nil_iff] at hls
    rw [Lexeme.scanFrom_append, hls.1]
    rcases Lexeme.consume_lined hd offset with hm | ⟨start, text, hm⟩
    · rw [hm, List.nil_append]
    · rw [hm, Mode.finish] at hls
      exact absurd hls.2 (by simp)
  · rw [List.append_nil, hls]
    rfl

end Reading

end Lisp
