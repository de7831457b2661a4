import Lisp.Proofs.LineBuffering

namespace Lisp

def Reading.meaning (r : Reading) : Except ReadError (StateM Supply Expr) :=
  r.result.map Datum.toExpr

namespace Machine

theorem readings_ends (rs : List Reading) (m : Machine) : readings rs m ≠ .exhausted := by
  induction rs generalizing m with
  | nil =>
    intro h
    cases h
  | cons r rs ih =>
    intro h
    obtain ⟨e | d, offset⟩ := r
    · cases h
    · obtain h | ⟨e, m', -, h⟩ := Run.exhausted_of_bind h
      · cases h
      · obtain h | ⟨es, m'', -, h⟩ := Run.exhausted_of_bind h
        · exact ih m' h
        · cases h

theorem evaluateReadings_cons (depth : Nat) (d : Datum) (offset : Nat) (rs : List Reading) :
    evaluateReadings depth (⟨.ok d, offset⟩ :: rs) =
      ((realize d >>= evaluate depth) >>= fun v => do pure (v :: (← evaluateReadings depth rs))) := by
  rw [evaluateReadings, Run.bind_assoc]

def supplied (make : StateM Supply Expr) : Run Error Machine Expr := fun m =>
  let (e, supply) := make ⟨m.session.symbols, m.world.next⟩
  .value e ⟨{ m.session with symbols := supply.symbols }, { m.world with next := supply.next }⟩

def perform (act : Expr → Run Error Machine Expr) :
    List (Except ReadError (StateM Supply Expr)) → Run Error Machine (List Expr)
  | [] => pure []
  | .error e :: _ => Run.throw (.read e)
  | .ok make :: rest => (supplied make >>= act) >>= fun v => do pure (v :: (← perform act rest))

theorem readings_eq_perform (rs : List Reading) : readings rs = perform pure (rs.map Reading.meaning) := by
  induction rs with
  | nil => rfl
  | cons r rs ih =>
    obtain ⟨e | d, offset⟩ := r
    · rfl
    · rw [readings, ih]
      rfl

theorem evaluateReadings_eq_perform (depth : Nat) (rs : List Reading) :
    evaluateReadings depth rs = perform (evaluate depth) (rs.map Reading.meaning) := by
  induction rs with
  | nil => rfl
  | cons r rs ih =>
    obtain ⟨e | d, offset⟩ := r
    · rfl
    · rw [evaluateReadings_cons, ih]
      rfl

theorem perform_append (act : Expr → Run Error Machine Expr) (xs ys : List (Except ReadError (StateM Supply Expr))) :
    perform act (xs ++ ys) = (perform act xs >>= fun vs => do pure (vs ++ (← perform act ys))) := by
  induction xs with
  | nil => simp [perform]
  | cons x xs ih =>
    cases x with
    | error e => rfl
    | ok make => simp [perform, ih]

theorem evaluateReadings_exhausted {depth : Nat} {rs : List Reading} {m : Machine}
    (h : evaluateReadings depth rs m = .exhausted) :
    ∃ before d offset after vs m', rs = before ++ ⟨.ok d, offset⟩ :: after ∧
      evaluateReadings depth before m = .value vs m' ∧ (realize d >>= evaluate depth) m' = .exhausted := by
  induction rs generalizing m with
  | nil => cases h
  | cons r rs ih =>
    obtain ⟨e | d, offset⟩ := r
    · cases h
    · rw [evaluateReadings_cons] at h
      obtain h | ⟨v, m', hv, h⟩ := Run.exhausted_of_bind h
      · exact ⟨[], d, offset, rs, [], m, rfl, rfl, h⟩
      · obtain h | ⟨vs, m'', -, h⟩ := Run.exhausted_of_bind h
        · obtain ⟨before, d', offset', after, vs, m'', rfl, hbefore, hd⟩ := ih h
          refine ⟨⟨.ok d, offset⟩ :: before, d', offset', after, v :: vs, m'', rfl, ?_, hd⟩
          rw [evaluateReadings_cons, Run.bind_value hv, Run.bind_value hbefore]
          rfl
        · cases h

end Machine

namespace Repl

theorem write_ends (text : String) (r : Repl) : write text r ≠ .exhausted := by
  intro h
  rw [write] at h
  split at h
  · cases h
  · cases h

theorem within_exhausted {α : Type} {x : Run InputOutputError Machine α} {r : Repl}
    (h : within x r = .exhausted) : x r.machine = .exhausted := by
  rw [within, Run.zoom] at h
  split at h
  · cases h
  · cases h
  · assumption

theorem report_exhausted {depth : Nat} {e : Expr} {r : Repl} (h : report depth e r = .exhausted) :
    Machine.evaluate depth e r.machine = .exhausted := by
  obtain h | ⟨a, r', -, h⟩ := Run.exhausted_of_bind h
  · have ha := within_exhausted h
    rw [Run.attempt] at ha
    split at ha
    · cases ha
    · cases ha
    · assumption
  · exfalso
    obtain e' | v := a
    · exact write_ends _ _ h
    · dsimp only at h
      split at h
      · cases h
      · exact write_ends _ _ h

theorem settle_exhausted {depth size done : Nat} {rs : List Reading} {r : Repl}
    (h : settle depth size done rs r = .exhausted) :
    ∃ before d offset after k r', rs = before ++ ⟨.ok d, offset⟩ :: after ∧
      settle depth size done before r = .value k r' ∧
      (Machine.realize d >>= Machine.evaluate depth) r'.machine = .exhausted := by
  induction rs generalizing done r with
  | nil => cases h
  | cons x rs ih =>
    obtain ⟨e | d, offset⟩ := x
    · rw [settle] at h
      cases he : e.isIncomplete with
      | true =>
        rw [he] at h
        cases h
      | false =>
        rw [he] at h
        obtain h | ⟨u, r', hw, h⟩ := Run.exhausted_of_bind h
        · exact absurd h (write_ends _ _)
        · obtain ⟨before, d, offset', after, k, r'', rfl, hbefore, hd⟩ := ih h
          refine ⟨⟨.error e, offset⟩ :: before, d, offset', after, k, r'', rfl, ?_, hd⟩
          rw [settle, he]
          exact (Run.bind_value hw _).trans hbefore
    · obtain h | ⟨e, r', hr, h⟩ := Run.exhausted_of_bind h
      · cases h
      · obtain h | ⟨u, r'', hp, h⟩ := Run.exhausted_of_bind h
        · refine ⟨[], d, offset, rs, size, r, rfl, rfl, ?_⟩
          have he := report_exhausted h
          cases hr
          exact he
        · obtain ⟨before, d', offset', after, k, r₁, rfl, hbefore, hd⟩ := ih h
          refine ⟨⟨.ok d, offset⟩ :: before, d', offset', after, k, r₁, rfl, ?_, hd⟩
          rw [settle, Run.bind_value hr, Run.bind_value hp]
          exact hbefore

end Repl

namespace Reading

theorem settled_cases (size done : Nat) (rs : List Reading) :
    settled size done rs = size ∨ settled size done rs = done ∨ ∃ r ∈ rs, settled size done rs = r.offset := by
  induction rs generalizing done with
  | nil => exact .inl rfl
  | cons r rs ih =>
    rw [settled]
    cases r.isIncomplete with
    | true => exact .inr (.inl rfl)
    | false =>
      rcases ih r.offset with h | h | ⟨x, hx, h⟩
      · exact .inl h
      · exact .inr (.inr ⟨r, List.mem_cons_self, h⟩)
      · exact .inr (.inr ⟨x, List.mem_cons_of_mem r hx, h⟩)

end Reading

end Lisp
