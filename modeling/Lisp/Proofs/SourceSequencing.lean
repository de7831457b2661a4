import Lisp.Proofs.Completions
import Lisp.Proofs.EvaluationErrors
import Lisp.Proofs.ReadingLoops
import Lisp.Proofs.ScopeStructure

namespace Lisp

theorem Lexeme.scan_newline_tokens (source : String) :
    (scan (source ++ "\n")).map token = (scan source).map token := by
  have hlast (m : Mode) (k : Nat) : (scanFrom m k ['\n']).map token = (m.finish k).map token := by
    cases hm : m.isString with
    | false => simp [scanFrom_newline hm, Mode.finish]
    | true =>
      cases m with
      | string start text => rfl
      | escape start text => rfl
      | _ => cases hm
  rw [scan, scan, String.toList_append, show "\n".toList = ['\n'] from rfl, scanFrom_append, List.map_append, hlast,
    ← List.map_append, ← scanFrom_eq_consume]

namespace Reading

theorem ofString_newline (source : String) : (ofString (source ++ "\n")).map result = (ofString source).map result :=
  all_result_congr (Lexeme.scan_newline_tokens source)

theorem map_meaning (rs : List Reading) : rs.map meaning = (rs.map result).map (Except.map Datum.toExpr) := by
  rw [List.map_map]
  rfl

theorem complete_cases (rs : List Reading) :
    complete rs = rs ∨ ∃ r rest, rs = complete rs ++ r :: rest ∧ r.isIncomplete = true := by
  induction rs with
  | nil => exact .inl rfl
  | cons r rs ih =>
    rw [complete_cons]
    cases hr : r.isIncomplete with
    | true => exact .inr ⟨r, rs, rfl, hr⟩
    | false =>
      obtain h | ⟨r', rest, h, hr'⟩ := ih
      · exact .inl (by simp [h])
      · exact .inr ⟨r', rest, by simpa using h, hr'⟩

theorem settled_of_complete {rs : List Reading} (h : complete rs = rs) (size done : Nat) :
    settled size done rs = size := by
  induction rs generalizing done with
  | nil => rfl
  | cons r rs ih =>
    rw [complete_cons] at h
    cases hr : r.isIncomplete with
    | true => simp [hr] at h
    | false =>
      rw [settled, hr]
      exact ih (by simpa [hr] using h) r.offset

theorem ofString_append {text : String} (hl : Text.Lined text.toList) (more : String) :
    ∃ xs, (ofString (text ++ more)).map result = (complete (ofString text)).map result ++ xs ∧
      (complete (ofString text) = ofString text → xs = (ofString more).map result) := by
  have h := (@ofString_resume text more.toList (.inl hl)).1
  rw [← String.toList_append, String.ofList_toList] at h
  refine ⟨_, h, ?_⟩
  intro hc
  rw [settled_of_complete hc, Text.utf8ByteSize_eq, Text.dropBytes_byteSize, List.nil_append, String.ofList_toList]

end Reading

namespace Machine

open Reading (complete complete_cases map_meaning)

theorem evaluateAll_newline (depth : Nat) (source : String) :
    evaluateAll depth (source ++ "\n") = evaluateAll depth source := by
  rw [evaluateAll, evaluateAll, evaluateReadings_eq_perform, evaluateReadings_eq_perform, map_meaning,
    Reading.ofString_newline, ← map_meaning]

theorem evaluateReadings_error {r : Reading} {e : ReadError} (hr : r.result = .error e) (depth : Nat)
    (before rest : List Reading) :
    evaluateReadings depth (before ++ r :: rest) = (evaluateReadings depth before >>= fun _ => Run.throw (.read e)) := by
  have hm : r.meaning = .error e := by rw [Reading.meaning, hr]; rfl
  rw [evaluateReadings_eq_perform, List.map_append, perform_append, ← evaluateReadings_eq_perform, List.map_cons, hm]
  rfl

theorem evaluateAll_append {text : String} (hl : Text.Lined text.toList) (depth : Nat) (more : String) (m : Machine) :
    (∀ vs m', evaluateAll depth text m = .value vs m' →
      evaluateAll depth (text ++ more) m = (do pure (vs ++ (← evaluateAll depth more))) m') ∧
    ∀ e m', evaluateAll depth text m = .error e m' → e.Final → evaluateAll depth (text ++ more) m = .error e m' := by
  obtain ⟨xs, hxs, hall⟩ := Reading.ofString_append hl more
  have happend : evaluateAll depth (text ++ more) =
      (evaluateReadings depth (complete (Reading.ofString text)) >>= fun vs => do
        pure (vs ++ (← perform (evaluate depth) (xs.map (Except.map Datum.toExpr))))) := by
    rw [evaluateAll, evaluateReadings_eq_perform, map_meaning, hxs, List.map_append, perform_append, ← map_meaning,
      ← evaluateReadings_eq_perform]
  -- either all of `text` is read before `more`, or it ends in a reading that more text could complete
  obtain hc | ⟨r, rest, hr, hinc⟩ := complete_cases (Reading.ofString text)
  · have hmore : evaluateAll depth more = perform (evaluate depth) (xs.map (Except.map Datum.toExpr)) := by
      rw [evaluateAll, evaluateReadings_eq_perform, map_meaning, hall hc]
    rw [happend, ← hmore, hc]
    constructor
    · intro vs m' h
      exact Run.bind_value h _
    · intro e m' h _
      exact Run.bind_error h _
  · obtain ⟨e, he, hre⟩ := Reading.isIncomplete_iff.mp hinc
    have hsplit := (congrArg (evaluateReadings depth) hr).trans (evaluateReadings_error hre depth _ rest)
    rw [happend]
    constructor
    · intro vs m' h
      rw [evaluateAll, hsplit, Run.bind_apply] at h
      split at h <;> cases h
    · intro err m' h hfinal
      rw [evaluateAll, hsplit, Run.bind_apply] at h
      split at h
      · -- only the incomplete reading is left to fail
        cases h
        simp [Error.Final, Error.isIncomplete, he] at hfinal
      · rename_i hbefore
        cases h
        exact Run.bind_error hbefore _
      · cases h

theorem evaluateReadings_fails {depth : Nat} {rs : List Reading} {m m' : Machine} {e : Error}
    (h : evaluateReadings depth rs m = .error e m') :
    ∃ before r after vs m₁, rs = before ++ r :: after ∧ evaluateReadings depth before m = .value vs m₁ ∧
      ((∃ err, r.result = .error err ∧ e = .read err ∧ m' = m₁) ∨
        ∃ d, r.result = .ok d ∧ (realize d >>= evaluate depth) m₁ = .error e m') := by
  induction rs generalizing m with
  | nil => cases h
  | cons r rs ih =>
    obtain ⟨err | d, offset⟩ := r
    · cases h
      exact ⟨[], _, rs, [], m', rfl, rfl, .inl ⟨err, rfl, rfl, rfl⟩⟩
    · rw [evaluateReadings_cons, Run.bind_apply] at h
      split at h
      · rename_i v m₁ hv
        rw [Run.bind_apply] at h
        split at h
        · cases h
        · rename_i e' m₂ hrest
          cases h
          obtain ⟨before, r, after, vs, m₂, rfl, hbefore, hr⟩ := ih hrest
          refine ⟨⟨.ok d, offset⟩ :: before, r, after, v :: vs, m₂, rfl, ?_, hr⟩
          rw [evaluateReadings_cons, Run.bind_value hv, Run.bind_value hbefore]
          rfl
        · cases h
      · rename_i hv
        cases h
        exact ⟨[], _, rs, [], m, rfl, rfl, .inr ⟨d, rfl, hv⟩⟩
      · cases h

theorem evaluate_error_grows {depth : Nat} {x : Expr} {m m' : Machine} {e : Error}
    (h : evaluate depth x m = .error e m') : m.world.scopes.Grows m'.world.scopes := by
  have hend : (evaluateIn depth m.session.global x m).ending? = some (.error e, m') := by
    change (evaluate depth x m).ending? = _
    rw [h]
    rfl
  exact eval_grows (evaluateIn_ending_eq_some.mp hend).1

theorem within_final {α : Type} {act : Session → Run Error World α} (h : ∀ session, (act session).Fails Error.Final) :
    (within act).Fails Error.Final := by
  intro m e m' he
  rw [within, Run.zoom] at he
  split at he
  · cases he
  · rename_i hw
    cases he
    exact h _ _ _ _ hw
  · cases he

theorem evaluateIn_final (depth : Nat) (scope : ScopeId) (x : Expr) : (evaluateIn depth scope x).Fails Error.Final :=
  within_final fun session => eval_final session depth scope x

theorem apply_final (depth : Nat) (f : Expr) (vs : List Expr) : (apply depth f vs).Fails Error.Final :=
  within_final fun session => Eval.apply_final (eval_final session depth) session f vs

/-- Evaluating two texts with a newline between them is evaluating the one and then the other, unless
the first fails; and it fails alike if no more text could have mended the failure. Evaluation itself
only fails in that way. Whatever was defined before a failure stays defined. -/
theorem evaluateAll_sequence (depth : Nat) (s₁ s₂ : String) (m : Machine) :
    (∀ vs m₁, evaluateAll depth s₁ m = .value vs m₁ →
      evaluateAll depth (s₁ ++ "\n" ++ s₂) m = (do pure (vs ++ (← evaluateAll depth s₂))) m₁) ∧
    (∀ e m₁, evaluateAll depth s₁ m = .error e m₁ → e.isIncomplete = false →
      evaluateAll depth (s₁ ++ "\n" ++ s₂) m = .error e m₁) ∧
    (∀ scope x e m₁, evaluateIn depth scope x m = .error e m₁ → e.isIncomplete = false) ∧
    (∀ f vs e m₁, apply depth f vs m = .error e m₁ → e.isIncomplete = false) ∧
    ∀ e m₁, evaluateAll depth s₁ m = .error e m₁ →
      ∃ before r after vs m₀, Reading.ofString s₁ = before ++ r :: after ∧
        evaluateReadings depth before m = .value vs m₀ ∧
        ((∃ err, r.result = .error err ∧ e = .read err ∧ m₁ = m₀) ∨
          ∃ d, r.result = .ok d ∧ (realize d >>= evaluate depth) m₀ = .error e m₁) ∧
        m₀.world.scopes.Grows m₁.world.scopes := by
  have hlined : Text.Lined (s₁ ++ "\n").toList := by simp [Text.Lined]
  obtain ⟨hvalue, herror⟩ := evaluateAll_append hlined depth s₂ m
  rw [evaluateAll_newline] at hvalue herror
  refine ⟨hvalue, herror, fun scope x => evaluateIn_final depth scope x m,
    fun f vs => apply_final depth f vs m, ?_⟩
  intro e m₁ h
  obtain ⟨before, r, after, vs, m₀, hsplit, hbefore, hr⟩ := evaluateReadings_fails h
  refine ⟨before, r, after, vs, m₀, hsplit, hbefore, hr, ?_⟩
  obtain ⟨err, -, -, rfl⟩ | ⟨d, -, hd⟩ := hr
  · exact .refl _
  · let p := d.toExpr ⟨m₀.session.symbols, m₀.world.next⟩
    have he : evaluate depth p.1 ⟨{ m₀.session with symbols := p.2.symbols }, { m₀.world with next := p.2.next }⟩ =
        .error e m₁ := hd
    have hgrows := evaluate_error_grows he
    exact hgrows

end Machine

def Outcome.failure? {ε σ α : Type} : Outcome ε σ α → Option (Option ε)
  | value _ _ => some none
  | error e _ => some (some e)
  | exhausted => none

theorem Outcome.failure?_eq_none {ε σ α : Type} {o : Outcome ε σ α} (h : o.failure? = some none) :
    ∃ a s, o = .value a s := by
  cases o with
  | value a s => exact ⟨a, s, rfl⟩
  | error e s => cases h
  | exhausted => cases h

theorem Outcome.ne_exhausted {ε σ α : Type} {o : Outcome ε σ α} {f : Option ε} (h : o.failure? = some f) :
    o ≠ .exhausted := by
  rintro rfl
  cases h

theorem Outcome.failure?_eq_some {ε σ α : Type} {o : Outcome ε σ α} {e : ε} (h : o.failure? = some (some e)) :
    ∃ s, o = .error e s := by
  cases o with
  | value a s => cases h
  | error e' s =>
    cases h
    exact ⟨s, rfl⟩
  | exhausted => cases h

namespace Machine

theorem evaluateAll_sequence_car :
    ∃ vs m₁ m₂, evaluateAll 2 "(set x 1);c" (.start .closed) = .value vs m₁ ∧
      evaluateAll 2 ("(set x 1);c" ++ "\n" ++ "(car x) y") (.start .closed) =
        (do pure (vs ++ (← evaluateAll 2 "(car x) y"))) m₁ ∧
      evaluateAll 2 "(set x 1) (car x)" (.start .closed) = .error (.noParts "CAR" "1") m₂ ∧
      evaluateAll 2 ("(set x 1) (car x)" ++ "\n" ++ ")") (.start .closed) = .error (.noParts "CAR" "1") m₂ := by
  have hends : (evaluateAll 2 "(set x 1);c" (.start .closed)).failure? = some none := by decide +kernel
  have hfails : (evaluateAll 2 "(set x 1) (car x)" (.start .closed)).failure? =
      some (some (.noParts "CAR" "1")) := by decide +kernel
  obtain ⟨vs, m₁, hvalue⟩ := Outcome.failure?_eq_none hends
  obtain ⟨m₂, herror⟩ := Outcome.failure?_eq_some hfails
  have hseq := evaluateAll_sequence 2 "(set x 1);c" "(car x) y" (.start .closed)
  have hstop := evaluateAll_sequence 2 "(set x 1) (car x)" ")" (.start .closed)
  exact ⟨vs, m₁, m₂, hvalue, hseq.1 vs m₁ hvalue, herror, hstop.2.1 _ _ herror rfl⟩

end Machine

end Lisp
