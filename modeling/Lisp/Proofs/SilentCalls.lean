import Lisp.Proofs.LoopSteps
import Lisp.Proofs.SourceRuns

namespace Lisp

namespace Task

variable {session : Session} {t t' : Task} {s s₁ s' : Store} {ps : List (List Expr)} {r : Except Error Expr}

theorem Performs.of_done {r' : Except Error Expr} (h : t.Performs session s ps r s')
    (hm : t.move session s = .done r' s₁) : ps = [] ∧ r = r' ∧ s' = s₁ := by
  cases h with
  | done h =>
    rw [hm] at h
    cases h
    exact ⟨rfl, rfl, rfl⟩
  | print h | become h | fail h | next h =>
    rw [hm] at h
    cases h

theorem Performs.of_print {vs : List Expr} (h : t.Performs session s ps r s') (hm : t.move session s = .print vs) :
    ps = [vs] := by
  cases h with
  | print h =>
    rw [hm] at h
    cases h
    rfl
  | done h | become h | fail h | next h =>
    rw [hm] at h
    cases h

theorem Performs.of_become (h : t.Performs session s ps r s') (hm : t.move session s = .become t' s₁) :
    t'.Performs session s₁ ps r s' := by
  cases h with
  | become h ht =>
    rw [hm] at h
    cases h
    exact ht
  | done h | print h | fail h | next h =>
    rw [hm] at h
    cases h

theorem Performs.of_first {scope : ScopeId} {e v : Expr} {next : Expr → Task}
    (h : t.Performs session s ps (.ok v) s') (hm : t.move session s = .first scope e next) :
    ∃ u qs qs' s₁, ps = qs ++ qs' ∧ (Task.eval scope e).Performs session s qs (.ok u) s₁ ∧
      (next u).Performs session s₁ qs' (.ok v) s' := by
  cases h with
  | next h he hn =>
    rw [hm] at h
    cases h
    exact ⟨_, _, _, _, rfl, he, hn⟩
  | done h | print h | become h =>
    rw [hm] at h
    cases h

variable {scope : ScopeId} {v : Expr}

theorem Performs.of_arguments {f : Expr} {vs es : List Expr}
    (h : (Task.arguments scope f vs es).Performs session s ps (.ok v) s') :
    ∃ us qs qs' s₁, ps = qs ++ qs' ∧ (Task.apply f us).Performs session s₁ qs' (.ok v) s' := by
  induction es generalizing vs s ps with
  | nil => exact ⟨vs, [], ps, s, rfl, h.of_become rfl⟩
  | cons e es ih =>
    obtain ⟨u, qs, qs', s₁, rfl, -, hrest⟩ := h.of_first rfl
    obtain ⟨us, rs, rs', s₂, rfl, happly⟩ := ih hrest
    exact ⟨us, qs ++ rs, rs', s₂, (List.append_assoc _ _ _).symm, happly⟩

theorem Performs.of_call {i : Ident} {x : Symbol} {tail : Expr} (hx : session.keyword? x = none)
    (h : (Task.eval scope (.pair i (.symbol x) tail)).Performs session s ps (.ok v) s') :
    ∃ f us qs qs' s₁, s.scopes.probe scope x = some f ∧ ps = qs ++ qs' ∧
      (Task.apply f us).Performs session s₁ qs' (.ok v) s' := by
  have hcall : (Task.eval scope (.pair i (.symbol x) tail)).move session s =
      .first scope (.symbol x) (.operands scope tail) := by
    simp [move, Move.eval, Expr.symbol?, hx]
  obtain ⟨f, qs, qs', s₁, rfl, hhead, hrest⟩ := h.of_first hcall
  obtain ⟨rfl, hf, rfl⟩ := hhead.of_done rfl
  have hprobe : s₁.scopes.probe scope x = some f := by
    rw [Scopes.resolve] at hf
    split at hf
    · rename_i hprobe
      cases hf
      exact hprobe
    · cases hf
  have hmove : (Task.operands scope tail f).move session s₁ = Move.operands s₁ scope tail f := rfl
  rw [Move.operands] at hmove
  split at hmove
  · obtain ⟨us, rs, rs', s₂, rfl, happly⟩ := (hrest.of_become hmove).of_arguments
    exact ⟨f, us, rs, rs', s₂, hprobe, rfl, happly⟩
  · obtain ⟨-, hfail, -⟩ := hrest.of_done hmove
    cases hfail

end Task

theorem Run.value_of_attempt {ε δ σ α : Type} {x : Run ε σ α} {s s' : σ} {a : α}
    (h : x.attempt s = (.value (.ok a) s' : Outcome δ σ _)) : x s = .value a s' := by
  rw [attempt] at h
  split at h
  · rename_i hx
    cases h
    exact hx
  · cases h
  · cases h

theorem Primitive.lines_cases (ps : List (List Expr)) : ps = [] ∨ ∃ body, lines ps = body ++ "\n" := by
  rcases List.eq_nil_or_concat ps with rfl | ⟨qs, vs, rfl⟩
  · exact .inl rfl
  · refine .inr ⟨lines qs ++ String.join (vs.map (fun v => v.print ++ " ")), ?_⟩
    rw [List.concat_eq_append, lines_append, String.append_assoc]
    simp [lines, line]

theorem Primitive.lines_eq_empty_iff {ps : List (List Expr)} : lines ps = "" ↔ ps = [] := by
  rcases lines_cases ps with rfl | ⟨body, hbody⟩
  · simp [lines_nil]
  · rw [hbody]
    refine ⟨fun h => absurd h (by simp), ?_⟩
    rintro rfl
    exact hbody.symm

namespace Repl

open Machine (realize evaluate)

theorem reply_cases (e : Expr) (r : Except Error Expr) :
    (reply e r = none ∧ e.CallsPrint ∧ ∃ v, r = .ok v) ∨ ∃ body, reply e r = some (body ++ "\n") := by
  cases r with
  | error err => exact .inr ⟨_, rfl⟩
  | ok v =>
    rw [reply]
    split
    · exact .inl ⟨rfl, by assumption, v, rfl⟩
    · exact .inr ⟨_, rfl⟩

theorem added_cases (ps : List (List Expr)) (e : Expr) (r : Except Error Expr) :
    Primitive.lines ps ++ (reply e r).getD "" = "" ∨
      ∃ body, Primitive.lines ps ++ (reply e r).getD "" = body ++ "\n" := by
  rcases reply_cases e r with ⟨hnone, -, -⟩ | ⟨body, hsome⟩
  · rw [hnone, Option.getD_none, String.append_empty, Primitive.lines_eq_empty_iff]
    exact Primitive.lines_cases ps
  · rw [hsome, Option.getD_some, ← String.append_assoc]
    exact .inr ⟨_, rfl⟩

theorem added_eq_empty_iff {ps : List (List Expr)} {e : Expr} {r : Except Error Expr} :
    Primitive.lines ps ++ (reply e r).getD "" = "" ↔ ps = [] ∧ e.CallsPrint ∧ ∃ v, r = .ok v := by
  rw [String.append_eq_empty_iff, Primitive.lines_eq_empty_iff]
  refine and_congr_right fun _ => ?_
  rcases reply_cases e r with ⟨hnone, hcall⟩ | ⟨body, hsome⟩
  · rw [hnone]
    exact ⟨fun _ => hcall, fun _ => rfl⟩
  · rw [hsome]
    refine ⟨fun h => absurd h (by simp), ?_⟩
    rintro ⟨hcall, v, rfl⟩
    rw [reply, if_pos hcall] at hsome
    cases hsome

theorem rebound_of_silent {m : Machine} (hm : m.Owned) {i : Ident} {x : Symbol} {tail v : Expr} {s' : Store}
    (hx : m.session.symbols.Holds x) (hname : x.name = "PRINT")
    (h : (Task.eval m.session.global (.pair i (.symbol x) tail)).Performs m.session m.world.store [] (.ok v) s') :
    ∃ f, m.world.scopes.probe m.session.global x = some f ∧ f ≠ .symbol x := by
  have hkeyword : m.session.keyword? x = none := by
    rw [Option.eq_none_iff_forall_ne_some]
    intro k hk
    have hk' := (hx.keyword?_eq_some_iff hm.session.symbols k).mp hk
    rw [hname] at hk'
    cases k <;> exact absurd hk' (by decide)
  have hprint : m.session.primitive? x = some .print := by
    rw [hm.session.primitive? hx, hname]
    rfl
  obtain ⟨f, us, qs, qs', s₁, hprobe, hps, happly⟩ := h.of_call hkeyword
  refine ⟨f, hprobe, ?_⟩
  rintro rfl
  have hmove : (Task.apply (.symbol x) us).move m.session s₁ = .print us := by
    simp [Task.move, Move.apply, hprint]
  rw [happly.of_print hmove] at hps
  simp at hps

theorem report_shared {depth : Nat} {e : Expr} {m : Machine} {before : String}
    (hsink : m.world.sink = .buffer before) (hends : evaluate depth e m ≠ .exhausted) (p : String) :
    ∃ ps r s', (Task.eval m.session.global e).Performs m.session m.world.store ps r s' ∧
      (evaluate depth e).attempt m =
        (.value r ⟨m.session, s'.world (.buffer (before ++ Primitive.lines ps))⟩ : Outcome InputOutputError _ _) ∧
      report depth e ⟨m, .shared, p⟩ = .value ()
        ⟨⟨m.session, s'.world (.buffer (before ++ (Primitive.lines ps ++ (reply e r).getD "")))⟩, .shared, p⟩ := by
  have hm : m.withSink (.buffer before) = m := by
    rw [← hsink]
    rfl
  rcases Machine.evaluate_utters depth e m with hx | ⟨ps, r, s', hp, hu⟩
  · exact absurd (hx m.world.sink) hends
  · have hattempt := hu (.buffer before)
    rw [hm] at hattempt
    refine ⟨ps, r, s', hp, hattempt, ?_⟩
    have hsay := adds_say (reply e r) ⟨⟨m.session, s'.world .closed⟩, .shared, p⟩ (before ++ Primitive.lines ps)
    have hwithin : within (evaluate depth e).attempt ⟨m, .shared, p⟩ = .value r _ := within_value hattempt
    rw [report_eq, Run.bind_value hwithin, ← String.append_assoc]
    exact hsay

/-- A step of a loop adds whole lines to a sink that it shares with the session. It adds none exactly if it
evaluates a call by the name PRINT that succeeds without printing, which takes that PRINT has been bound to
something else. -/
theorem silent_only_if_rebound {sink : Sink} {m m₁ : Machine} {vs : List Expr} (h : Machine.Driven sink m vs)
    {d : Datum} {e : Expr} (hd : (realize d : Run Error Machine Expr) m = .value e m₁) {before : String}
    (hsink : m₁.world.sink = .buffer before) {depth : Nat} (hends : evaluate depth e m₁ ≠ .exhausted) (p : String) :
    ∃ added m₂, report depth e ⟨m₁, .shared, p⟩ = .value () ⟨m₂, .shared, p⟩ ∧
      m₂.world.sink = .buffer (before ++ added) ∧ (added = "" ∨ ∃ body, added = body ++ "\n") ∧
      (added = "" ↔ isPrintCall e = true ∧
        ∃ v m', evaluate depth e m₁ = .value v m' ∧ m'.world.sink = .buffer before) ∧
      (added = "" → ∃ i x tail f, e = .pair i (.symbol x) tail ∧ x.name = "PRINT" ∧
        m₁.world.scopes.probe m₁.session.global x = some f ∧ f ≠ .symbol x) := by
  obtain ⟨hon, howned⟩ := Machine.realize_owned h.owned.1 hd
  obtain ⟨ps, r, s', hp, hattempt, hreport⟩ := report_shared hsink hends p
  refine ⟨_, _, hreport, rfl, added_cases ps e r, ?_, ?_⟩
  · rw [added_eq_empty_iff, isPrintCall_iff]
    constructor
    · rintro ⟨rfl, hcall, v, rfl⟩
      refine ⟨hcall, v, _, Run.value_of_attempt hattempt, ?_⟩
      rw [Primitive.lines_nil, String.append_empty]
      rfl
    · rintro ⟨hcall, v, m', hv, hm'⟩
      rw [Run.attempt, hv] at hattempt
      cases hattempt
      have htext : before ++ Primitive.lines ps = before := Sink.buffer.inj hm'
      exact ⟨Primitive.lines_eq_empty_iff.mp (by simpa using htext), hcall, v, rfl⟩
  · rw [added_eq_empty_iff]
    rintro ⟨rfl, hcall, v, rfl⟩
    obtain ⟨i, x, tail, rfl, hname⟩ := hcall
    have hx := Expr.Owned.symbol.mp (Expr.Owned.pair.mp howned).1
    obtain ⟨f, hprobe, hf⟩ := rebound_of_silent hon.owned hx hname hp
    exact ⟨i, x, tail, f, rfl, hname, hprobe, hf⟩

theorem silent_only_if_rebound_empty :
    ∃ (e : Expr) (m₁ m₂ : Machine) (added : String), Machine.Driven (.buffer "") (.start (.buffer "")) [] ∧
      (realize (.pair (.literal "print") .nil) : Run Error Machine Expr) (.start (.buffer "")) = .value e m₁ ∧
      m₁.world.sink = .buffer "" ∧ evaluate 3 e m₁ ≠ .exhausted ∧
      report 3 e ⟨m₁, .shared, ""⟩ = .value () ⟨m₂, .shared, ""⟩ ∧ m₂.world.sink = .buffer ("" ++ added) ∧
      ∃ body, added = body ++ "\n" := by
  obtain ⟨e, m₁, hd⟩ : ∃ e m₁, (realize (.pair (.literal "print") .nil) : Run Error Machine Expr)
      (.start (.buffer "")) = .value e m₁ := ⟨_, _, rfl⟩
  have hsink : m₁.world.sink = .buffer "" := by
    cases hd
    rfl
  have hprinted : ∃ p ∈ (evaluate 3 e m₁).value?, p.2.world.sink.text = "\n" := by
    cases hd
    decide +kernel
  obtain ⟨⟨v, m'⟩, hv, htext⟩ := hprinted
  have hvalue : evaluate 3 e m₁ = .value v m' := Outcome.value?_eq_some_iff.mp hv
  have hends : evaluate 3 e m₁ ≠ .exhausted := by
    intro hx
    cases hvalue.symm.trans hx
  obtain ⟨added, m₂, hreport, hm₂, hcases, hiff, -⟩ := silent_only_if_rebound .start hd hsink hends ""
  refine ⟨e, m₁, m₂, added, .start, hd, hsink, hends, hreport, hm₂, hcases.resolve_left ?_⟩
  intro hnil
  obtain ⟨-, _, _, hvalue', hm'⟩ := hiff.mp hnil
  cases hvalue.symm.trans hvalue'
  rw [hm'] at htext
  exact absurd htext (by decide)

theorem rebound_print_silent :
    ∃ (m m₁ : Machine) (vs : List Expr) (e : Expr) (r : Repl), Machine.Driven (.buffer "") m vs ∧
      (realize (.pair (.literal "print") (.pair (.literal "1") .nil)) : Run Error Machine Expr) m = .value e m₁ ∧
      m₁.world.sink.text = "=> LIST\n" ∧ evaluate 3 e m₁ ≠ .exhausted ∧
      report 3 e ⟨m₁, .shared, ""⟩ = .value () r ∧ r.sink.text = "=> LIST\n" := by
  let input : Input := .lines .quiet .shared (Text.encode "(set print list)\n")
  let d : Datum := .pair (.literal "print") (.pair (.literal "1") .nil)
  have hrun : ∃ q ∈ input.run 3 (.start (.buffer "")),
      ∃ p ∈ ((realize d : Run Error Machine Expr) q.2).value?, p.2.world.sink.text = "=> LIST\n" ∧
        (evaluate 3 p.1 p.2).value?.isSome = true ∧
        ∃ r ∈ (report 3 p.1 ⟨p.2, .shared, ""⟩).value?, r.2.sink.text = "=> LIST\n" := by
    decide +kernel
  obtain ⟨⟨vs, m⟩, hq, ⟨e, m₁⟩, hd, hbefore, hvalue, ⟨⟨⟩, r⟩, hreport, hafter⟩ := hrun
  have hends : evaluate 3 e m₁ ≠ .exhausted := by
    intro hx
    rw [hx] at hvalue
    cases hvalue
  exact ⟨m, m₁, _, e, r, .input .start 3 input hq, Outcome.value?_eq_some_iff.mp hd, hbefore, hends,
    Outcome.value?_eq_some_iff.mp hreport, hafter⟩

end Repl

end Lisp
