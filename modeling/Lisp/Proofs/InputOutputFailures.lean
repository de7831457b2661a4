import Lisp.Proofs.Narration
import Lisp.Proofs.Prompts

namespace Lisp.Repl

open Reading (isUnfinished unfinished?)
open Text (charLines)

inductive Steps (depth : Nat) : Machine → List (Except ReadError Datum) → List (Option String) → Machine → Prop
  | nil (m : Machine) : Steps depth m [] [] m
  | cons {m m₁ m₂ : Machine} {x : Except ReadError Datum} {xs : List (Except ReadError Datum)}
      {line : Option String} {lines : List (Option String)} :
      Step depth m x line m₁ → Steps depth m₁ xs lines m₂ → Steps depth m (x :: xs) (line :: lines) m₂

variable {depth : Nat} {m m₁ m' : Machine} {x : Except ReadError Datum} {xs : List (Except ReadError Datum)}
  {line : Option String} {lines : List (Option String)}

section Narrate

theorem say_buffer (line : Option String) (m : Machine) (t p : String) :
    say line ⟨m, .own (.buffer t), p⟩ = .value () ⟨m, .own (.buffer (t ++ line.getD "")), p⟩ :=
  adds_say line ⟨m, .own (.buffer t), p⟩ t

theorem steps_of_ends (hxs : ∀ y ∈ xs.dropLast, isUnfinished y = false) {t p : String}
    (hends : narrate depth xs ⟨m, .own (.buffer t), p⟩ ≠ .exhausted) : ∃ lines m', Steps depth m xs lines m' := by
  induction xs generalizing m t with
  | nil => exact ⟨[], m, .nil m⟩
  | cons x xs ih =>
    rcases stuck_or_step depth x m with hstuck | ⟨line, m₁, hstep⟩
    · exact absurd (hstuck.narrate (r := ⟨m, .own (.buffer t), p⟩) xs) hends
    · rw [narrate_step (r := ⟨m, .own (.buffer t), p⟩) hstep (finished_head hxs),
        Run.bind_value (say_buffer line m₁ t p)] at hends
      obtain ⟨lines, m', hsteps⟩ := ih (finished_tail hxs) hends
      exact ⟨line :: lines, m', .cons hstep hsteps⟩

theorem Steps.narrate_buffer (h : Steps depth m xs lines m') (hxs : ∀ y ∈ xs.dropLast, isUnfinished y = false)
    (t p : String) :
    narrate depth xs ⟨m, .own (.buffer t), p⟩ =
      .value () ⟨m', .own (.buffer (t ++ String.join (lines.filterMap id))), p⟩ := by
  induction h generalizing t with
  | nil m =>
    rw [List.filterMap_nil, String.join_nil, String.append_empty]
    rfl
  | @cons m m₁ m₂ x xs line lines hstep _ ih =>
    rw [narrate_step hstep (finished_head hxs), Run.bind_value (say_buffer line m₁ t p), ih (finished_tail hxs)]
    cases line <;> simp [String.append_assoc]

theorem Steps.narrate_closed (h : Steps depth m xs lines m') (hxs : ∀ y ∈ xs.dropLast, isUnfinished y = false)
    (p : String) :
    ((∀ line ∈ lines, line = none) ∧ narrate depth xs ⟨m, .own .closed, p⟩ = .value () ⟨m', .own .closed, p⟩) ∨
      ∃ before x after line rest m₁ m₂, xs = before ++ x :: after ∧
        lines = before.map (fun _ => none) ++ some line :: rest ∧
        Steps depth m before (before.map (fun _ => none)) m₁ ∧ Step depth m₁ x (some line) m₂ ∧
        narrate depth xs ⟨m, .own .closed, p⟩ = .error .brokenPipe ⟨m₂, .own .closed, p⟩ := by
  induction h with
  | nil m => exact .inl ⟨by simp, rfl⟩
  | @cons m m₁ m₂ x xs line lines hstep _ ih =>
    rw [narrate_step hstep (finished_head hxs)]
    cases line with
    | some line => exact .inr ⟨[], x, xs, line, lines, m, m₁, rfl, rfl, .nil m, hstep, rfl⟩
    | none =>
      rcases ih (finished_tail hxs) with ⟨hnone, hrun⟩ | ⟨before, x', after, line, rest, m₃, m₄, rfl, rfl, hb, hs, hrun⟩
      · exact .inl ⟨by simpa using hnone, hrun⟩
      · exact .inr ⟨x :: before, x', after, line, rest, m₃, m₄, rfl, rfl, .cons hstep hb, hs, hrun⟩

end Narrate

section Quiet

variable {source : String}

theorem steps_of_run {t : String}
    (hends : run depth .quiet (Text.encode source) (start m (.own (.buffer t))) ≠ .exhausted) :
    ∃ lines m', Steps depth m ((Reading.ofString source).map Reading.result) lines m' := by
  obtain ⟨p, -, hrun⟩ := run_quiet depth source m (.own (.buffer t))
  apply steps_of_ends (Reading.results_finished source) (t := t) (p := "")
  intro hx
  exact hends (hrun.trans (congrArg (Outcome.mapState (withPending p)) hx))

theorem Steps.run_buffer (h : Steps depth m ((Reading.ofString source).map Reading.result) lines m') (t : String) :
    ∃ p, run depth .quiet (Text.encode source) (start m (.own (.buffer t))) =
      .value () ⟨m', .own (.buffer (t ++ String.join (lines.filterMap id))), p⟩ := by
  obtain ⟨p, -, hrun⟩ := run_quiet depth source m (.own (.buffer t))
  have hsteps := h.narrate_buffer (Reading.results_finished source) t ""
  exact ⟨p, hrun.trans (congrArg (Outcome.mapState (withPending p)) hsteps)⟩

theorem Steps.run_closed (h : Steps depth m ((Reading.ofString source).map Reading.result) lines m') :
    ((∀ line ∈ lines, line = none) ∧
      ∃ p, run depth .quiet (Text.encode source) (start m (.own .closed)) = .value () ⟨m', .own .closed, p⟩) ∨
    ∃ before x after line rest m₁ m₂ p,
      (Reading.ofString source).map Reading.result = before ++ x :: after ∧
      lines = before.map (fun _ => none) ++ some line :: rest ∧
      Steps depth m before (before.map (fun _ => none)) m₁ ∧ Step depth m₁ x (some line) m₂ ∧
      run depth .quiet (Text.encode source) (start m (.own .closed)) = .error .brokenPipe ⟨m₂, .own .closed, p⟩ := by
  obtain ⟨p, -, hrun⟩ := run_quiet depth source m (.own .closed)
  rcases h.narrate_closed (Reading.results_finished source) "" with
    ⟨hnone, hsteps⟩ | ⟨before, x, after, line, rest, m₁, m₂, hxs, hlines, hbefore, hstep, hsteps⟩
  · exact .inl ⟨hnone, p, hrun.trans (congrArg (Outcome.mapState (withPending p)) hsteps)⟩
  · exact .inr ⟨before, x, after, line, rest, m₁, m₂, p, hxs, hlines, hbefore, hstep,
      hrun.trans (congrArg (Outcome.mapState (withPending p)) hsteps)⟩

end Quiet

theorem run_invalid {input : List UInt8} {s : String} {bad : List UInt8} {rest : List (List UInt8)}
    (hlines : Text.lines input = Text.lines (Text.encode s) ++ bad :: rest) (hbad : Text.decode? bad = none)
    (depth : Nat) (o : Options) :
    run depth o input = (welcome o >>= fun _ => proceed depth o (charLines s.toList)) >>= fun _ =>
      prompt o >>= fun _ => Run.throw .invalidText := by
  rw [run, hlines, List.map_append, Text.decode_lines_encode, loop_append, List.map_cons, hbad, bind_assoc]
  rfl

section Cut

variable {o : Options} {r : Repl} {t s : String}

theorem run_text (hr : r.pending = "") (hsink : r.sink = .buffer t)
    (hends : run depth o (Text.encode s) r ≠ .exhausted) : ∃ r', run depth o (Text.encode s) r = .value () r' := by
  have hbuffer : r.withSink (.buffer t) = r := by rw [← hsink, withSink_sink]
  rw [← hbuffer] at hends ⊢
  obtain ⟨outs, r', hfeeds⟩ := feeds_of_run depth o s r t hends
  exact ⟨_, hfeeds.run hr o t⟩

theorem run_cut {input bad : List UInt8} {rest : List (List UInt8)}
    (hlines : Text.lines input = Text.lines (Text.encode s) ++ bad :: rest) (hbad : Text.decode? bad = none)
    (hr : r.pending = "") (hsink : r.sink = .buffer t) (hends : run depth o input r ≠ .exhausted) :
    let ls := charLines s.toList
    ∃ r' outs, outs.length = ls.length ∧
      ((welcome o >>= fun _ => proceed depth o ls) >>= fun _ => prompt o) r = .value () r' ∧
      r'.sink = .buffer (t ++ written o (.banner :: exchanges [] ls outs ++ [.prompt (unfinished? s).isSome])) ∧
      run depth o (Text.encode s) r = finish o r' ∧
      (∀ o', run depth o' (Text.encode s) r =
        .value () (r'.withSink (.buffer (t ++ written o' (conversation ls outs))))) ∧
      run depth o input r = .error .invalidText r' := by
  intro ls
  have hbuffer : r.withSink (.buffer t) = r := by rw [← hsink, withSink_sink]
  have htext : String.ofList ls.flatten = s := by rw [Text.charLines_flatten, String.ofList_toList]
  rw [run_invalid hlines hbad] at hends ⊢
  obtain ⟨outs, r', hfeeds⟩ := (feeds_of_ends depth ls r).resolve_left (by
    intro hx
    apply hends
    rw [← hbuffer, bind_assoc, Run.bind_value (adds_welcome o r t), Run.bind_exhausted (hx o _)])
  obtain ⟨hopen, hleaves⟩ := hfeeds.opening (Text.charLines_broken _) hr o
  have hreach := hopen.bind (f := fun _ => prompt o) (adds_prompt_piece hleaves) t
  rw [hbuffer, htext, ← written_append] at hreach
  refine ⟨_, outs, hfeeds.length, hreach, sink_withSink _ _, ?_, ?_, ?_⟩
  · rw [run_encode, ← bind_assoc, ← bind_assoc, Run.bind_value hreach]
  · intro o'
    have hrun := hfeeds.run hr o' t
    rw [hbuffer] at hrun
    rw [hrun, withSink_withSink]
  · rw [← bind_assoc, Run.bind_value hreach]
    rfl

end Cut

/-- Input that is no text ends the loop at its first line that is none: the loop has then dealt with the lines
before and asked for one more, and it does not come to what it would write at the end of them. A quiet loop
that cannot write gets as far as the first reading about which it has to, and no further. -/
theorem failures_cut_session (depth : Nat) (input : List UInt8) (m : Machine) :
    (∀ o channel before, (start m channel).sink = .buffer before →
      run depth o input (start m channel) ≠ .exhausted →
      ((∃ r, run depth o input (start m channel) = .error .invalidText r) ↔ Text.decode? input = none) ∧
      (Text.decode? input ≠ none → ∃ r, run depth o input (start m channel) = .value () r) ∧
      (Text.decode? input = none → ∃ s bad rest r outs,
        Text.lines input = Text.lines (Text.encode s) ++ bad :: rest ∧ Text.decode? bad = none ∧
        outs.length = (charLines s.toList).length ∧
        ((welcome o >>= fun _ => proceed depth o (charLines s.toList)) >>= fun _ => prompt o) (start m channel) =
          .value () r ∧
        r.sink = .buffer (before ++ written o
          (.banner :: exchanges [] (charLines s.toList) outs ++ [.prompt (unfinished? s).isSome])) ∧
        run depth o (Text.encode s) (start m channel) = finish o r ∧
        (∀ o', run depth o' (Text.encode s) (start m channel) =
          .value () (r.withSink (.buffer (before ++ written o' (conversation (charLines s.toList) outs))))) ∧
        run depth o input (start m channel) = .error .invalidText r)) ∧
    ∀ source t, input = Text.encode source → run depth .quiet input (start m (.own (.buffer t))) ≠ .exhausted →
      ∃ lines m', Steps depth m ((Reading.ofString source).map Reading.result) lines m' ∧
        (∃ p, run depth .quiet input (start m (.own (.buffer t))) =
          .value () ⟨m', .own (.buffer (t ++ String.join (lines.filterMap id))), p⟩) ∧
        ((∃ r, run depth .quiet input (start m (.own .closed)) = .value () r) ↔ ∀ line ∈ lines, line = none) ∧
        ((∃ p, run depth .quiet input (start m (.own .closed)) = .value () ⟨m', .own .closed, p⟩) ∨
          ∃ before x after line rest m₁ m₂ p,
            (Reading.ofString source).map Reading.result = before ++ x :: after ∧
            lines = before.map (fun _ => none) ++ some line :: rest ∧
            Steps depth m before (before.map (fun _ => none)) m₁ ∧ Step depth m₁ x (some line) m₂ ∧
            run depth .quiet input (start m (.own .closed)) = .error .brokenPipe ⟨m₂, .own .closed, p⟩) := by
  constructor
  · intro o channel before hsink hends
    rcases Text.decode?_cases input with ⟨s, rfl⟩ | ⟨hnone, s, bad, rest, hlines, hbad⟩
    · have hsome : Text.decode? (Text.encode s) = some s := Text.decode?_eq_some_iff.mpr rfl
      obtain ⟨r, hrun⟩ := run_text rfl hsink hends
      rw [hsome, hrun]
      exact ⟨⟨nofun, nofun⟩, fun _ => ⟨r, rfl⟩, nofun⟩
    · obtain ⟨r, outs, hlength, hreach, htext, hfinish, hwhole, hrun⟩ := run_cut hlines hbad rfl hsink hends
      exact ⟨⟨fun _ => hnone, fun _ => ⟨r, hrun⟩⟩, fun hsome => absurd hnone hsome,
        fun _ => ⟨s, bad, rest, r, outs, hlines, hbad, hlength, hreach, htext, hfinish, hwhole, hrun⟩⟩
  · rintro source t rfl hends
    obtain ⟨lines, m', hsteps⟩ := steps_of_run hends
    refine ⟨lines, m', hsteps, hsteps.run_buffer t, ?_⟩
    rcases hsteps.run_closed with
      ⟨hnone, p, hrun⟩ | ⟨before, x, after, line, rest, m₁, m₂, p, hxs, hlines, hbefore, hstep, hrun⟩
    · exact ⟨⟨fun _ => hnone, fun _ => ⟨_, hrun⟩⟩, .inl ⟨p, hrun⟩⟩
    · refine ⟨⟨?_, ?_⟩, .inr ⟨before, x, after, line, rest, m₁, m₂, p, hxs, hlines, hbefore, hstep, hrun⟩⟩
      · rw [hrun]
        nofun
      · intro hnone
        have hline := hnone (some line) (by simp [hlines])
        cases hline

theorem failures_cut_session_print :
    let m := Machine.start (.buffer "$ ")
    let broken := Text.encode "5\n(\n" ++ [255, 10, 41]
    let source := "(print 1)\n2\n3"
    (run 3 .interactive broken (start m .shared) ≠ .exhausted ∧ Text.decode? broken = none ∧
      ∃ s bad rest r outs, Text.lines broken = Text.lines (Text.encode s) ++ bad :: rest ∧
        Text.decode? bad = none ∧
        r.sink = .buffer ("$ " ++ written .interactive
          (.banner :: exchanges [] (charLines s.toList) outs ++ [.prompt (unfinished? s).isSome])) ∧
        r.sink.text = "$ tinylisp\nType expressions to evaluate them, Ctrl+D to exit.\n> => 5\n> ... " ∧
        run 3 .interactive (Text.encode s) (start m .shared) = finish .interactive r ∧
        run 3 .interactive broken (start m .shared) = .error .invalidText r) ∧
    run 3 .quiet (Text.encode source) (start m (.own (.buffer ""))) ≠ .exhausted ∧
      ∃ lines m', Steps 3 m ((Reading.ofString source).map Reading.result) lines m' ∧
        (∃ r, run 3 .quiet (Text.encode source) (start m (.own .closed)) = .error .brokenPipe r) ∧
        ¬ ∀ line ∈ lines, line = none := by
  intro m broken source
  constructor
  · have hends : run 3 .interactive broken (start m .shared) ≠ .exhausted :=
      Outcome.ne_exhausted (f := some .invalidText) (by decide +kernel)
    have hnone : Text.decode? broken = none := by decide +kernel
    have hending : ∃ q ∈ (run 3 .interactive broken (start m .shared)).ending?, q.2.sink.text =
        "$ tinylisp\nType expressions to evaluate them, Ctrl+D to exit.\n> => 5\n> ... " := by decide +kernel
    obtain ⟨-, -, hcut⟩ := (failures_cut_session 3 broken m).1 .interactive .shared "$ " rfl hends
    obtain ⟨s, bad, rest, r, outs, hlines, hbad, -, -, hsink, hfinish, -, hrun⟩ := hcut hnone
    obtain ⟨q, hq, htext⟩ := hending
    rw [hrun] at hq
    cases hq
    exact ⟨hends, hnone, s, bad, rest, r, outs, hlines, hbad, hsink, htext, hfinish, hrun⟩
  · have hends : run 3 .quiet (Text.encode source) (start m (.own (.buffer ""))) ≠ .exhausted :=
      Outcome.ne_exhausted (f := none) (by decide +kernel)
    obtain ⟨r, hr⟩ : ∃ r, run 3 .quiet (Text.encode source) (start m (.own .closed)) = .error .brokenPipe r :=
      Outcome.failure?_eq_some (by decide +kernel)
    obtain ⟨lines, m', hsteps, -, hiff, -⟩ :=
      (failures_cut_session 3 (Text.encode source) m).2 source "" rfl hends
    refine ⟨hends, lines, m', hsteps, ⟨r, hr⟩, ?_⟩
    intro hnone
    obtain ⟨r', hr'⟩ := hiff.mpr hnone
    rw [hr] at hr'
    cases hr'

end Lisp.Repl
