import Lisp.Proofs.LoopSteps

namespace Lisp.Repl

open Machine (realize evaluateIn)
open Reading (isUnfinished)

/-- What a session makes of a reading, and the line that is due then. An expression is evaluated once and in
the global scope. There is no line only for a call of PRINT that succeeds. -/
inductive Step (depth : Nat) (m : Machine) : Except ReadError Datum → Option String → Machine → Prop
  | printed {d : Datum} {e v : Expr} {m₁ m₂ : Machine} :
      (realize d : Run Error Machine Expr) m = .value e m₁ →
      evaluateIn depth m₁.session.global e m₁ = .value v m₂ → e.CallsPrint → Step depth m (.ok d) none m₂
  | value {d : Datum} {e v : Expr} {m₁ m₂ : Machine} :
      (realize d : Run Error Machine Expr) m = .value e m₁ →
      evaluateIn depth m₁.session.global e m₁ = .value v m₂ → ¬ e.CallsPrint →
      Step depth m (.ok d) (some ("=> " ++ v.print ++ "\n")) m₂
  | failure {d : Datum} {e : Expr} {err : Error} {m₁ m₂ : Machine} :
      (realize d : Run Error Machine Expr) m = .value e m₁ →
      evaluateIn depth m₁.session.global e m₁ = .error err m₂ →
      Step depth m (.ok d) (some ("Error: " ++ err.message ++ "\n")) m₂
  | unread (e : ReadError) : Step depth m (.error e) (some ("Error: " ++ (Error.read e).message ++ "\n")) m

/-- The line, if there is one, comes to stand after all that the sink of the loop holds. -/
inductive Notes : Option String → Repl → Repl → Prop
  | nothing (r : Repl) : Notes none r r
  | shared {m : Machine} {before : String} (line p : String) : m.world.sink = .buffer before →
      Notes (some line) ⟨m, .shared, p⟩ ⟨m.withSink (.buffer (before ++ line)), .shared, p⟩
  | own (m : Machine) (before line p : String) :
      Notes (some line) ⟨m, .own (.buffer before), p⟩ ⟨m, .own (.buffer (before ++ line)), p⟩

/-- One reading after the other is dealt with, and its line noted before the next. -/
inductive Narrates (depth : Nat) : Repl → List (Except ReadError Datum) → Repl → Prop
  | nil (r : Repl) : Narrates depth r [] r
  | cons {r r₁ r₂ : Repl} {m : Machine} {x : Except ReadError Datum} {xs : List (Except ReadError Datum)}
      {line : Option String} :
      Step depth r.machine x line m → Notes line { r with machine := m } r₁ → Narrates depth r₁ xs r₂ →
        Narrates depth r (x :: xs) r₂

def Stuck (depth : Nat) (m : Machine) (x : Except ReadError Datum) : Prop :=
  ∃ d e m₁, x = .ok d ∧ (realize d : Run Error Machine Expr) m = .value e m₁ ∧
    evaluateIn depth m₁.session.global e m₁ = .exhausted

variable {depth : Nat} {m m₁ m' : Machine} {r r' : Repl} {x : Except ReadError Datum}
  {xs : List (Except ReadError Datum)} {line : Option String}

section Respond

theorem Step.respond (h : Step depth m x line m') : respond depth x m = .value line m' := by
  cases h with
  | printed hd hv hprint =>
    rw [respond_realized hd, hv]
    simp [reply, hprint]
  | value hd hv hprint =>
    rw [respond_realized hd, hv]
    simp [reply, hprint]
  | failure hd herr =>
    rw [respond_realized hd, herr]
    rfl
  | unread e => rfl

theorem Stuck.respond (h : Stuck depth m x) : respond depth x m = .exhausted := by
  obtain ⟨d, e, m₁, rfl, hd, hx⟩ := h
  rw [respond_realized hd, hx]

theorem stuck_or_step (depth : Nat) (x : Except ReadError Datum) (m : Machine) :
    Stuck depth m x ∨ ∃ line m', Step depth m x line m' := by
  cases x with
  | error e => exact .inr ⟨_, m, .unread e⟩
  | ok d =>
    obtain ⟨e, m₁, hd⟩ : ∃ e m₁, (realize d : Run Error Machine Expr) m = .value e m₁ := ⟨_, _, rfl⟩
    cases he : evaluateIn depth m₁.session.global e m₁ with
    | exhausted => exact .inl ⟨d, e, m₁, rfl, hd, he⟩
    | error err m₂ => exact .inr ⟨_, m₂, .failure hd he⟩
    | value v m₂ =>
      by_cases hprint : e.CallsPrint
      · exact .inr ⟨_, m₂, .printed hd he hprint⟩
      · exact .inr ⟨_, m₂, .value hd he hprint⟩

theorem Step.sink_open (h : Step depth m x line m') {t : String} (hm : m.world.sink = .buffer t) :
    ∃ t', m'.world.sink = .buffer t' := by
  have hsame : m.withSink (.buffer t) = m := by
    rw [← hm]
    rfl
  have hrun := h.respond
  rw [← hsame] at hrun
  rcases respond_utters depth x m with hx | ⟨text, line', m'', hu⟩
  · rw [hx] at hrun
    cases hrun
  · rw [hu] at hrun
    cases hrun
    exact ⟨t ++ text, rfl⟩

end Respond

section Say

theorem say_eq_value_iff : say line r = .value () r' ↔ Notes line r r' := by
  constructor
  · intro h
    cases line with
    | none =>
      cases h
      exact .nothing r
    | some line =>
      rw [say, write] at h
      obtain ⟨m, channel, p⟩ := r
      cases channel with
      | shared =>
        cases hm : m.world.sink with
        | closed =>
          rw [show sink ⟨m, .shared, p⟩ = .closed from hm] at h
          cases h
        | buffer before =>
          rw [show sink ⟨m, .shared, p⟩ = .buffer before from hm] at h
          cases h
          exact .shared line p hm
      | own k =>
        cases k with
        | closed => cases h
        | buffer before =>
          cases h
          exact .own m before line p
  · intro h
    cases h with
    | nothing => rfl
    | @shared m before line p hm =>
      rw [say, write, show sink ⟨m, .shared, p⟩ = .buffer before from hm]
      rfl
    | own => rfl

theorem notes_open (line : Option String) {t : String} (hr : r.sink = .buffer t) :
    ∃ r₁ t₁, Notes line r r₁ ∧ r₁.sink = .buffer t₁ := by
  have hadds := adds_say line r t
  rw [← hr, withSink_sink] at hadds
  exact ⟨_, _, say_eq_value_iff.mp hadds, sink_withSink _ _⟩

end Say

section Narrate

theorem finished_head (h : ∀ y ∈ (x :: xs).dropLast, isUnfinished y = false) : isUnfinished x = true → xs = [] := by
  intro hx
  cases xs with
  | nil => rfl
  | cons y ys =>
    have hx' := h x (by simp)
    rw [hx] at hx'
    cases hx'

theorem finished_tail (h : ∀ y ∈ (x :: xs).dropLast, isUnfinished y = false) :
    ∀ y ∈ xs.dropLast, isUnfinished y = false := by
  intro y hy
  apply h
  cases xs with
  | nil => cases hy
  | cons z zs => exact List.mem_cons_of_mem x hy

theorem narrate_step (h : Step depth r.machine x line m) (hlast : isUnfinished x = true → xs = []) :
    narrate depth (x :: xs) r = (say line >>= fun _ => narrate depth xs) { r with machine := m } := by
  rw [narrate, Run.bind_value (within_value h.respond)]
  cases hx : isUnfinished x with
  | false => rfl
  | true =>
    rw [hlast hx]
    rfl

theorem Stuck.narrate (h : Stuck depth r.machine x) (xs : List (Except ReadError Datum)) :
    narrate depth (x :: xs) r = .exhausted := by
  have hwithin : within (Repl.respond depth x) r = .exhausted := by
    rw [within, Run.zoom, h.respond]
  rw [Repl.narrate, Run.bind_exhausted hwithin]

theorem narrate_eq_value_iff (hxs : ∀ y ∈ xs.dropLast, isUnfinished y = false) :
    narrate depth xs r = .value () r' ↔ Narrates depth r xs r' := by
  constructor
  · intro h
    induction xs generalizing r with
    | nil =>
      cases h
      exact .nil _
    | cons x xs ih =>
      rcases stuck_or_step depth x r.machine with hstuck | ⟨line, m, hstep⟩
      · rw [hstuck.narrate] at h
        cases h
      · rw [narrate_step hstep (finished_head hxs)] at h
        obtain ⟨u, r₁, hsay, hrest⟩ := Run.value_of_bind h
        exact .cons hstep (say_eq_value_iff.mp hsay) (ih (finished_tail hxs) hrest)
  · intro h
    induction h with
    | nil r => rfl
    | cons hstep hnotes _ ih =>
      rw [narrate_step hstep (finished_head hxs), Run.bind_value (say_eq_value_iff.mpr hnotes)]
      exact ih (finished_tail hxs)

theorem narrates_or_stuck (depth : Nat) (xs : List (Except ReadError Datum)) {t : String} (hr : r.sink = .buffer t) :
    (∃ r', Narrates depth r xs r') ∨
      ∃ done x rest r', xs = done ++ x :: rest ∧ Narrates depth r done r' ∧ Stuck depth r'.machine x := by
  induction xs generalizing r t with
  | nil => exact .inl ⟨r, .nil r⟩
  | cons x xs ih =>
    rcases stuck_or_step depth x r.machine with hstuck | ⟨line, m, hstep⟩
    · exact .inr ⟨[], x, xs, r, rfl, .nil r, hstuck⟩
    · obtain ⟨t', ht'⟩ : ∃ t', ({ r with machine := m } : Repl).sink = .buffer t' := by
        obtain ⟨m₀, channel, p⟩ := r
        cases channel with
        | shared => exact hstep.sink_open hr
        | own k => exact ⟨t, hr⟩
      obtain ⟨r₁, t₁, hnotes, hr₁⟩ := notes_open line ht'
      rcases ih hr₁ with ⟨r', hrest⟩ | ⟨done, x', rest, r', rfl, hdone, hstuck⟩
      · exact .inl ⟨r', .cons hstep hnotes hrest⟩
      · exact .inr ⟨x :: done, x', rest, r', rfl, .cons hstep hnotes hdone, hstuck⟩

end Narrate

/-- Buffering by lines is invisible. What a quiet loop does over a text is what the readings of one reader over
the whole of it call for, each dealt with once and in order, and only the last of them can want more input.
What the loop leaves over holds no complete expression. If it can write, it comes to the end unless an
evaluation that it comes to does not. -/
theorem run_quiet_narrates (depth : Nat) (source : String) (m : Machine) (channel : Channel) :
    let xs := (Reading.ofString source).map Reading.result
    (∀ x ∈ xs.dropLast, isUnfinished x = false) ∧
    (∃ p : String, (∀ reading ∈ Reading.ofString p, reading.isIncomplete = true) ∧
      run depth .quiet (Text.encode source) (start m channel) =
        (narrate depth xs (start m channel)).mapState (withPending p) ∧
      ∀ r, run depth .quiet (Text.encode source) (start m channel) = .value () r ↔
        ∃ r₁, Narrates depth (start m channel) xs r₁ ∧ r = r₁.withPending p) ∧
    ∀ before, (start m channel).sink = .buffer before →
      (∃ r, Narrates depth (start m channel) xs r) ∨
        ∃ done x rest r, xs = done ++ x :: rest ∧ Narrates depth (start m channel) done r ∧
          Stuck depth r.machine x := by
  intro xs
  have hxs : ∀ x ∈ xs.dropLast, isUnfinished x = false := Reading.results_finished source
  refine ⟨hxs, ?_, fun before hsink => narrates_or_stuck depth xs hsink⟩
  obtain ⟨p, hp, hrun⟩ := run_quiet depth source m channel
  refine ⟨p, hp.incomplete, hrun, ?_⟩
  intro r
  rw [hrun, Outcome.mapState_eq_value_iff]
  exact exists_congr fun r₁ => and_congr_left fun _ => narrate_eq_value_iff hxs

theorem run_quiet_narrates_pending :
    let source := "(print 1)\n(+ 1\n 2) x )\n(set y"
    let r₀ := start (.start (.buffer "$ ")) .shared
    r₀.sink = .buffer "$ " ∧
      ∃ r p, Narrates 3 r₀ ((Reading.ofString source).map Reading.result) r ∧
        run 3 .quiet (Text.encode source) r₀ = .value () (r.withPending p) ∧
        (∀ reading ∈ Reading.ofString p, reading.isIncomplete = true) ∧
        r.sink.text = "$ 1 \n=> 3\nError: undefined symbol: X\nError: syntax error: unexpected ')'\n" ++
          "Error: syntax error: unexpected end of input\n" := by
  intro source r₀
  have hrun : ∃ q ∈ (run 3 .quiet (Text.encode source) r₀).value?, q.2.sink.text =
      "$ 1 \n=> 3\nError: undefined symbol: X\nError: syntax error: unexpected ')'\n" ++
        "Error: syntax error: unexpected end of input\n" := by
    decide +kernel
  obtain ⟨⟨u, r⟩, hq, htext⟩ := hrun
  have hvalue : run 3 .quiet (Text.encode source) r₀ = .value () r := Outcome.value?_eq_some_iff.mp hq
  obtain ⟨-, ⟨p, hp, -, hiff⟩, -⟩ := run_quiet_narrates 3 source (.start (.buffer "$ ")) .shared
  obtain ⟨r₁, hnarrates, rfl⟩ := (hiff r).mp hvalue
  exact ⟨rfl, r₁, p, hnarrates, hvalue, hp, htext⟩

end Lisp.Repl
