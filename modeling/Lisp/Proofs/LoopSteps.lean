import Lisp.Proofs.LineBuffering
import Lisp.Proofs.PrintTraces

namespace Lisp

variable {α β : Type}

namespace Machine

variable {m m' m'' : Machine} {s t : String} {a : α} {b : β}

def withSink (k : Sink) (m : Machine) : Machine :=
  { m with world.sink := k }

def Utters (x : Run InputOutputError Machine α) (m : Machine) (text : String) (a : α) (m' : Machine) : Prop :=
  ∀ k, x (m.withSink k) = .value a (m'.withSink (k.push text))

theorem Utters.bind {x : Run InputOutputError Machine α} {f : α → Run InputOutputError Machine β}
    (hx : Utters x m s a m') (hf : Utters (f a) m' t b m'') : Utters (x >>= f) m (s ++ t) b m'' := by
  intro k
  rw [Run.bind_value (hx k), hf, Sink.push_push]

theorem utters_pure (a : α) (m : Machine) : Utters (pure a) m "" a m := by
  intro k
  rw [Sink.push_empty]
  rfl

theorem utters_realize {d : Datum} {e : Expr} (h : (realize d : Run InputOutputError Machine Expr) m = .value e m') :
    Utters (realize d) m "" e m' := by
  intro k
  rw [Sink.push_empty]
  cases h
  rfl

theorem evaluate_utters (depth : Nat) (e : Expr) (m : Machine) :
    (∀ k, evaluate depth e (m.withSink k) = .exhausted) ∨
      ∃ ps r s', (Task.eval m.session.global e).Performs m.session m.world.store ps r s' ∧
        Utters (evaluate depth e).attempt m (Primitive.lines ps) r ⟨m.session, s'.world .closed⟩ := by
  rcases Task.eval_settles m.session depth m.session.global e m.world.store with hx | ⟨ps, r, s', hp, hw⟩
  · refine .inl fun k => ?_
    have hk : eval m.session depth m.session.global e (m.withSink k).world = .exhausted := hx k
    simp only [evaluate, within, Run.zoom]
    rw [show (m.withSink k).session = m.session from rfl, hk]
  · refine .inr ⟨ps, r, s', hp, ?_⟩
    intro k
    simp only [Run.attempt, evaluate, within, Run.zoom]
    rw [show (m.withSink k).session = m.session from rfl]
    cases r with
    | ok v =>
      have hk : eval m.session depth m.session.global e (m.withSink k).world = _ := hw.value k
      rw [hk]
      rfl
    | error err =>
      have hk : eval m.session depth m.session.global e (m.withSink k).world = _ := hw.error k
      rw [hk]
      rfl

end Machine

namespace Repl

open Reading (isUnfinished settled complete)

/-- Whatever text the sink of the loop holds, the run gives the value, adds the text and leaves the second
loop otherwise. -/
def Adds (x : Run InputOutputError Repl α) (r : Repl) (text : String) (a : α) (r' : Repl) : Prop :=
  ∀ t, x (r.withSink (.buffer t)) = .value a (r'.withSink (.buffer (t ++ text)))

theorem sink_withSink (r : Repl) (k : Sink) : (r.withSink k).sink = k := by
  obtain ⟨m, channel, pending⟩ := r
  cases channel <;> rfl

theorem withSink_withSink (r : Repl) (k k' : Sink) : (r.withSink k).withSink k' = r.withSink k' := by
  obtain ⟨m, channel, pending⟩ := r
  cases channel <;> rfl

theorem withSink_sink (r : Repl) : r.withSink r.sink = r := by
  obtain ⟨m, channel, pending⟩ := r
  cases channel <;> rfl

theorem pending_withSink (r : Repl) (k : Sink) : (r.withSink k).pending = r.pending := by
  obtain ⟨m, channel, pending⟩ := r
  cases channel <;> rfl

section Adds

variable {r r' r'' : Repl} {s t : String} {a : α} {b : β}

theorem adds_pure (a : α) (r : Repl) : Adds (pure a) r "" a r := by
  intro t
  rw [String.append_empty]
  rfl

theorem Adds.bind {x : Run InputOutputError Repl α} {f : α → Run InputOutputError Repl β} (hx : Adds x r s a r')
    (hf : Adds (f a) r' t b r'') : Adds (x >>= f) r (s ++ t) b r'' := by
  intro k
  rw [Run.bind_value (hx k), hf, String.append_assoc]

theorem adds_write (text : String) (r : Repl) : Adds (write text) r text () r := by
  intro t
  rw [write, sink_withSink]
  dsimp only [Sink.write?]
  rw [withSink_withSink]

theorem adds_say (line : Option String) (r : Repl) : Adds (say line) r (line.getD "") () r := by
  cases line with
  | none => exact adds_pure () r
  | some line => exact adds_write line r

theorem adds_within {x : Run InputOutputError Machine α} {m : Machine} {text : String}
    (hx : Machine.Utters x r.machine text a m) : ∃ s r', Adds (within x) r s a r' := by
  obtain ⟨m₀, channel, pending⟩ := r
  cases channel with
  | shared =>
    refine ⟨text, ⟨m, .shared, pending⟩, ?_⟩
    intro t
    exact within_value (hx (.buffer t))
  | own k =>
    refine ⟨"", ⟨m.withSink (m₀.world.sink.push text), .own k, pending⟩, ?_⟩
    intro t
    rw [String.append_empty]
    exact within_value (hx m₀.world.sink)

theorem machine_withSink (r : Repl) (k : Sink) : ∃ k', (r.withSink k).machine = r.machine.withSink k' := by
  obtain ⟨m, channel, pending⟩ := r
  cases channel with
  | shared => exact ⟨k, rfl⟩
  | own k' => exact ⟨m.world.sink, rfl⟩

theorem within_exhausts {x : Run InputOutputError Machine α} (h : ∀ k, x (r.machine.withSink k) = .exhausted)
    (k : Sink) : within x (r.withSink k) = .exhausted := by
  obtain ⟨k', hk⟩ := machine_withSink r k
  rw [within, Run.zoom, hk, h]

end Adds

theorem respond_utters (depth : Nat) (x : Except ReadError Datum) (m : Machine) :
    (∀ k, respond depth x (m.withSink k) = .exhausted) ∨
      ∃ text line m', Machine.Utters (respond depth x) m text line m' := by
  cases x with
  | error e => exact .inr ⟨"", _, m, Machine.utters_pure _ m⟩
  | ok d =>
    obtain ⟨e, m', hd⟩ : ∃ e m', (Machine.realize d : Run InputOutputError Machine Expr) m = .value e m' := ⟨_, _, rfl⟩
    have hread := Machine.utters_realize hd
    rcases Machine.evaluate_utters depth e m' with hx | ⟨ps, res, s', -, hu⟩
    · left
      intro k
      have hk : (Machine.evaluate depth e).attempt (m'.withSink (k.push "")) =
          (.exhausted : Outcome InputOutputError _ _) := by
        rw [Run.attempt, hx]
      rw [respond, Run.bind_value (hread k), Run.bind_exhausted hk]
    · right
      exact ⟨_, _, _, hread.bind (f := fun e => do pure (reply e (← (Machine.evaluate depth e).attempt)))
        (hu.bind (Machine.utters_pure (reply e res) _))⟩

theorem narrate_adds (depth : Nat) (xs : List (Except ReadError Datum)) (r : Repl) :
    (∀ t, narrate depth xs (r.withSink (.buffer t)) = .exhausted) ∨ ∃ s r', Adds (narrate depth xs) r s () r' := by
  induction xs generalizing r with
  | nil => exact .inr ⟨"", r, adds_pure () r⟩
  | cons x xs ih =>
    rw [narrate]
    rcases respond_utters depth x r.machine with hx | ⟨text, line, m', hu⟩
    · exact .inl fun t => Run.bind_exhausted (within_exhausts hx _) _
    · obtain ⟨s, r₁, hs⟩ := adds_within hu
      cases hlast : isUnfinished x with
      | true => exact .inr ⟨_, r₁, hs.bind ((adds_say line r₁).bind (adds_pure () r₁))⟩
      | false =>
        rcases ih r₁ with hrest | ⟨s', r₂, hrest⟩
        · left
          intro t
          rw [Run.bind_value (hs t), Run.bind_value (adds_say line r₁ _)]
          exact hrest _
        · exact .inr ⟨_, r₂, hs.bind ((adds_say line r₁).bind hrest)⟩

theorem adds_withPending (p : String) (r : Repl) : Adds (Run.modify (withPending p)) r "" () (r.withPending p) := by
  intro t
  rw [String.append_empty]
  obtain ⟨m, channel, pending⟩ := r
  cases channel <;> rfl

theorem feed_adds (depth : Nat) (line : String) (r : Repl) :
    (∀ t, feed depth line (r.withSink (.buffer t)) = .exhausted) ∨ ∃ out r', Adds (feed depth line) r out () r' := by
  have hfeed := fun t => feed_eq depth line (r.withSink (.buffer t))
  dsimp only at hfeed
  simp only [pending_withSink] at hfeed
  rcases narrate_adds depth ((complete (Reading.ofString (r.pending ++ line))).map Reading.result) r with
    hx | ⟨s, r', hs⟩
  · refine .inl fun t => ?_
    rw [hfeed, Run.bind_exhausted (hx t)]
  · exact .inr ⟨_, _, fun t => (hfeed t).trans (hs.bind (adds_withPending _ r') t)⟩

theorem feed_pending {depth : Nat} {line : String} {r r' : Repl} (h : feed depth line r = .value () r') :
    let text := r.pending ++ line
    let k := settled text.utf8ByteSize 0 (Reading.ofString text)
    r'.pending = String.ofList (Text.dropBytes k text.toList) := by
  rw [feed_eq, Run.bind_apply] at h
  split at h
  · cases h
    rfl
  · cases h
  · cases h

def proceed (depth : Nat) (o : Options) : List (List Char) → Run InputOutputError Repl Unit
  | [] => pure ()
  | l :: ls => do
    prompt o
    feed depth (String.ofList l)
    proceed depth o ls

theorem loop_append (depth : Nat) (o : Options) (ls : List (List Char)) (rest : List (Option String)) :
    loop depth o (ls.map (fun l => some (String.ofList l)) ++ rest) =
      proceed depth o ls >>= fun _ => loop depth o rest := by
  induction ls with
  | nil => rfl
  | cons l ls ih =>
    rw [List.map_cons, List.cons_append, loop, proceed, ih]
    simp only [bind_assoc]

theorem adds_prompt (o : Options) (r : Repl) :
    Adds (prompt o) r
      (if o.prompt then if r.pending.toList.all Text.isBlank then "> " else "... " else "") () r := by
  cases ho : o.prompt with
  | false =>
    rw [prompt, ho]
    exact adds_pure () r
  | true =>
    intro t
    simp only [prompt, ho, if_true, Run.get, Run.bind_apply, pending_withSink]
    exact adds_write _ r t

theorem adds_welcome (o : Options) (r : Repl) : Adds (welcome o) r (if o.banner then banner else "") () r := by
  rw [welcome]
  split
  · exact adds_write banner r
  · exact adds_pure () r

inductive Feeds (depth : Nat) : Repl → List (List Char) → List String → Repl → Prop
  | nil (r : Repl) : Feeds depth r [] [] r
  | cons {r r₁ r₂ : Repl} {l : List Char} {ls : List (List Char)} {out : String} {outs : List String} :
      Adds (feed depth (String.ofList l)) r out () r₁ → Feeds depth r₁ ls outs r₂ →
        Feeds depth r (l :: ls) (out :: outs) r₂

theorem feeds_of_ends (depth : Nat) (ls : List (List Char)) (r : Repl) :
    (∀ o t, proceed depth o ls (r.withSink (.buffer t)) = .exhausted) ∨ ∃ outs r', Feeds depth r ls outs r' := by
  induction ls generalizing r with
  | nil => exact .inr ⟨[], r, .nil r⟩
  | cons l ls ih =>
    rcases feed_adds depth (String.ofList l) r with hx | ⟨out, r₁, hout⟩
    · left
      intro o t
      rw [proceed, Run.bind_value (adds_prompt o r t), Run.bind_exhausted (hx _)]
    · rcases ih r₁ with hx | ⟨outs, r₂, houts⟩
      · left
        intro o t
        rw [proceed, Run.bind_value (adds_prompt o r t), Run.bind_value (hout _)]
        exact hx o _
      · exact .inr ⟨out :: outs, r₂, .cons hout houts⟩

end Repl

end Lisp
