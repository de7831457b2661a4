import Lisp.Proofs.EvaluationInvariants
import Lisp.Proofs.ReadingLoops

namespace Lisp

def Datum.Written (d : Datum) : Prop :=
  ∃ source, ∃ r ∈ Reading.ofString source, r.result = .ok d

namespace Reading

def Genuine (x : Except ReadError Datum) : Prop :=
  ∀ d, x = .ok d → d.Written

theorem ofString_genuine (source : String) : ∀ x ∈ (ofString source).map result, Genuine x := by
  intro x hx d hd
  obtain ⟨r, hr, rfl⟩ := List.mem_map.mp hx
  exact ⟨source, r, hr, hd⟩

def data (xs : List (Except ReadError Datum)) : List Datum :=
  xs.filterMap Except.toOption

theorem data_append (xs ys : List (Except ReadError Datum)) : data (xs ++ ys) = data xs ++ data ys :=
  List.filterMap_append

theorem Waiting.data {cs : List Char} (h : Waiting cs) :
    Reading.data ((ofString (String.ofList cs)).map result) = [] := by
  rcases h with h | ⟨e, -, h⟩
  · rw [h]
    rfl
  · rw [h]
    rfl

end Reading

/-- An expression that was evaluated, what came of it, and the identities that were given out
meanwhile, from `first` on and before `last`. -/
structure Evaluation where
  code : Expr
  result : Except Error Expr
  first : Ident
  last : Ident

inductive Demand where
  | read (d : Datum)
  | run (d : Datum)

inductive Event where
  | read (d : Datum) (e : Expr)
  | run (d : Datum) (x : Evaluation)

namespace Event

def demand : Event → Demand
  | read d _ => .read d
  | run d _ => .run d

def value? : Event → Option Expr
  | read _ e => some e
  | run _ x => x.result.toOption

def evaluation? : Event → Option Evaluation
  | read _ _ => none
  | run _ x => some x

def values (log : List Event) : List Expr :=
  log.filterMap value?

def evaluations (log : List Event) : List Evaluation :=
  log.filterMap evaluation?

theorem mem_values_append {log log' : List Event} {v : Expr} :
    v ∈ values (log ++ log') ↔ v ∈ values log ∨ v ∈ values log' := by
  simp [values, List.filterMap_append]

theorem mem_evaluations_append {log log' : List Event} {x : Evaluation} :
    x ∈ evaluations (log ++ log') ↔ x ∈ evaluations log ∨ x ∈ evaluations log' := by
  simp [evaluations, List.filterMap_append]

end Event

namespace Machine

inductive Turns (m : Machine) : List Event → Machine → Prop where
  | refl : Turns m [] m
  | write {log : List Event} {m' : Machine} (h : Turns m log m') (sink : Sink) :
    Turns m log { m' with world.sink := sink }
  | read {log : List Event} {m₁ m₂ : Machine} {d : Datum} {e : Expr} (h : Turns m log m₁) (hd : d.Written)
    (he : (realize d : Run Error Machine Expr) m₁ = .value e m₂) : Turns m (log ++ [.read d e]) m₂
  | run {log : List Event} {m₁ m₂ m₃ : Machine} {d : Datum} {e : Expr} {depth : Nat} {r : Except Error Expr}
    (h : Turns m log m₁) (hd : d.Written) (he : (realize d : Run Error Machine Expr) m₁ = .value e m₂)
    (hr : (evaluate depth e m₂).ending? = some (r, m₃)) :
    Turns m (log ++ [.run d ⟨e, r, m₂.world.next, m₃.world.next⟩]) m₃

theorem Turns.trans {m m' m'' : Machine} {log log' : List Event} (h : m.Turns log m') (h' : m'.Turns log' m'') :
    m.Turns (log ++ log') m'' := by
  induction h' with
  | refl => simpa using h
  | write _ sink ih => exact ih.write sink
  | read _ hd he ih =>
    rw [← List.append_assoc]
    exact ih.read hd he
  | run _ hd he hr ih =>
    rw [← List.append_assoc]
    exact ih.run hd he hr

end Machine

namespace Run

variable {ε δ σ α β : Type}

/-- The run is a sequence of turns of the machine that is part of the state. They meet the demands in
order: all of them, or some of the first if the run fails. -/
def Takes (part : σ → Machine) (qs : List Demand) (P : List Event → α → Prop) (x : Run ε σ α) (s : σ) : Prop :=
  x.Leaves (fun a s' => ∃ log, (part s).Turns log (part s') ∧ log.map Event.demand = qs ∧ P log a)
    (fun s' => ∃ log, (part s).Turns log (part s') ∧ log.map Event.demand <+: qs) s

abbrev Idle (part : σ → Machine) (x : Run ε σ α) (s : σ) : Prop :=
  Takes part [] (fun _ _ => True) x s

namespace Takes

variable {part : σ → Machine} {qs qs' : List Demand} {P : List Event → α → Prop} {Q : List Event → β → Prop} {s : σ}

theorem pure {a : α} (ha : P [] a) : Takes part [] P (Pure.pure a : Run ε σ α) s :=
  .value rfl ⟨[], .refl, rfl, ha⟩

theorem throw (e : ε) : Takes part qs P (Run.throw e) s :=
  .error rfl ⟨[], .refl, List.nil_prefix⟩

theorem onward {x y : Run ε σ α} {s' : σ} {log : List Event} (ht : (part s).Turns log (part s'))
    (hy : Takes part qs (fun log' a => P (log ++ log') a) y s') (h : x s = y s') :
    Takes part (log.map Event.demand ++ qs) P x s := by
  refine (hy.mono ?_ ?_).congr h
  · rintro a s'' ⟨log', ht', rfl, ha⟩
    exact ⟨log ++ log', ht.trans ht', List.map_append, ha⟩
  · rintro s'' ⟨log', ht', hq⟩
    refine ⟨log ++ log', ht.trans ht', ?_⟩
    rw [List.map_append]
    exact (List.prefix_append_right_inj _).mpr hq

theorem bind {x : Run ε σ α} {f : α → Run ε σ β} (hx : Takes part qs P x s)
    (hf : ∀ a s' log, x s = .value a s' → P log a → Takes part qs' (fun log' b => Q (log ++ log') b) (f a) s') :
    Takes part (qs ++ qs') Q (x >>= f) s := by
  cases hx with
  | value h ha =>
    obtain ⟨log, ht, rfl, ha⟩ := ha
    exact onward ht (hf _ _ log h ha) (bind_value h f)
  | error h hs =>
    obtain ⟨log, ht, hq⟩ := hs
    exact .error (bind_error h f) ⟨log, ht, hq.trans (List.prefix_append qs qs')⟩
  | exhausted h => exact .exhausted (bind_exhausted h f)

theorem get_bind {f : σ → Run ε σ α} (hf : Takes part qs P (f s) s) : Takes part qs P (Run.get >>= f) s :=
  hf.congr rfl

end Takes

section Idle

variable {part : σ → Machine} {qs : List Demand} {Q : List Event → β → Prop} {s : σ} {x : Run ε σ α}
  {f : α → Run ε σ β}

theorem Idle.bind (hx : Idle part x s) (hf : ∀ a s', x s = .value a s' → Takes part qs Q (f a) s') :
    Takes part qs Q (x >>= f) s := by
  cases hx with
  | value h ha =>
    obtain ⟨log, ht, hq, -⟩ := ha
    rw [List.map_eq_nil_iff] at hq
    subst hq
    exact Takes.onward ht (hf _ _ h) (bind_value h f)
  | error h hs =>
    obtain ⟨log, ht, hq⟩ := hs
    exact .error (bind_error h f) ⟨log, ht, hq.trans List.nil_prefix⟩
  | exhausted h => exact .exhausted (bind_exhausted h f)

theorem Takes.then_idle {P : List Event → α → Prop} (hx : Takes part qs P x s)
    (hf : ∀ a s', Idle part (f a) s') : Takes part qs (fun _ _ => True) (x >>= f) s := by
  rw [← List.append_nil qs]
  exact hx.bind fun a s' _ _ _ => hf a s'

end Idle

end Run

namespace Machine

open Run (Takes)
open Event (values mem_values_append)
open Reading (data Genuine)

variable {m : Machine}

theorem realize_takes {d : Datum} (hd : d.Written) :
    Takes id [.read d] (fun log e => e ∈ values log) (realize d : Run Error Machine Expr) m := by
  refine .value rfl ⟨_, Turns.refl.read hd rfl, rfl, ?_⟩
  simp [values, Event.value?]

theorem evaluateDatum_takes {d : Datum} (hd : d.Written) (depth : Nat) :
    Takes id [.run d] (fun log v => v ∈ values log) (realize d >>= evaluate depth) m := by
  cases he : (realize d : Run Error Machine Expr) m with
  | error e m' => cases he
  | exhausted => cases he
  | value e m₂ =>
    have turn {r : Except Error Expr} {m₃ : Machine} (hr : (evaluate depth e m₂).ending? = some (r, m₃)) :=
      Turns.refl.run hd he hr
    have hrun := Run.bind_value he (evaluate depth)
    cases hv : evaluate depth e m₂ with
    | value v m₃ =>
      refine .value (hrun.trans hv) ⟨_, turn (by rw [hv]; rfl), rfl, ?_⟩
      simp [values, Event.value?, Except.toOption]
    | error err m₃ => exact .error (hrun.trans hv) ⟨_, turn (by rw [hv]; rfl), List.prefix_rfl⟩
    | exhausted => exact .exhausted (hrun.trans hv)

theorem readings_takes {rs : List Reading} (hrs : ∀ x ∈ rs.map Reading.result, Genuine x) :
    Takes id ((data (rs.map Reading.result)).map .read) (fun log es => ∀ e ∈ es, e ∈ values log) (readings rs) m := by
  induction rs generalizing m with
  | nil => exact .pure (by simp)
  | cons r rs ih =>
    obtain ⟨hr, hrest⟩ := List.forall_mem_cons.mp hrs
    obtain ⟨e | d, offset⟩ := r
    · exact .throw _
    · refine (realize_takes (hr d rfl)).bind fun e m' log _ he => ?_
      rw [← List.append_nil (List.map _ _)]
      refine (ih hrest).bind fun es m'' log' _ hes => .pure ?_
      simp only [List.append_nil, List.forall_mem_cons, mem_values_append]
      exact ⟨.inl he, fun e' he' => .inr (hes e' he')⟩

theorem evaluateReadings_takes {rs : List Reading} (hrs : ∀ x ∈ rs.map Reading.result, Genuine x) (depth : Nat) :
    Takes id ((data (rs.map Reading.result)).map .run) (fun log vs => ∀ v ∈ vs, v ∈ values log)
      (evaluateReadings depth rs) m := by
  induction rs generalizing m with
  | nil => exact .pure (by simp)
  | cons r rs ih =>
    obtain ⟨hr, hrest⟩ := List.forall_mem_cons.mp hrs
    obtain ⟨e | d, offset⟩ := r
    · exact .throw _
    · rw [evaluateReadings_cons]
      refine (evaluateDatum_takes (hr d rfl) depth).bind fun v m' log _ hv => ?_
      rw [← List.append_nil (List.map _ _)]
      refine (ih hrest).bind fun vs m'' log' _ hvs => .pure ?_
      simp only [List.append_nil, List.forall_mem_cons, mem_values_append]
      exact ⟨.inl hv, fun v' hv' => .inr (hvs v' hv')⟩

theorem evaluateFirst_takes (depth : Nat) (source : String) :
    Takes id ((data ((Reading.first? source).toList.map Reading.result)).map .run) (fun log v => v ∈ values log)
      (evaluateFirst depth source) m := by
  rw [evaluateFirst]
  split
  · exact .throw _
  · exact .throw _
  · rename_i d offset hfirst
    rw [hfirst]
    rw [Reading.first?_eq] at hfirst
    have hd : d.Written := ⟨source, _, List.mem_of_mem_head? hfirst, rfl⟩
    exact evaluateDatum_takes hd depth

end Machine

namespace Repl

open Run (Takes Idle)
open Reading (data Genuine Waiting isUnfinished)

variable {r : Repl}

theorem takes_within {α : Type} {qs : List Demand} {P : List Event → α → Prop} {x : Run InputOutputError Machine α}
    (hx : Takes id qs P x r.machine) : Takes Repl.machine qs P (within x) r := by
  cases hx with
  | value h ha => exact .value (within_value h) ha
  | @error e m h hs =>
    have hrun : within x r = .error e { r with machine := m } := by rw [within, Run.zoom, h]
    exact .error hrun hs
  | exhausted h => exact .exhausted (by rw [within, Run.zoom, h])

theorem write_idle (text : String) : Idle Repl.machine (write text) r := by
  cases hw : r.sink.write? text with
  | none => exact .error (by rw [write, hw]) ⟨[], .refl, List.prefix_rfl⟩
  | some sink =>
    have hrun : write text r = .value () (r.withSink sink) := by rw [write, hw]
    refine .value hrun ?_
    rw [withSink]
    split
    · exact ⟨[], Machine.Turns.refl.write sink, rfl, trivial⟩
    · exact ⟨[], .refl, rfl, trivial⟩

theorem writeIf_idle (b : Bool) (text : String) : Idle Repl.machine (if b then write text else pure ()) r := by
  split
  · exact write_idle text
  · exact .pure trivial

theorem say_idle (line : Option String) : Idle Repl.machine (say line) r := by
  cases line with
  | none => exact .pure trivial
  | some line => exact write_idle line

theorem respond_takes {x : Except ReadError Datum} (hx : Genuine x) (depth : Nat) {m : Machine} :
    Takes id ((data [x]).map .run) (fun _ _ => True) (respond depth x) m := by
  cases x with
  | error e => exact .pure trivial
  | ok d =>
    cases he : (Machine.realize d : Run Error Machine Expr) m with
    | error e m' => cases he
    | exhausted => cases he
    | value e m₂ =>
      have turn {x : Except Error Expr} {m₃ : Machine} (h : (Machine.evaluate depth e m₂).ending? = some (x, m₃)) :=
        Machine.Turns.refl.run (hx d rfl) he h
      have hglobal : Machine.evaluateIn depth m₂.session.global e m₂ = Machine.evaluate depth e m₂ := rfl
      have hrun := respond_realized he depth
      rw [hglobal] at hrun
      cases hv : Machine.evaluate depth e m₂ with
      | value v m₃ =>
        rw [hv] at hrun
        exact .value hrun ⟨_, turn (by rw [hv]; rfl), rfl, trivial⟩
      | error err m₃ =>
        rw [hv] at hrun
        exact .value hrun ⟨_, turn (by rw [hv]; rfl), rfl, trivial⟩
      | exhausted =>
        rw [hv] at hrun
        exact .exhausted hrun

theorem narrate_takes {xs : List (Except ReadError Datum)} (hxs : ∀ x ∈ xs, Genuine x)
    (hfinished : ∀ x ∈ xs, isUnfinished x = false) (depth : Nat) :
    Takes Repl.machine ((data xs).map .run) (fun _ _ => True) (narrate depth xs) r := by
  induction xs generalizing r with
  | nil => exact .pure trivial
  | cons x xs ih =>
    obtain ⟨hx, hrest⟩ := List.forall_mem_cons.mp hxs
    obtain ⟨hlast, hfinished⟩ := List.forall_mem_cons.mp hfinished
    rw [← List.singleton_append, Reading.data_append, List.map_append, List.singleton_append, narrate, hlast]
    refine (takes_within (respond_takes hx depth)).bind fun line r₁ _ _ _ => ?_
    exact (say_idle line).bind fun _ r₂ _ => ih hrest hfinished

theorem withPending_idle (p : String) :
    Idle Repl.machine (Run.modify (withPending p) : Run InputOutputError Repl Unit) r :=
  .value rfl ⟨[], .refl, rfl, trivial⟩

theorem prompt_idle (o : Options) : Idle Repl.machine (prompt o) r := by
  rw [prompt]
  split
  · exact .get_bind (write_idle _)
  · exact .pure trivial

theorem prompt_pending {o : Options} {r' : Repl} (h : prompt o r = .value () r') : r'.pending = r.pending := by
  cases ho : o.prompt with
  | false =>
    rw [prompt, ho] at h
    cases h
    rfl
  | true =>
    rw [prompt, ho] at h
    exact (steady_write _).pending h

theorem finish_idle (o : Options) : Idle Repl.machine (finish o) r := by
  apply Takes.get_bind
  dsimp only
  split
  · have complain (r : Repl) (e : ReadError) : Idle Repl.machine
        (do write (failureLine (.read e)); if o.banner then write farewell else pure ()) r :=
      (write_idle _).bind fun _ r' _ => writeIf_idle _ _
    split
    · exact (write_idle _).bind fun _ r' _ => complain r' _
    · exact complain r _
  · exact writeIf_idle _ _

theorem loop_takes (depth : Nat) (o : Options) {ls : List (List Char)} (hb : Text.Broken ls)
    {rest : List (Option String)} (hrest : rest = [] ∨ ∃ more, rest = none :: more) (hw : Waiting r.pending.toList) :
    Takes Repl.machine
      ((data ((Reading.ofString (String.ofList (r.pending.toList ++ ls.flatten))).map Reading.result)).map .run)
      (fun _ _ => True) (loop depth o (ls.map (fun l => some (String.ofList l)) ++ rest)) r := by
  induction ls generalizing r with
  | nil =>
    rw [List.flatten_nil, List.append_nil, hw.data, List.map_nil, List.map_nil, List.nil_append]
    rcases hrest with rfl | ⟨more, rfl⟩
    · exact (prompt_idle o).bind fun _ r' _ => finish_idle o
    · exact (prompt_idle o).bind fun _ r' _ => .throw _
  | cons l ls ih =>
    refine (prompt_idle o).bind fun _ r₁ hprompt => ?_
    rw [← prompt_pending hprompt] at hw ⊢
    obtain ⟨xs, p, hxs, hp, hfeed, hwhole⟩ := feed_resume depth hb r₁
    have hgenuine : ∀ x ∈ xs, Genuine x := by
      intro x hx
      apply Reading.ofString_genuine (String.ofList (r₁.pending.toList ++ (l :: ls).flatten))
      rw [hwhole]
      exact List.mem_append_left _ hx
    have hnarrate : Takes Repl.machine ((data xs).map .run) (fun _ _ => True) (feed depth (String.ofList l)) r₁ :=
      ((narrate_takes hgenuine hxs depth).then_idle fun _ r₂ => withPending_idle p).congr hfeed
    rw [hwhole, Reading.data_append, List.map_append]
    refine hnarrate.bind fun _ r₂ _ hvalue _ => ?_
    rw [hfeed] at hvalue
    obtain ⟨u, r₃, -, hset⟩ := Run.value_of_bind hvalue
    obtain ⟨-, rfl⟩ := Outcome.value.inj hset
    exact ih (r := r₃.withPending p) hb.2.2 hp

end Repl

end Lisp
