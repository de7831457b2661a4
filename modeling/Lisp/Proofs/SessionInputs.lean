import Lisp.Proofs.SessionTurns
import Mathlib.Data.List.Forall2

namespace Lisp

def Text.legible : List (Option String) → String
  | some line :: lines => line ++ legible lines
  | _ => ""

theorem Text.legible_append {rest : List (Option String)} (hrest : rest = [] ∨ ∃ more, rest = none :: more)
    (ls : List (List Char)) :
    legible (ls.map (fun l => some (String.ofList l)) ++ rest) = String.ofList ls.flatten := by
  induction ls with
  | nil => rcases hrest with rfl | ⟨more, rfl⟩ <;> rfl
  | cons l ls ih => rw [List.map_cons, List.cons_append, legible, ih, List.flatten_cons, String.ofList_append]

theorem Text.decode_lines_cases (bytes : List UInt8) :
    ∃ (s : String) (rest : List (Option String)), (rest = [] ∨ ∃ more, rest = none :: more) ∧
      (lines bytes).map decode? = (charLines s.toList).map (fun l => some (String.ofList l)) ++ rest := by
  rcases decode?_cases bytes with ⟨s, rfl⟩ | ⟨-, s, bad, rest, hlines, hbad⟩
  · exact ⟨s, [], .inl rfl, by rw [decode_lines_encode, List.append_nil]⟩
  · refine ⟨s, none :: rest.map decode?, .inr ⟨_, rfl⟩, ?_⟩
    rw [hlines, List.map_append, decode_lines_encode, List.map_cons, hbad]

theorem Repl.run_takes (depth : Nat) (o : Options) (bytes : List UInt8) (m : Machine) (channel : Channel) :
    Run.Takes Repl.machine
      ((Reading.data ((Reading.ofString (Text.legible ((Text.lines bytes).map Text.decode?))).map Reading.result)).map
        .run) (fun _ _ => True) (run depth o bytes) (start m channel) := by
  obtain ⟨s, rest, hrest, hlines⟩ := Text.decode_lines_cases bytes
  rw [run, hlines, Text.legible_append hrest]
  have hwelcome : Run.Idle Repl.machine (welcome o) (start m channel) := writeIf_idle o.banner banner
  refine hwelcome.bind fun _ r hr => ?_
  have hpending : r.pending = "" := by
    rw [welcome] at hr
    split at hr
    · exact (steady_write _).pending hr
    · cases hr
      rfl
  have hloop := loop_takes (r := r) depth o (Text.charLines_broken s.toList) hrest (by rw [hpending]; exact .inl rfl)
  rw [hpending] at hloop
  exact hloop

inductive Input where
  | parse (source : String)
  | first (source : String)
  | all (source : String)
  | lines (options : Repl.Options) (channel : Channel) (bytes : List UInt8)

def Outcome.returned {ε : Type} : Outcome ε Machine (List Expr) → Option (List Expr × Machine)
  | value vs m => some (vs, m)
  | error _ m => some ([], m)
  | exhausted => none

namespace Input

def run (depth : Nat) : Input → Machine → Option (List Expr × Machine)
  | parse source, m => (Machine.parse source m).returned
  | first source, m => ((do pure [← Machine.evaluateFirst depth source]) m : Outcome Error _ _).returned
  | all source, m => (Machine.evaluateAll depth source m).returned
  | lines options channel bytes, m =>
    (((do Repl.run depth options bytes; pure []) (.start m channel)).mapState Repl.machine).returned

def readings : Input → List Reading
  | parse source => Reading.ofString source
  | first source => (Reading.first? source).toList
  | all source => Reading.ofString source
  | lines _ _ bytes => Reading.ofString (Text.legible ((Text.lines bytes).map Text.decode?))

/-- What the session is asked: each expression in the text, in the order in which they stand there. -/
def demands (i : Input) : List Demand :=
  (Reading.data (i.readings.map Reading.result)).map fun d =>
    match i with
    | parse _ => .read d
    | _ => .run d

end Input

namespace Machine

/-- What a fresh session comes to, and all that it has returned, if it is given the texts one after another. -/
inductive Given (sink : Sink) : List Input → Machine → List Expr → Prop where
  | start : Given sink [] (.start sink) []
  | input {inputs : List Input} {m m' : Machine} {vs us : List Expr} (hm : Given sink inputs m vs) (depth : Nat)
    (i : Input) (hi : i.run depth m = some (us, m')) : Given sink (inputs ++ [i]) m' (vs ++ us)

def Driven (sink : Sink) (m : Machine) (vs : List Expr) : Prop :=
  ∃ inputs, Given sink inputs m vs

theorem Driven.start {sink : Sink} : Driven sink (.start sink) [] :=
  ⟨[], .start⟩

theorem Driven.input {sink : Sink} {m m' : Machine} {vs us : List Expr} (hm : Driven sink m vs) (depth : Nat)
    (i : Input) (hi : i.run depth m = some (us, m')) : Driven sink m' (vs ++ us) := by
  obtain ⟨inputs, hm⟩ := hm
  exact ⟨inputs ++ [i], hm.input depth i hi⟩

end Machine

theorem Run.Takes.returned {ε σ : Type} {part : σ → Machine} {qs : List Demand} {x : Run ε σ (List Expr)} {s : σ}
    (hx : x.Takes part qs (fun log vs => ∀ v ∈ vs, v ∈ Event.values log) s) {us : List Expr} {m' : Machine}
    (h : ((x s).mapState part).returned = some (us, m')) :
    ∃ log, (part s).Turns log m' ∧ log.map Event.demand <+: qs ∧ ∀ u ∈ us, u ∈ Event.values log := by
  cases hx with
  | value hv ha =>
    rw [hv] at h
    cases h
    obtain ⟨log, ht, rfl, ha⟩ := ha
    exact ⟨log, ht, List.prefix_rfl, ha⟩
  | error he hs =>
    rw [he] at h
    cases h
    obtain ⟨log, ht, hq⟩ := hs
    exact ⟨log, ht, hq, by simp⟩
  | exhausted hx =>
    rw [hx] at h
    cases h

theorem Input.run_turns {m m' : Machine} {depth : Nat} {i : Input} {us : List Expr}
    (h : i.run depth m = some (us, m')) :
    ∃ log, m.Turns log m' ∧ log.map Event.demand <+: i.demands ∧ ∀ u ∈ us, u ∈ Event.values log := by
  have same (o : Outcome Error Machine (List Expr)) : o.mapState id = o := by cases o <;> rfl
  cases i with
  | parse source =>
    apply (Machine.readings_takes (Reading.ofString_genuine source)).returned
    rw [same]
    exact h
  | first source =>
    have hone : Run.Takes id (Input.first source).demands
        (fun log (vs : List Expr) => ∀ v ∈ vs, v ∈ Event.values log)
        (do pure [← Machine.evaluateFirst depth source]) m := by
      rw [← List.append_nil (Input.first source).demands]
      refine (Machine.evaluateFirst_takes depth source).bind fun v m' log _ hv => ?_
      exact .pure (by simpa using hv)
    apply hone.returned
    rw [same]
    exact h
  | all source =>
    apply (Machine.evaluateReadings_takes (Reading.ofString_genuine source) depth).returned
    rw [same]
    exact h
  | lines options channel bytes =>
    have hnone : Run.Takes Repl.machine (Input.lines options channel bytes).demands
        (fun log (vs : List Expr) => ∀ v ∈ vs, v ∈ Event.values log)
        (do Repl.run depth options bytes; pure []) (.start m channel) := by
      rw [← List.append_nil (Input.lines options channel bytes).demands]
      refine (Repl.run_takes depth options bytes m channel).bind fun _ r log _ _ => ?_
      exact .pure (by simp)
    exact hnone.returned h

namespace Machine

variable {sink : Sink} {m : Machine} {vs : List Expr}

theorem Given.turns {inputs : List Input} (h : Given sink inputs m vs) :
    ∃ logs : List (List Event), (Machine.start sink).Turns logs.flatten m ∧
      List.Forall₂ (fun i log => log.map Event.demand <+: i.demands) inputs logs ∧
      ∀ v ∈ vs, v ∈ Event.values logs.flatten := by
  induction h with
  | start => exact ⟨[], .refl, .nil, by simp⟩
  | input _ depth i hi ih =>
    obtain ⟨logs, ht, hlogs, hvs⟩ := ih
    obtain ⟨log, ht', hlog, hus⟩ := Input.run_turns hi
    have hflatten : (logs ++ [log]).flatten = logs.flatten ++ log := by simp
    refine ⟨logs ++ [log], ?_, List.rel_append hlogs (.cons hlog .nil), ?_⟩
    · rw [hflatten]
      exact ht.trans ht'
    · intro v hv
      rw [hflatten, Event.mem_values_append]
      exact (List.mem_append.mp hv).imp (hvs v) (hus v)

theorem Driven.turns (h : Driven sink m vs) :
    ∃ log, (Machine.start sink).Turns log m ∧ ∀ v ∈ vs, v ∈ Event.values log := by
  obtain ⟨inputs, h⟩ := h
  obtain ⟨logs, ht, -, hvs⟩ := h.turns
  exact ⟨logs.flatten, ht, hvs⟩

end Machine

end Lisp
