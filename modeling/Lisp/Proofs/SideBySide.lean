import Lisp.Proofs.EvaluationDepth
import Lisp.Proofs.TwinSessions
import Mathlib.Data.Finset.Lattice.Fold
import Mathlib.Data.Finset.Range

namespace Lisp

def Sink.drained : Sink → Sink
  | buffer _ => buffer ""
  | closed => closed

theorem Sink.drained_push (k : Sink) (text : String) : (k.push text).drained = k.drained := by
  cases k <;> rfl

theorem Sink.drained_drained (k : Sink) : k.drained.drained = k.drained := by
  cases k <;> rfl

inductive Query where
  | first (source : String)
  | all (source : String)

def Query.run (depth : Nat) : Query → Run Error Machine (List Expr)
  | first source => do pure [← Machine.evaluateFirst depth source]
  | all source => Machine.evaluateAll depth source

/-- What is seen of an evaluation: its error or its values, printed and tagged, and the text that
it wrote. -/
structure Answer where
  result : Except Error (List (String × String))
  printed : String
  deriving DecidableEq

def Answer.of (r : Except Error (List Expr)) (sink : Sink) : Answer :=
  ⟨r.map (fun vs => vs.map (fun v => (v.print, v.tagged))), sink.text⟩

namespace Machine

def drained (m : Machine) : Machine :=
  { m with world.sink := m.world.sink.drained }

def ask (depth : Nat) (q : Query) (m : Machine) : Option (Answer × Machine) :=
  (q.run depth m.drained).ending?.map (fun p => (.of p.1 p.2.world.sink, p.2))

def converse (depth : Nat) : Machine → List Query → Option (List Answer)
  | _, [] => some []
  | m, q :: qs => (m.ask depth q).bind (fun p => (p.2.converse depth qs).map (p.1 :: ·))

end Machine

namespace Host

def drained (h : Host) : Host :=
  { h with world.sink := h.world.sink.drained }

def ask (depth k : Nat) (q : Query) (h : Host) : Option (Answer × Host) :=
  (h.drained.act k (q.run depth)).bind
    (fun o => o.ending?.map (fun p => (.of p.1 p.2.world.sink, p.2)))

def converse (depth : Nat) : Host → List (Nat × Query) → Option (List (Nat × Answer))
  | _, [] => some []
  | h, (k, q) :: qs => (h.ask depth k q).bind (fun p => (p.2.converse depth qs).map ((k, p.1) :: ·))

end Host

theorem Query.run_abreast {R : ScopeId → Prop} {base : Nat} {L : Link} {m₁ m₂ : Machine}
    (h : Machine.Twin R base L m₁ m₂) (depth : Nat) (q : Query) :
    Machine.Abreast R base L (fun L => List.Forall₂ (Expr.Twin L)) (q.run depth) (q.run depth) m₁ m₂ := by
  cases q with
  | first source =>
    apply (Machine.Abreast.evaluateFirst h depth source).bind
    intro L' v u m₁' m₂' _ h' hv
    exact .pure h' (.cons hv .nil)
  | all source => exact .evaluateReadings h depth _

theorem Answer.of_eq {L : Link} {r r' : Except Error (List Expr)} (h : Agree (List.Forall₂ (Expr.Twin L)) r r')
    (sink : Sink) : of r' sink = of r sink := by
  cases h with
  | error e => rfl
  | ok hvs =>
    have htext (v u : Expr) (hv : v.Twin L u) : (u.print, u.tagged) = (v.print, v.tagged) := by
      rw [hv.print, hv.tagged]
    rw [of, of, Except.map, Except.map, map_eq_of_forall₂ htext hvs]

theorem World.Twin.elsewhere {R R' : ScopeId → Prop} {base : Nat} {L : Link} {w₁ w₁' w₂ : World}
    (h : World.Twin R base L w₁ w₂) (hsame : ∀ {i j}, L.scopes i j → w₁'.scopes.all[i]? = w₁.scopes.all[i]?)
    (hn : w₁.next ≤ w₁'.next) (hR : ∀ {i j}, L.scopes i j → R' i) :
    World.Twin R' w₁'.scopes.all.size L w₁' w₂ := by
  refine ⟨⟨h.scopes.unique, ?_⟩, h.unique, ?_, Nat.le_refl _, fun hi => .inl (hR hi)⟩
  · intro i j hi
    obtain ⟨f, g, hf, hg, hfg⟩ := h.scopes.linked hi
    exact ⟨f, g, (hsame hi).trans hf, hg, hfg⟩
  · intro i j hi
    exact ⟨Nat.lt_of_lt_of_le (h.bounded hi).1 hn, (h.bounded hi).2⟩

structure World.Moves (R : ScopeId → Prop) (w w' : World) : Prop where
  spared : w.scopes.Spared R w.scopes.all.size w'.scopes
  next : w.next ≤ w'.next
  sink : w'.sink.drained = w.sink.drained

def Scopes.claimed (r : Scopes) (owner : ScopeId → Nat) (k : Nat) (i : ScopeId) : Nat :=
  if i < r.all.size then owner i else k

namespace Machine

variable {owner : ScopeId → Nat} {k k' : Nat} {w w' : World} {m₁ m₂ : Machine}

/-- The second machine stands for the session of the first one, which owns the scopes numbered `k`. -/
structure Mirrors (owner : ScopeId → Nat) (k : Nat) (m₁ m₂ : Machine) : Prop where
  twin : ∃ L, Twin (owner · = k) m₁.world.scopes.all.size L m₁ m₂
  sink : m₂.world.sink.drained = m₁.world.sink.drained

theorem Twin.drained {R : ScopeId → Prop} {base : Nat} {L : Link} (h : Twin R base L m₁ m₂) :
    Twin R base L m₁.drained m₂.drained :=
  ⟨h.session, h.world.scopes, h.world.unique, h.world.bounded, h.world.base_le, h.world.region⟩

theorem Twin.mirrors {L : Link} (h : Twin (owner · = k) w.scopes.all.size L m₁ m₂)
    (hsink : m₂.world.sink.drained = m₁.world.sink.drained) : Mirrors (w.scopes.claimed owner k) k m₁ m₂ := by
  refine ⟨⟨L, h.session, h.world.elsewhere (fun _ => rfl) (Nat.le_refl _) ?_⟩, hsink⟩
  intro i j hi
  rw [Scopes.claimed]
  split
  · rename_i hlt
    exact (h.world.region hi).resolve_right (Nat.not_le_of_lt hlt)
  · rfl

theorem Mirrors.elsewhere {s : Session} (h : Mirrors owner k ⟨s, w⟩ m₂) (hne : k ≠ k')
    (hw : w.Moves (owner · = k') w') : Mirrors (w.scopes.claimed owner k') k ⟨s, w'⟩ m₂ := by
  obtain ⟨L, hsession, hworld⟩ := h.twin
  -- All that corresponds is old and owned by `k`, so that the other session has spared it.
  have howner {i j : ScopeId} (hi : L.scopes i j) : i < w.scopes.all.size ∧ owner i = k := by
    have hlt := (hworld.scopes.lt hi).1
    exact ⟨hlt, (hworld.region hi).resolve_right (Nat.not_le_of_lt hlt)⟩
  refine ⟨⟨L, hsession, hworld.elsewhere ?_ hw.next ?_⟩, h.sink.trans hw.sink.symm⟩
  · intro i j hi
    apply hw.spared.same i (howner hi).1
    intro hi'
    exact hne ((howner hi).2.symm.trans hi')
  · intro i j hi
    rw [Scopes.claimed, if_pos (howner hi).1, (howner hi).2]

theorem Mirrors.ask (h : Mirrors owner k m₁ m₂) (depth : Nat) (q : Query) :
    (m₁.ask depth q = none ∧ m₂.ask depth q = none) ∨ ∃ a m₁' m₂', m₁.ask depth q = some (a, m₁') ∧
      m₂.ask depth q = some (a, m₂') ∧ Mirrors (m₁.world.scopes.claimed owner k) k m₁' m₂' ∧
      m₁.world.Moves (owner · = k) m₁'.world := by
  obtain ⟨L, hL⟩ := h.twin
  obtain ⟨h₁, h₂⟩ | ⟨L', r, r', m₁', m₂', h₁, h₂, hadvance, hr⟩ := (Query.run_abreast hL.drained depth q).ending
  · exact .inl ⟨by rw [Machine.ask, h₁]; rfl, by rw [Machine.ask, h₂]; rfl⟩
  · obtain ⟨text, ht₁, ht₂⟩ := hadvance.world.printed
    -- What was written before is gone on both sides, so the new texts are all there is.
    have hsink : m₂'.world.sink = m₁'.world.sink := by
      rw [ht₁, ht₂]
      exact congrArg (Sink.push · text) h.sink
    have hdrained : m₁'.world.sink.drained = m₁.world.sink.drained := by
      rw [ht₁, Sink.drained_push]
      exact Sink.drained_drained _
    have hask₁ : m₁.ask depth q = some (.of r m₁'.world.sink, m₁') := by
      rw [Machine.ask, h₁]
      rfl
    have hask₂ : m₂.ask depth q = some (.of r m₁'.world.sink, m₂') := by
      rw [Machine.ask, h₂, ← Answer.of_eq hr, ← hsink]
      rfl
    exact .inr ⟨_, m₁', m₂', hask₁, hask₂, hadvance.twin.mirrors (congrArg Sink.drained hsink),
      hadvance.world.spared, hadvance.world.next, hdrained⟩

theorem join_sink (id : Nat) (w : World) : (join id w).world.sink = w.sink := by
  simp only [join]

theorem join_moves (R : ScopeId → Prop) (id : Nat) (w : World) : w.Moves R (join id w).world := by
  have hnext : (join id w).world.next = w.next := by simp only [join]
  exact ⟨join_spared id w, Nat.le_of_eq hnext.symm, congrArg Sink.drained (join_sink id w)⟩

theorem join_mirrors (owner : ScopeId → Nat) (k : Nat) (w : World) {sink : Sink} (h : sink.drained = w.sink.drained) :
    Mirrors (w.scopes.claimed owner k) k (join k w) (start sink) := by
  apply (join_twin k w sink).mirrors
  rw [start, join_sink, join_sink]
  exact h

end Machine

namespace Host

variable {owner : ScopeId → Nat} {h : Host} {solo : Nat → Machine} {k : Nat}

def Apart (owner : ScopeId → Nat) (h : Host) (solo : Nat → Machine) : Prop :=
  ∀ k s, h.sessions[k]? = some s → Machine.Mirrors owner k ⟨s, h.world⟩ (solo k)

theorem Apart.moves {m₁ m₂ : Machine} {sessions : List Session} (hh : h.Apart owner solo)
    (hm : Machine.Mirrors (h.world.scopes.claimed owner k) k m₁ m₂) (hw : h.world.Moves (owner · = k) m₁.world)
    (hself : ∀ s, sessions[k]? = some s → s = m₁.session) (hothers : ∀ k', k' ≠ k → sessions[k']? = h.sessions[k']?) :
    Apart (h.world.scopes.claimed owner k) ⟨sessions, m₁.world⟩ (Function.update solo k m₂) := by
  intro k' s hs
  by_cases hk : k' = k
  · subst hk
    rw [Function.update_self, hself s hs]
    exact hm
  · rw [Function.update_of_ne hk]
    exact (hh k' s ((hothers k' hk).symm.trans hs)).elsewhere hk hw

theorem ask_eq {s : Session} (hk : h.sessions[k]? = some s) (depth : Nat) (q : Query) :
    h.ask depth k q = ((⟨s, h.world⟩ : Machine).ask depth q).map
      (fun p => (p.1, ⟨h.sessions.set k p.2.session, p.2.world⟩)) := by
  have hact : h.drained.act k (q.run depth) =
      some ((q.run depth).zoom (fun h => ⟨s, h.world⟩) (fun m h => ⟨h.sessions.set k m.session, m.world⟩) h.drained) :=
    congrArg (Option.map _) hk
  have hdrained : (⟨s, h.world⟩ : Machine).drained = ⟨s, h.drained.world⟩ := rfl
  rw [ask, hact, Machine.ask, hdrained, Option.bind_some, Run.zoom]
  cases q.run depth ⟨s, h.drained.world⟩ <;> rfl

theorem ask_none (hk : h.sessions[k]? = none) (depth : Nat) (q : Query) : h.ask depth k q = none := by
  have hact : h.drained.act k (q.run depth) = none := congrArg (Option.map _) hk
  rw [ask, hact, Option.bind_none]

theorem Apart.ask {s : Session} (hh : h.Apart owner solo) (hk : h.sessions[k]? = some s) (depth : Nat) (q : Query) :
    (h.ask depth k q = none ∧ (solo k).ask depth q = none) ∨ ∃ a h' m owner', h.ask depth k q = some (a, h') ∧
      (solo k).ask depth q = some (a, m) ∧ h'.sessions.length = h.sessions.length ∧
      h'.Apart owner' (Function.update solo k m) := by
  obtain ⟨h₁, h₂⟩ | ⟨a, m₁, m₂, h₁, h₂, hm, hw⟩ := (hh k s hk).ask depth q
  · exact .inl ⟨by rw [ask_eq hk, h₁]; rfl, h₂⟩
  · refine .inr ⟨a, _, m₂, _, by rw [ask_eq hk, h₁]; rfl, h₂, List.length_set, hh.moves hm hw ?_ ?_⟩
    · intro s' hs'
      rw [List.getElem?_set_self (List.getElem?_eq_some_iff.mp hk).1] at hs'
      exact (Option.some.inj hs').symm
    · intro k' hk'
      exact List.getElem?_set_ne (Ne.symm hk')

theorem Apart.join (hh : h.Apart owner solo) {sink : Sink} (hsink : sink.drained = h.world.sink.drained) :
    h.join.Apart (h.world.scopes.claimed owner h.sessions.length)
      (Function.update solo h.sessions.length (Machine.start sink)) := by
  have hm := Machine.join_mirrors owner h.sessions.length h.world hsink
  have hw := Machine.join_moves (owner · = h.sessions.length) h.sessions.length h.world
  rw [Host.join]
  generalize Machine.join h.sessions.length h.world = m at hm hw
  apply hh.moves hm hw
  · intro s hs
    rw [List.getElem?_concat_length] at hs
    exact (Option.some.inj hs).symm
  · intro k' hk'
    rcases Nat.lt_or_gt_of_ne hk' with hlt | hgt
    · exact List.getElem?_append_left hlt
    · rw [List.getElem?_eq_none (Nat.le_of_lt hgt)]
      exact List.getElem?_eq_none (by rw [List.length_append]; exact hgt)

theorem start_apart (count : Nat) (sink : Sink) :
    ∃ owner, (start count sink).Apart owner (fun _ => Machine.start sink) ∧
      (start count sink).sessions.length = count ∧ (start count sink).world.sink = sink := by
  induction count with
  | zero =>
    refine ⟨fun _ => 0, ?_, rfl, rfl⟩
    intro k s hs
    cases hs
  | succ count ih =>
    obtain ⟨owner, hh, hlength, hsink⟩ := ih
    rw [start, Nat.repeat, ← start]
    have hjoin := hh.join (congrArg Sink.drained hsink.symm)
    rw [Function.update_eq_self] at hjoin
    refine ⟨_, hjoin, ?_, ?_⟩
    · rw [Host.join, List.length_append, hlength]
      rfl
    · rw [Host.join, Machine.join_sink, hsink]

end Host

def part {α : Type} (k : Nat) (xs : List (Nat × α)) : List α :=
  (xs.filter (fun x => x.1 = k)).map Prod.snd

section

variable {α : Type}

theorem part_cons_self (k : Nat) (a : α) (xs : List (Nat × α)) : part k ((k, a) :: xs) = a :: part k xs := by
  simp [part]

theorem part_cons_ne {k k' : Nat} (h : k ≠ k') (a : α) (xs : List (Nat × α)) : part k' ((k, a) :: xs) = part k' xs := by
  simp [part, h]

end

namespace Host

structure Apportioned (depth count : Nat) (solo : Nat → Machine) (qs : List (Nat × Query))
    (answers : List (Nat × Answer)) : Prop where
  known : ∀ q ∈ qs, q.1 < count
  order : answers.map Prod.fst = qs.map Prod.fst
  alone : ∀ k < count, (solo k).converse depth (part k qs) = some (part k answers)

variable {owner : ScopeId → Nat} {h : Host} {solo : Nat → Machine} {depth count k : Nat} {q : Query} {a : Answer}
  {m : Machine}

theorem converse_part_cons (h : (solo k).ask depth q = some (a, m)) (k' : Nat) (qs : List (Nat × Query)) (b : Answer)
    (answers : List (Nat × Answer)) :
    (solo k').converse depth (part k' ((k, q) :: qs)) = some (part k' ((k, b) :: answers)) ↔
      (k' = k → a = b) ∧ (Function.update solo k m k').converse depth (part k' qs) = some (part k' answers) := by
  by_cases hk : k' = k
  · subst hk
    rw [part_cons_self, part_cons_self, Machine.converse, h, Option.bind_some, Function.update_self]
    simp [and_comm]
  · rw [part_cons_ne (Ne.symm hk), part_cons_ne (Ne.symm hk), Function.update_of_ne hk]
    simp [hk]

theorem apportioned_cons_iff (h : (solo k).ask depth q = some (a, m)) (hk : k < count) (qs : List (Nat × Query))
    (answers : List (Nat × Answer)) :
    Apportioned depth count solo ((k, q) :: qs) answers ↔
      ∃ rest, Apportioned depth count (Function.update solo k m) qs rest ∧ (k, a) :: rest = answers := by
  constructor
  · rintro ⟨hknown, horder, halone⟩
    cases answers with
    | nil => cases horder
    | cons b rest =>
      obtain ⟨k', b⟩ := b
      obtain ⟨hb, hrest⟩ := List.cons.inj horder
      obtain rfl : k' = k := hb
      have hparts (k : Nat) (hk : k < count) := (converse_part_cons h k qs b rest).mp (halone k hk)
      obtain rfl := (hparts k' hk).1 rfl
      exact ⟨rest, ⟨(List.forall_mem_cons.mp hknown).2, hrest, fun k hk => (hparts k hk).2⟩, rfl⟩
  · rintro ⟨rest, ⟨hknown, horder, halone⟩, rfl⟩
    refine ⟨List.forall_mem_cons.mpr ⟨hk, hknown⟩, congrArg (k :: ·) horder, ?_⟩
    intro k' hk'
    exact (converse_part_cons h k' qs a rest).mpr ⟨fun _ => rfl, halone k' hk'⟩

theorem Apart.converse (hh : h.Apart owner solo) (depth : Nat) (qs : List (Nat × Query))
    (answers : List (Nat × Answer)) :
    h.converse depth qs = some answers ↔ Apportioned depth h.sessions.length solo qs answers := by
  induction qs generalizing owner h solo answers with
  | nil =>
    rw [Host.converse]
    constructor
    · rintro ⟨⟩
      exact ⟨List.forall_mem_nil _, rfl, fun _ _ => rfl⟩
    · rintro ⟨-, horder, -⟩
      rw [List.map_eq_nil_iff.mp horder]
  | cons q qs ih =>
    obtain ⟨k, q⟩ := q
    rw [Host.converse]
    cases hk : h.sessions[k]? with
    | none =>
      rw [ask_none hk, Option.bind_none]
      constructor
      · rintro ⟨⟩
      · rintro ⟨hknown, -, -⟩
        have hlt := hknown (k, q) List.mem_cons_self
        exact absurd hlt (Nat.not_lt_of_le (List.getElem?_eq_none_iff.mp hk))
    | some s =>
      have hlt := (List.getElem?_eq_some_iff.mp hk).1
      obtain ⟨h₁, h₂⟩ | ⟨a, h', m, owner', h₁, h₂, hlength, hh'⟩ := hh.ask hk depth q
      · rw [h₁, Option.bind_none]
        constructor
        · rintro ⟨⟩
        · rintro ⟨-, -, halone⟩
          have hself := halone k hlt
          rw [part_cons_self, Machine.converse, h₂] at hself
          cases hself
      · rw [h₁, Option.bind_some, Option.map_eq_some_iff, apportioned_cons_iff h₂ hlt, ← hlength]
        exact exists_congr fun rest => and_congr_left' (ih hh' rest)

end Host

section

variable {depth depth' : Nat}

theorem Run.Below.within {ε α : Type} {act act' : Session → Run ε World α} (h : ∀ s, (act s).Below (act' s)) :
    (Machine.within act).Below (Machine.within act') := by
  intro m
  rw [Machine.within, Machine.within, Run.zoom, Run.zoom]
  rcases h m.session m.world with h | h
  · rw [h]
    exact .inl rfl
  · rw [h]
    exact .inr rfl

theorem Machine.evaluate_below (h : depth ≤ depth') (e : Expr) : (evaluate depth e).Below (evaluate depth' e) :=
  .within fun s => eval_below s h s.global e

theorem Machine.evaluateReadings_below (h : depth ≤ depth') (rs : List Reading) :
    (evaluateReadings depth rs).Below (evaluateReadings depth' rs) := by
  induction rs with
  | nil => exact .refl _
  | cons r rs ih =>
    obtain ⟨e | d, offset⟩ := r
    · exact .refl _
    · rw [evaluateReadings_cons, evaluateReadings_cons]
      apply ((Run.Below.refl _).bind (evaluate_below h)).bind
      intro v
      exact ih.bind fun _ => .refl _

theorem Query.run_below (h : depth ≤ depth') (q : Query) : (q.run depth).Below (q.run depth') := by
  cases q with
  | first source =>
    refine Run.Below.bind ?_ fun _ => .refl _
    rw [Machine.evaluateFirst, Machine.evaluateFirst]
    split
    · exact .refl _
    · exact .refl _
    · exact (Run.Below.refl _).bind (Machine.evaluate_below h)
  | all source => exact Machine.evaluateReadings_below h _

namespace Machine

theorem ask_deeper (h : depth ≤ depth') {q : Query} {m m' : Machine} {a : Answer} (ha : m.ask depth q = some (a, m')) :
    m.ask depth' q = some (a, m') := by
  rcases q.run_below h m.drained with hrun | hrun
  · rw [ask, hrun] at ha
    cases ha
  · rw [ask, hrun]
    exact ha

theorem converse_deeper (h : depth ≤ depth') {m : Machine} {qs : List Query} {answers : List Answer}
    (ha : m.converse depth qs = some answers) : m.converse depth' qs = some answers := by
  induction qs generalizing m answers with
  | nil => exact ha
  | cons q qs ih =>
    obtain ⟨⟨a, m'⟩, hq, hqs⟩ := Option.bind_eq_some_iff.mp ha
    obtain ⟨rest, hrest, rfl⟩ := Option.map_eq_some_iff.mp hqs
    rw [converse, ask_deeper h hq, Option.bind_some, ih hrest]
    rfl

def Answers (m : Machine) (qs : List Query) (answers : List Answer) : Prop :=
  ∃ depth, m.converse depth qs = some answers

end Machine

end

namespace Host

def Answers (h : Host) (qs : List (Nat × Query)) (answers : List (Nat × Answer)) : Prop :=
  ∃ depth, h.converse depth qs = some answers

/-- Sessions side by side, asked in any order, answer as each of them does when it is alone. -/
theorem sessions_do_not_interfere (count : Nat) (sink : Sink) (queries : List (Nat × Query))
    (answers : List (Nat × Answer)) :
    (start count sink).Answers queries answers ↔ (∀ q ∈ queries, q.1 < count) ∧
      answers.map Prod.fst = queries.map Prod.fst ∧
      ∀ k < count, (Machine.start sink).Answers (part k queries) (part k answers) := by
  obtain ⟨owner, hh, hlength, -⟩ := start_apart count sink
  have hconverse (depth : Nat) := hh.converse depth queries answers
  rw [hlength] at hconverse
  constructor
  · rintro ⟨depth, h⟩
    obtain ⟨hknown, horder, halone⟩ := (hconverse depth).mp h
    exact ⟨hknown, horder, fun k hk => ⟨depth, halone k hk⟩⟩
  · rintro ⟨hknown, horder, halone⟩
    choose! depth hdepth using halone
    refine ⟨(Finset.range count).sup depth, (hconverse _).mpr ⟨hknown, horder, ?_⟩⟩
    intro k hk
    exact Machine.converse_deeper (Finset.le_sup (Finset.mem_range.mpr hk)) (hdepth k hk)

theorem sessions_do_not_interfere_set :
    (start 2 (.buffer "")).Answers [(0, .first "(set x 1)"), (1, .first "x"), (0, .first "(print x)")]
      [(0, ⟨.ok [("1", "#1")], ""⟩), (1, ⟨.error (.unbound "X"), ""⟩), (0, ⟨.ok [("NIL", "$NIL")], "1 \n"⟩)] ∧
    (Machine.start (.buffer "")).Answers [.first "(set x 1)", .first "(print x)"]
      [⟨.ok [("1", "#1")], ""⟩, ⟨.ok [("NIL", "$NIL")], "1 \n"⟩] := by
  have h : (start 2 (.buffer "")).Answers [(0, .first "(set x 1)"), (1, .first "x"), (0, .first "(print x)")]
      [(0, ⟨.ok [("1", "#1")], ""⟩), (1, ⟨.error (.unbound "X"), ""⟩), (0, ⟨.ok [("NIL", "$NIL")], "1 \n"⟩)] :=
    ⟨4, by decide +kernel⟩
  exact ⟨h, ((sessions_do_not_interfere 2 _ _ _).mp h).2.2 0 Nat.two_pos⟩

end Host

end Lisp
