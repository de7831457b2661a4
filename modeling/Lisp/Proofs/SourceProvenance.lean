import Lisp.Proofs.CodeProvenance
import Lisp.Proofs.SessionInputs
import Lisp.Proofs.ScopeStructure

namespace Lisp

theorem Expr.sub_pair_iff {e h t : Expr} {i : Ident} : e.Sub (pair i h t) ↔ e = pair i h t ∨ e.Sub h ∨ e.Sub t := by
  constructor
  · intro hs
    cases hs with
    | refl => exact .inl rfl
    | head hs => exact .inr (.inl hs)
    | tail hs => exact .inr (.inr hs)
  · rintro (rfl | hs | hs)
    · exact .refl
    · exact .head hs
    · exact .tail hs

def Expr.Numbered (first last : Nat) (e : Expr) : Prop :=
  ∀ (i : Nat) (h t : Expr), (pair i h t).Sub e → first ≤ i ∧ i < last

namespace Expr.Numbered

variable {a b a' b' : Nat}

theorem mono {e : Expr} (he : e.Numbered a b) (ha : a' ≤ a) (hb : b ≤ b') : e.Numbered a' b' := by
  intro i h t hs
  have := he i h t hs
  omega

theorem symbol (x : Symbol) : (Expr.symbol x).Numbered a b := by
  intro i h t hs
  cases hs

theorem pair {h t : Expr} (hh : h.Numbered a b) (ht : t.Numbered a b) (hab : a ≤ b) :
    (Expr.pair b h t).Numbered a (b + 1) := by
  intro i h' t' hs
  rcases sub_pair_iff.mp hs with hs | hs | hs
  · cases hs
    omega
  · have := hh i h' t' hs
    omega
  · have := ht i h' t' hs
    omega

end Expr.Numbered

theorem Datum.toExpr_numbered (d : Datum) (s : Supply) :
    s.next ≤ (d.toExpr s).2.next ∧ (d.toExpr s).1.FunctionFree ∧
      (d.toExpr s).1.Numbered s.next (d.toExpr s).2.next := by
  induction d generalizing s with
  | literal text =>
    rw [toExpr, literalExpr]
    cases Decimal.toInt64? text.toList with
    | some n =>
      refine ⟨Nat.le_refl _, trivial, ?_⟩
      intro i h t hs
      cases hs
    | none => exact ⟨Nat.le_refl _, trivial, .symbol _⟩
  | string text =>
    refine ⟨Nat.le_succ _, trivial, ?_⟩
    intro i h t hs
    cases hs
  | nil => exact ⟨Nat.le_refl _, trivial, .symbol _⟩
  | quoted d ih =>
    obtain ⟨hle, hfree, hnum⟩ := ih s
    have hle' := Nat.le_succ_of_le hle
    exact ⟨Nat.le_succ_of_le hle', ⟨trivial, hfree, trivial⟩,
      Expr.Numbered.pair (.symbol _) (hnum.pair (.symbol _) hle) hle'⟩
  | pair h t ihh iht =>
    obtain ⟨hle, hfree, hnum⟩ := ihh s
    obtain ⟨hle', hfree', hnum'⟩ := iht (h.toExpr s).2
    have hpair := (hnum.mono (Nat.le_refl _) hle').pair (hnum'.mono hle (Nat.le_refl _)) (Nat.le_trans hle hle')
    exact ⟨Nat.le_succ_of_le (Nat.le_trans hle hle'), ⟨hfree, hfree'⟩, hpair⟩

namespace Machine

open Event (values evaluations mem_values_append mem_evaluations_append)

def Handed (log : List Event) (e : Expr) : Prop :=
  ∃ x ∈ evaluations log, x.code = e

def Carries (m : Machine) (log : List Event) (params body : Expr) : Prop :=
  (∃ v ∈ values log, v.Carries params body) ∨
    ∃ (i : ScopeId) (f : Scope), m.world.scopes.all[i]? = some f ∧ ∃ b ∈ f.bindings, b.2.Carries params body

/-- What the turns of a session keep up: the code of functions is from the texts, and identities are
given out in ascending order, so that those of the texts lie between those of the evaluations. -/
structure Sound (log : List Event) (m : Machine) : Prop where
  functionFree : ∀ e, Handed log e → e.FunctionFree
  values : ∀ v ∈ values log, v.Clean (Handed log)
  scopes : m.world.scopes.Clean (Handed log)
  past : ∀ x ∈ evaluations log, x.last ≤ m.world.next
  apart : ∀ e, Handed log e → ∀ (i : Nat) (h t : Expr), (Expr.pair i h t).Sub e →
    i < m.world.next ∧ ∀ x ∈ evaluations log, i < x.first ∨ x.last ≤ i

theorem start_sound (sink : Sink) : (start sink).Sound [] := by
  have hscopes : (start sink).world.scopes.Clean (Handed []) := by
    have hbound : ∀ b ∈ (start sink).session.constants.map (fun x => (x, Expr.symbol x)), b.2.Clean (Handed []) := by
      intro b hb
      obtain ⟨x, -, rfl⟩ := List.mem_map.mp hb
      exact Expr.clean_symbol x
    have hjoin : (start sink).world.scopes = _ := join_scopes 0 (.initial sink)
    rw [hjoin]
    exact (Scopes.Every.empty.create none).defineAll hbound _
  have nobody {e : Expr} : ¬ Handed [] e := by simp [Handed, evaluations]
  refine ⟨fun e he => absurd he nobody, by simp [Event.values], hscopes, by simp [evaluations], ?_⟩
  intro e he
  exact absurd he nobody

theorem realize_numbered {d : Datum} {e : Expr} {m m' : Machine}
    (h : (realize d : Run Error Machine Expr) m = .value e m') :
    m.world.next ≤ m'.world.next ∧ e.FunctionFree ∧ e.Numbered m.world.next m'.world.next ∧
      m'.world.scopes = m.world.scopes := by
  obtain ⟨hle, hfree, hnum⟩ := d.toExpr_numbered ⟨m.session.symbols, m.world.next⟩
  cases h
  exact ⟨hle, hfree, hnum, rfl⟩

theorem Sound.read {log : List Event} {m m' : Machine} (hm : m.Sound log) {d : Datum} {e : Expr}
    (he : (realize d : Run Error Machine Expr) m = .value e m') : m'.Sound (log ++ [.read d e]) := by
  obtain ⟨hle, hfree, -, hscopes⟩ := realize_numbered he
  have hsame : evaluations (log ++ [.read d e]) = evaluations log := by
    simp [evaluations, Event.evaluation?, List.filterMap_append]
  have hhanded : Handed (log ++ [.read d e]) = Handed log := by
    unfold Handed
    rw [hsame]
  constructor
  · rw [hhanded]
    exact hm.functionFree
  · rw [hhanded]
    intro v hv
    rcases mem_values_append.mp hv with hv | hv
    · exact hm.values v hv
    · obtain rfl : v = e := by simpa [Event.values, Event.value?] using hv
      exact Expr.clean_of_functionFree hfree
  · rw [hhanded, hscopes]
    exact hm.scopes
  · rw [hsame]
    intro x hx
    exact Nat.le_trans (hm.past x hx) hle
  · rw [hhanded, hsame]
    intro e' he' i h t hs
    obtain ⟨hi, hx⟩ := hm.apart e' he' i h t hs
    exact ⟨Nat.lt_of_lt_of_le hi hle, hx⟩

theorem Sound.run {log : List Event} {m m₁ m₂ : Machine} (hm : m.Sound log) {d : Datum} {e : Expr} {depth : Nat}
    {r : Except Error Expr} (he : (realize d : Run Error Machine Expr) m = .value e m₁)
    (hr : (evaluate depth e m₁).ending? = some (r, m₂)) :
    m₂.Sound (log ++ [.run d ⟨e, r, m₁.world.next, m₂.world.next⟩]) := by
  obtain ⟨hle, hfree, hnum, hscopes⟩ := realize_numbered he
  let x : Evaluation := ⟨e, r, m₁.world.next, m₂.world.next⟩
  have hmem {y : Evaluation} : y ∈ evaluations (log ++ [.run d x]) ↔ y ∈ evaluations log ∨ y = x := by
    rw [mem_evaluations_append]
    simp [evaluations, Event.evaluation?]
  have hhanded {e' : Expr} : Handed (log ++ [.run d x]) e' ↔ Handed log e' ∨ e' = e := by
    simp only [Handed, hmem]
    constructor
    · rintro ⟨y, hy | rfl, rfl⟩
      · exact .inl ⟨y, hy, rfl⟩
      · exact .inr rfl
    · rintro (⟨y, hy, rfl⟩ | rfl)
      · exact ⟨y, .inl hy, rfl⟩
      · exact ⟨x, .inr rfl, rfl⟩
  have hmore : ∀ e', Handed log e' → Handed (log ++ [.run d x]) e' := fun _ h => hhanded.mpr (.inl h)
  have hfree' : ∀ e', Handed (log ++ [.run d x]) e' → e'.FunctionFree := by
    intro e' h
    rcases hhanded.mp h with h | rfl
    · exact hm.functionFree e' h
    · exact hfree
  have hclean : m₁.world.scopes.Clean (Handed (log ++ [.run d x])) := by
    rw [hscopes]
    exact hm.scopes.mono fun _ hb => hb.mono hmore
  obtain ⟨hle', hscopes', hvalue⟩ := eval_clean hfree' hclean ⟨e, hhanded.mpr (.inr rfl), .refl⟩
    (evaluateIn_ending_eq_some.mp hr).1
  refine ⟨hfree', ?_, hscopes', ?_, ?_⟩
  · intro v hv
    rcases mem_values_append.mp hv with hv | hv
    · exact (hm.values v hv).mono hmore
    · apply hvalue v
      cases r with
      | error err => simp [Event.values, Event.value?, Except.toOption] at hv
      | ok u => simpa [Event.values, Event.value?, Except.toOption, eq_comm] using hv
  · intro y hy
    rcases hmem.mp hy with hy | rfl
    · exact Nat.le_trans (hm.past y hy) (Nat.le_trans hle hle')
    · exact Nat.le_refl _
  · intro e' h' i h t hs
    rcases hhanded.mp h' with h' | rfl
    · -- an earlier text: its pairs are older than all that this evaluation makes
      obtain ⟨hi, hy⟩ := hm.apart e' h' i h t hs
      refine ⟨Nat.lt_of_lt_of_le hi (Nat.le_trans hle hle'), ?_⟩
      intro y hmy
      rcases hmem.mp hmy with hmy | rfl
      · exact hy y hmy
      · exact .inl (Nat.lt_of_lt_of_le hi hle)
    · -- this text: its pairs are newer than all evaluations before
      obtain ⟨hi, hi'⟩ := hnum i h t hs
      refine ⟨Nat.lt_of_lt_of_le hi' hle', ?_⟩
      intro y hmy
      rcases hmem.mp hmy with hmy | rfl
      · exact .inr (Nat.le_trans (hm.past y hmy) hi)
      · exact .inl hi'

theorem Turns.sound {log : List Event} {sink : Sink} {m : Machine} (h : (start sink).Turns log m) : m.Sound log := by
  induction h with
  | refl => exact start_sound sink
  | write _ sink ih => exact ⟨ih.functionFree, ih.values, ih.scopes, ih.past, ih.apart⟩
  | read _ _ he ih => exact ih.read he
  | run _ _ he hr ih => exact ih.run he hr

/-- Data is never run as code. A session that is given texts does nothing but take turns, and in these it
deals with the expressions in the texts one after another. However it has come to where it is by turns, the
parameters and the body of every function in it stand in one of the expressions that were read and handed to
evaluation, and none of their pairs was made by an evaluation. -/
theorem function_code_read (sink : Sink) (m : Machine) :
    (∀ inputs vs, Given sink inputs m vs → ∃ logs : List (List Event), (start sink).Turns logs.flatten m ∧
      List.Forall₂ (fun i log => log.map Event.demand <+: i.demands) inputs logs ∧
      ∀ v ∈ vs, v ∈ values logs.flatten) ∧
    ∀ log, (start sink).Turns log m → ∀ params body, m.Carries log params body →
      ∃ x ∈ evaluations log, params.Sub x.code ∧ body.Sub x.code ∧
        ∀ (i : Ident) (h t : Expr), (Expr.pair i h t).Sub params ∨ (Expr.pair i h t).Sub body →
          ∀ y ∈ evaluations log, ¬ (y.first ≤ i ∧ i < y.last) := by
  refine ⟨fun inputs vs h => h.turns, ?_⟩
  intro log hturns params body hcarries
  have hm := hturns.sound
  obtain ⟨e, ⟨x, hx, rfl⟩, hp, hb⟩ : ∃ e, Handed log e ∧ params.Sub e ∧ body.Sub e := by
    rcases hcarries with ⟨v, hv, hc⟩ | ⟨i, f, hf, b, hb, hc⟩
    · exact hm.values v hv params body hc
    · exact hm.scopes i f hf b hb params body hc
  refine ⟨x, hx, hp, hb, ?_⟩
  intro i h t hs y hy
  have hsub : (Expr.pair i h t).Sub x.code := hs.elim (fun hs => hs.trans hp) (fun hs => hs.trans hb)
  obtain ⟨-, hapart⟩ := hm.apart x.code ⟨x, hx, rfl⟩ i h t hsub
  rintro ⟨hfirst, hlast⟩
  rcases hapart y hy with hlt | hle
  · exact absurd hfirst (Nat.not_le_of_lt hlt)
  · exact absurd hlast (Nat.not_lt_of_le hle)

theorem function_code_read_variadic :
    let define : Input := .all "(defun (f . xs) (cons xs '(1 . 2)))"
    let call : Input := .first "(f 1 2)"
    ∃ (m : Machine) (vs : List Expr) (first second : List Event) (params body : Expr),
      Given .closed [define, call] m vs ∧ (start .closed).Turns (first ++ second) m ∧
      first.map Event.demand <+: define.demands ∧ second.map Event.demand <+: call.demands ∧
      m.Carries (first ++ second) params body ∧ body.print = "(CONS XS (QUOTE (1 . 2)))" ∧
      ∃ x ∈ evaluations (first ++ second), params.Sub x.code ∧ body.Sub x.code := by
  intro define call
  let xs : Expr := .symbol ⟨0, 34, "XS"⟩
  let quoted : Expr := .pair 3 (.keyword .quote 0) (.pair 2 (.pair 1 (.number 1) (.number 2)) (.nil 0))
  let body : Expr := .pair 6 (.symbol ⟨0, 10, "CONS"⟩) (.pair 5 xs (.pair 4 quoted (.nil 0)))
  have hrun : ((define.run 3 (.start .closed)).bind fun r₁ => (call.run 3 r₁.2).bind fun r₂ =>
      r₂.2.world.scopes.own? 0 ⟨0, 33, "F"⟩) = some (.function 10 xs body 0) := by decide +kernel
  obtain ⟨r₁, h₁, hrest⟩ := Option.bind_eq_some_iff.mp hrun
  obtain ⟨r₂, h₂, hown⟩ := Option.bind_eq_some_iff.mp hrest
  have hgiven : Given .closed [define, call] r₂.2 ([] ++ r₁.1 ++ r₂.1) := .input (.input .start 3 define h₁) 3 call h₂
  obtain ⟨g, hg, hlookup⟩ := Option.bind_eq_some_iff.mp hown
  obtain ⟨before, after, hbindings, -⟩ := List.lookup_eq_some_iff.mp hlookup
  have hmem : (⟨0, 33, "F"⟩, .function 10 xs body 0) ∈ g.bindings := by simp [hbindings]
  obtain ⟨logs, hturns, hlogs, -⟩ := (function_code_read .closed r₂.2).1 _ _ hgiven
  obtain ⟨first, rest, hfirst, hrest, rfl⟩ := List.forall₂_cons_left_iff.mp hlogs
  obtain ⟨second, none, hsecond, hnone, rfl⟩ := List.forall₂_cons_left_iff.mp hrest
  obtain rfl := List.forall₂_nil_left_iff.mp hnone
  have hflatten : [first, second].flatten = first ++ second := by simp
  rw [hflatten] at hturns
  have hcarries : r₂.2.Carries (first ++ second) xs body := .inr ⟨0, g, hg, _, hmem, .inl ⟨rfl, rfl⟩⟩
  obtain ⟨x, hx, hp, hb, -⟩ := (function_code_read .closed r₂.2).2 _ hturns xs body hcarries
  exact ⟨r₂.2, _, first, second, xs, body, hgiven, hturns, hfirst, hsecond, hcarries, by decide +kernel, x, hx, hp, hb⟩

end Machine

end Lisp
