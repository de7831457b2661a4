import Lisp.Machine
import Lisp.Proofs.ConfinedEvaluation

namespace Lisp

open Run (Confined)
open World (Alike Parallel Kept)

variable {R : ScopeId → Prop} {base : Nat} {w₁ w₂ : World}

def Outcome.ending? {ε σ α : Type} : Outcome ε σ α → Option (Except ε α × σ)
  | value a s => some (.ok a, s)
  | error e s => some (.error e, s)
  | exhausted => none

theorem Run.Confined.ending {x : Run Error World Expr} (hx : Confined R base (Kept R base) x w₁ w₂)
    {result : Except Error Expr} {w₁' : World} (h : (x w₁).ending? = some (result, w₁')) :
    ∃ w₂', (x w₂).ending? = some (result, w₂') ∧ Parallel R base w₁ w₂ w₁' w₂' ∧
      ∀ v, result = .ok v → Kept R base v w₁'.scopes := by
  cases hx with
  | value h₁ h₂ hp hv =>
    rw [h₁] at h
    cases h
    exact ⟨_, by rw [h₂]; rfl, hp, fun _ he => Except.ok.inj he ▸ hv⟩
  | error h₁ h₂ hp =>
    rw [h₁] at h
    cases h
    exact ⟨_, by rw [h₂]; rfl, hp, fun _ he => nomatch he⟩
  | exhausted h₁ h₂ => simp [h₁, Outcome.ending?] at h

theorem Scopes.region_start {r : Scopes} {j : ScopeId} : r.Region R r.all.size j ↔ R j :=
  ⟨fun h => h.resolve_right (fun ⟨hb, hs⟩ => Nat.not_lt.mpr hb hs), .inl⟩

namespace World

theorem alike_of_reach {roots : ScopeId → Prop} (hsize : w₂.scopes.all.size = w₁.scopes.all.size)
    (hnext : w₂.next = w₁.next) (hsame : ∀ i, w₁.scopes.Reach roots i → w₂.scopes.all[i]? = w₁.scopes.all[i]?) :
    Alike (w₁.scopes.Reach roots) w₁.scopes.all.size w₁ w₂ := by
  refine ⟨⟨Nat.le_refl _, hsize, fun i hi => hsame i (Scopes.region_start.mp hi), ?_⟩, hnext⟩
  intro i f hi hf j hj
  rw [Scopes.region_start] at hi ⊢
  exact Scopes.closed_reach _ _ i f hi hf j hj

def alter (g : ScopeId) (f : Scope → Scope) (w : World) : World :=
  { w with scopes := ⟨w.scopes.all.modify g f⟩ }

theorem alter_get? (g : ScopeId) (f : Scope → Scope) (w : World) (i : ScopeId) :
    (w.alter g f).scopes.all[i]? = if g = i then w.scopes.all[i]?.map f else w.scopes.all[i]? := by
  simp [alter, Array.getElem?_modify]

theorem alike_alter {roots : ScopeId → Prop} {g : ScopeId} (hg : ¬ w₁.scopes.Reach roots g) (f : Scope → Scope) :
    Alike (w₁.scopes.Reach roots) w₁.scopes.all.size w₁ (w₁.alter g f) := by
  refine alike_of_reach (by simp [alter]) rfl fun i hi => ?_
  have hne : g ≠ i := by
    rintro rfl
    exact hg hi
  rw [alter_get?, if_neg hne]

theorem Parallel.alter {w₁' w₂' : World} {g : ScopeId} {f : Scope → Scope}
    (h : Parallel R base w₁ (w₁.alter g f) w₁' w₂') (hb : g < base) (hg : ¬ R g) : w₂' = w₁'.alter g f := by
  have hsink : w₂'.sink = w₁'.sink := by
    obtain ⟨text, h₁, h₂⟩ := h.printed
    rw [h₁, h₂]
    rfl
  have hscopes : w₂'.scopes.all = (w₁'.alter g f).scopes.all := by
    -- outside the region both worlds are as they began, and inside it they agree
    apply Array.ext_getElem?
    intro i
    rw [alter_get?]
    by_cases he : g = i
    · subst he
      rw [if_pos rfl, h.right.same g hb hg, h.left.same g hb hg, alter_get?, if_pos rfl]
    · rw [if_neg he]
      by_cases hi : w₁'.scopes.Region R base i
      · exact h.alike.scopes.same i hi
      · obtain ⟨hr, hn⟩ := not_or.mp hi
        by_cases hlt : i < base
        · rw [h.right.same i hlt hr, h.left.same i hlt hr, alter_get?, if_neg he]
        · have hge : w₁'.scopes.all.size ≤ i := by
            apply Nat.le_of_not_lt
            exact fun hs => hn ⟨Nat.le_of_not_lt hlt, hs⟩
          rw [Array.getElem?_eq_none hge, Array.getElem?_eq_none (h.alike.scopes.size ▸ hge)]
  obtain ⟨⟨all⟩, next, sink⟩ := w₂'
  cases hsink
  cases hscopes
  cases h.alike.next
  rfl

end World

theorem Eval.cond_congr {s s' : Session} (hs : s'.symbols = s.symbols) (ev : Evaluator) (scope : ScopeId)
    (e : Expr) : cond s' ev scope e = cond s ev scope e := by
  induction e with
  | pair i clause clauses _ ih => rw [cond, cond, hs, ih]
  | _ => simp only [cond, Session.nil, hs]

theorem eval_congr {s s' : Session} (hs : s'.symbols = s.symbols) (hp : s'.primitives = s.primitives)
    (depth : Nat) : eval s' depth = eval s depth := by
  induction depth with
  | zero => rfl
  | succ depth ih =>
    rw [eval, eval, ih]
    funext scope e
    cases e with
    | pair i head tail =>
      have hk : s'.keyword? = s.keyword? := by
        funext x
        rw [Session.keyword?, Session.keyword?, hs]
      have hc : Eval.call s' = Eval.call s := by
        funext ev scope head tail
        simp only [Eval.call, Eval.apply, Session.nil, Session.primitive?, hs, hp]
      rw [Eval.step, Eval.step, hk, hc, Eval.cond_congr hs]
    | _ => rfl

namespace Machine

def Reach (m : Machine) (scope : ScopeId) (e : Expr) : ScopeId → Prop :=
  m.world.scopes.Reach (fun i => i = scope ∨ e.Keeps i)

def alter (g : ScopeId) (f : Scope → Scope) (m : Machine) : Machine :=
  { m with world := m.world.alter g f }

theorem evaluateIn_ending (depth : Nat) (scope : ScopeId) (e : Expr) (m : Machine) :
    (evaluateIn depth scope e m).ending? =
      (eval m.session depth scope e m.world).ending?.map (fun p => (p.1, { m with world := p.2 })) := by
  simp only [evaluateIn, within, Run.zoom]
  cases eval m.session depth scope e m.world <;> rfl

theorem evaluateIn_ending_eq_some {depth : Nat} {scope : ScopeId} {e : Expr} {m m' : Machine}
    {result : Except Error Expr} :
    (evaluateIn depth scope e m).ending? = some (result, m') ↔
      (eval m.session depth scope e m.world).ending? = some (result, m'.world) ∧ m'.session = m.session := by
  rw [evaluateIn_ending, Option.map_eq_some_iff]
  constructor
  · rintro ⟨⟨_, w⟩, h, he⟩
    cases he
    exact ⟨h, rfl⟩
  · rintro ⟨h, hs⟩
    refine ⟨(result, m'.world), h, ?_⟩
    rw [← hs]

theorem evaluateIn_confined {m : Machine} {w : World} {scope : ScopeId} {e : Expr} (depth : Nat)
    (h : Alike (m.Reach scope e) m.world.scopes.all.size m.world w) :
    Confined (m.Reach scope e) m.world.scopes.all.size (Kept (m.Reach scope e) m.world.scopes.all.size)
      (eval m.session depth scope e) m.world w :=
  eval_confined m.session depth _ _ scope e h (.inl (.root (.inl rfl)))
    (fun _ hj => .inl (.root (.inr hj)))

theorem evaluateIn_alter (depth : Nat) {scope : ScopeId} {e : Expr} {m : Machine} {g : ScopeId}
    (hg : g < m.world.scopes.all.size) (hr : ¬ m.Reach scope e g) (f : Scope → Scope) :
    evaluateIn depth scope e (m.alter g f) = (evaluateIn depth scope e m).mapState (alter g f) := by
  simp only [evaluateIn, within, Run.zoom]
  cases evaluateIn_confined depth (World.alike_alter hr f) with
  | value h₁ h₂ h ha =>
    simp only [alter] at h₂ ⊢
    rw [h₁, h₂, h.alter hg hr]
    rfl
  | error h₁ h₂ h =>
    simp only [alter] at h₂ ⊢
    rw [h₁, h₂, h.alter hg hr]
    rfl
  | exhausted h₁ h₂ =>
    simp only [alter] at h₂ ⊢
    rw [h₁, h₂]
    rfl

/-- Evaluation changes, keeps and depends on nothing but what it can reach and what it makes. -/
theorem evaluateIn_frame {depth : Nat} {scope : ScopeId} {e : Expr} {m m' : Machine} {result : Except Error Expr}
    (h : (evaluateIn depth scope e m).ending? = some (result, m')) :
    (∀ i, i < m.world.scopes.all.size → ¬ m.Reach scope e i → m'.world.scopes.all[i]? = m.world.scopes.all[i]?) ∧
    (∀ j, m'.world.scopes.Reach (fun i => m.Reach scope e i ∨ ∃ v, result = .ok v ∧ v.Keeps i) j →
      m.Reach scope e j ∨ m.world.scopes.all.size ≤ j ∧ j < m'.world.scopes.all.size) ∧
    (∀ n : Machine, n.session.symbols = m.session.symbols → n.session.primitives = m.session.primitives →
      n.world.next = m.world.next → n.world.scopes.all.size = m.world.scopes.all.size →
      (∀ i, m.Reach scope e i → n.world.scopes.all[i]? = m.world.scopes.all[i]?) →
      ∃ n' text, (evaluateIn depth scope e n).ending? = some (result, n') ∧
        m'.world.sink = m.world.sink.push text ∧ n'.world.sink = n.world.sink.push text ∧
        m'.session = m.session ∧ n'.session = n.session ∧
        n'.world.next = m'.world.next ∧ n'.world.scopes.all.size = m'.world.scopes.all.size ∧
        (∀ i, m.Reach scope e i ∨ m.world.scopes.all.size ≤ i →
          n'.world.scopes.all[i]? = m'.world.scopes.all[i]?) ∧
        ∀ i, i < m.world.scopes.all.size → ¬ m.Reach scope e i →
          n'.world.scopes.all[i]? = n.world.scopes.all[i]?) ∧
    (∀ g, g < m.world.scopes.all.size → ¬ m.Reach scope e g → ∀ f,
      evaluateIn depth scope e (m.alter g f) = (evaluateIn depth scope e m).mapState (alter g f)) ∧
    evaluate depth e m = evaluateIn depth m.session.global e m := by
  obtain ⟨hrun, hsession⟩ := evaluateIn_ending_eq_some.mp h
  have hself : Alike (m.Reach scope e) m.world.scopes.all.size m.world m.world :=
    World.alike_of_reach rfl rfl (fun _ _ => rfl)
  obtain ⟨_, -, hp, hv⟩ := (evaluateIn_confined depth hself).ending hrun
  refine ⟨hp.left.same, ?_, ?_, fun g hg hr f => evaluateIn_alter depth hg hr f, rfl⟩
  · intro j hj
    refine hp.alike.scopes.closed.reach ?_ hj
    rintro i (hi | ⟨v, rfl, hi⟩)
    · exact .inl hi
    · exact hv v rfl i hi
  · intro n hsymbols hprimitives hnext hsize hsame
    have halike := World.alike_of_reach hsize hnext hsame
    obtain ⟨w, hn, hw, -⟩ := (evaluateIn_confined depth halike).ending hrun
    obtain ⟨text, hm', hn'⟩ := hw.printed
    rw [← eval_congr hsymbols hprimitives] at hn
    refine ⟨{ n with world := w }, text, evaluateIn_ending_eq_some.mpr ⟨hn, rfl⟩, hm', hn', hsession, rfl,
      hw.alike.next, hw.alike.scopes.size, ?_, hw.right.same⟩
    rintro i (hi | hi)
    · exact hw.alike.scopes.same i (.inl hi)
    · by_cases hlt : i < m'.world.scopes.all.size
      · exact hw.alike.scopes.same i (.inr ⟨hi, hlt⟩)
      · have hge := Nat.le_of_not_lt hlt
        rw [Array.getElem?_eq_none hge, Array.getElem?_eq_none (hw.alike.scopes.size ▸ hge)]

theorem evaluateIn_frame_detached :
    ∃ (m m' : Machine) (e : Expr), e.print = "(SET Y 5)" ∧ ¬ m.Reach 1 e m.session.global ∧
      (evaluateIn 2 1 e m).ending? = some (.ok (.number 5), m') ∧
      m'.world.scopes.all[1]? = some ⟨none, [(⟨0, 6, "Y"⟩, .number 5)]⟩ ∧
      m'.world.scopes.all[m.session.global]? = m.world.scopes.all[m.session.global]? ∧
      ∀ f, evaluateIn 2 1 e (m.alter m.session.global f) =
        (evaluateIn 2 1 e m).mapState (alter m.session.global f) := by
  let global : Scope := ⟨none, [(Keyword.t.symbol 0, .keyword .t 0)]⟩
  let m : Machine := ⟨⟨.initial 0, [], 0⟩, ⟨⟨#[global, ⟨none, []⟩]⟩, 9, .buffer ""⟩⟩
  let e : Expr := .pair 0 (.keyword .set 0) (.pair 1 (.symbol ⟨0, 6, "Y"⟩) (.pair 2 (.number 5) (.nil 0)))
  have hr : ¬ m.Reach 1 e m.session.global := by
    intro hr
    have hc : Scopes.Closed (fun i => i = 1) m.world.scopes := by
      rintro i f rfl hf j hj
      obtain rfl := Option.some.inj hf
      rcases hj with hj | ⟨b, hb, -⟩
      · cases hj
      · cases hb
    have hroots : ∀ i, (i = 1 ∨ e.Keeps i) → i = 1 := by simp [e, Expr.Keeps, Expr.keyword, Expr.nil]
    exact absurd (hc.reach hroots hr) (by decide)
  have hrun : (evaluateIn 2 1 e m).ending? =
      some (.ok (.number 5), m.alter 1 (fun _ => ⟨none, [(⟨0, 6, "Y"⟩, .number 5)]⟩)) := rfl
  have hframe := evaluateIn_frame hrun
  exact ⟨m, _, e, by decide +kernel, hr, hrun, rfl, hframe.1 0 (by decide) hr, hframe.2.2.2.1 0 (by decide) hr⟩

end Machine

end Lisp
