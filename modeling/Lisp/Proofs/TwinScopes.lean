import Lisp.Proofs.ScopeFrames
import Lisp.Proofs.Twins

namespace Lisp

def TwinBinding (L : Link) (b c : Symbol × Expr) : Prop :=
  b.1.Twin L c.1 ∧ b.2.Twin L c.2

structure Scope.Twin (L : Link) (i j : ScopeId) (f g : Scope) : Prop where
  parent : Option.Rel (fun p q => L.scopes p q ∧ p < i ∧ q < j) f.parent g.parent
  bindings : List.Forall₂ (TwinBinding L) f.bindings g.bindings

structure Scopes.Twin (L : Link) (r₁ r₂ : Scopes) : Prop where
  unique : Relator.BiUnique L.scopes
  linked : ∀ {i j}, L.scopes i j → ∃ f g, r₁.all[i]? = some f ∧ r₂.all[j]? = some g ∧ f.Twin L i j g

variable {L L' : Link}

theorem TwinBinding.mono (hL : L.Le L') {b c : Symbol × Expr} (h : TwinBinding L b c) : TwinBinding L' b c :=
  ⟨h.1.mono hL, h.2.mono hL⟩

namespace Scope.Twin

variable {i j : ScopeId} {f g : Scope} {x y : Symbol} {v u : Expr}

theorem mono (hL : L.Le L') (h : f.Twin L i j g) : f.Twin L' i j g := by
  refine ⟨?_, h.bindings.imp fun _ _ => TwinBinding.mono hL⟩
  rcases rel_cases h.parent with ⟨hf, hg⟩ | ⟨p, q, hf, hg, hp, hlt⟩
  · rw [hf, hg]
    exact .none
  · rw [hf, hg]
    exact .some ⟨hL.scopes hp, hlt⟩

theorem put (h : f.Twin L i j g) (hx : x.Twin L y) (hv : v.Twin L u) : (f.put x v).Twin L i j (g.put y u) :=
  ⟨h.parent, Scope.insert_alike Symbol.Twin.eq_iff h.bindings hx hv⟩

end Scope.Twin

namespace Scopes.Twin

variable {r₁ r₂ : Scopes} {i j : ScopeId} {x y : Symbol} {v u : Expr}

theorem lt (h : Twin L r₁ r₂) (hi : L.scopes i j) : i < r₁.all.size ∧ j < r₂.all.size := by
  obtain ⟨f, g, hf, hg, -⟩ := h.linked hi
  exact ⟨(Array.getElem?_eq_some_iff.mp hf).1, (Array.getElem?_eq_some_iff.mp hg).1⟩

theorem own (h : Twin L r₁ r₂) (hi : L.scopes i j) (hx : x.Twin L y) :
    Option.Rel (Expr.Twin L) (r₁.own? i x) (r₂.own? j y) := by
  obtain ⟨f, g, hf, hg, hfg⟩ := h.linked hi
  simp only [own?, hf, hg, Option.bind_some]
  exact Scope.lookup_alike Symbol.Twin.eq_iff hfg.bindings hx

theorem parent (h : Twin L r₁ r₂) (hi : L.scopes i j) :
    Option.Rel (fun p q => L.scopes p q ∧ p < i ∧ q < j) (r₁.parent? i) (r₂.parent? j) := by
  obtain ⟨f, g, hf, hg, hfg⟩ := h.linked hi
  simp only [parent?, hf, hg, Option.bind_some]
  exact hfg.parent

theorem chainUpTo (h : Twin L r₁ r₂) {i j m n : Nat} (hi : L.scopes i j) (hm : i < m) (hn : j < n) :
    List.Forall₂ L.scopes (r₁.chainUpTo m i) (r₂.chainUpTo n j) := by
  induction m generalizing i j n with
  | zero => omega
  | succ m ih =>
    cases n with
    | zero => omega
    | succ n =>
      rw [Scopes.chainUpTo, Scopes.chainUpTo]
      apply List.Forall₂.cons hi
      rcases rel_cases (h.parent hi) with ⟨hp, hq⟩ | ⟨p, q, hp, hq, hlink, hpi, hqj⟩
      · rw [hp, hq]
        exact .nil
      · rw [hp, hq]
        exact ih hlink (Nat.lt_of_lt_of_le hpi (by omega)) (Nat.lt_of_lt_of_le hqj (by omega))

theorem chain (h : Twin L r₁ r₂) (hi : L.scopes i j) : List.Forall₂ L.scopes (r₁.chain i) (r₂.chain j) :=
  h.chainUpTo hi (h.lt hi).1 (h.lt hi).2

theorem probe (h : Twin L r₁ r₂) (hi : L.scopes i j) (hx : x.Twin L y) :
    Option.Rel (Expr.Twin L) (r₁.probe i x) (r₂.probe j y) := by
  rw [Scopes.probe, Scopes.probe]
  have hchain := h.chain hi
  generalize r₁.chain i = is at hchain
  generalize r₂.chain j = js at hchain
  induction hchain with
  | nil => exact .none
  | cons hk _ ih =>
    rw [List.findSome?_cons, List.findSome?_cons]
    rcases rel_cases (h.own hk hx) with ⟨hv, hu⟩ | ⟨v, u, hv, hu, hvu⟩
    · rw [hv, hu]
      exact ih
    · rw [hv, hu]
      exact .some hvu

theorem holder (h : Twin L r₁ r₂) (hi : L.scopes i j) (hx : x.Twin L y) :
    L.scopes ((r₁.holder? i x).getD i) ((r₂.holder? j y).getD j) := by
  rw [holder?, holder?]
  have hchain := h.chain hi
  generalize r₁.chain i = is at hchain
  generalize r₂.chain j = js at hchain
  induction hchain with
  | nil => exact hi
  | cons hk _ ih =>
    rw [List.find?_cons, List.find?_cons]
    rcases rel_cases (h.own hk hx) with ⟨hv, hu⟩ | ⟨v, u, hv, hu, -⟩
    · rw [hv, hu]
      exact ih
    · rw [hv, hu]
      exact hk

theorem define (h : Twin L r₁ r₂) (hi : L.scopes i j) (hx : x.Twin L y) (hv : v.Twin L u) :
    Twin L (r₁.define i x v) (r₂.define j y u) := by
  refine ⟨h.unique, ?_⟩
  intro i' j' hi'
  obtain ⟨f, g, hf, hg, hfg⟩ := h.linked hi'
  have hsame : i = i' ↔ j = j' := Relator.rel_eq h.unique hi hi'
  by_cases hi' : i = i'
  · refine ⟨f.put x v, g.put y u, ?_, ?_, hfg.put hx hv⟩
    · simp [Scopes.define, Array.getElem?_modify, hi', hf]
    · simp [Scopes.define, Array.getElem?_modify, hsame.mp hi', hg]
  · refine ⟨f, g, ?_, ?_, hfg⟩
    · simp [Scopes.define, Array.getElem?_modify, hi', hf]
    · simp [Scopes.define, Array.getElem?_modify, mt hsame.mpr hi', hg]

theorem create (h : Twin L r₁ r₂) {p q : Option ScopeId} (hp : Option.Rel L.scopes p q) :
    Twin (L.withScope r₁.all.size r₂.all.size) (r₁.create p).2 (r₂.create q).2 := by
  let L' := L.withScope r₁.all.size r₂.all.size
  have hle : L.Le L' := L.le_withScope _ _
  refine ⟨Link.upward_unique h.unique h.lt 1, ?_⟩
  intro i j hij
  rcases Link.withScope_cases hij with hi | ⟨rfl, rfl⟩
  · obtain ⟨f, g, hf, hg, hfg⟩ := h.linked hi
    have hne := Nat.ne_of_lt (h.lt hi).1
    have hne' := Nat.ne_of_lt (h.lt hi).2
    refine ⟨f, g, ?_, ?_, hfg.mono hle⟩
    · simp [Scopes.create, Array.getElem?_push, hne, hf]
    · simp [Scopes.create, Array.getElem?_push, hne', hg]
  · refine ⟨⟨p, []⟩, ⟨q, []⟩, by simp [Scopes.create], by simp [Scopes.create], ?_, .nil⟩
    cases hp with
    | none => exact .none
    | some hpq => exact .some ⟨hle.scopes hpq, h.lt hpq⟩

theorem defineAll (h : Twin L r₁ r₂) (hi : L.scopes i j) {bs cs : List (Symbol × Expr)}
    (hbs : List.Forall₂ (TwinBinding L) bs cs) :
    Twin L (bs.foldl (fun r b => r.define i b.1 b.2) r₁) (cs.foldl (fun r b => r.define j b.1 b.2) r₂) := by
  induction hbs generalizing r₁ r₂ with
  | nil => exact h
  | cons hb _ ih => exact ih (h.define hi hb.1 hb.2)

theorem enter (h : Twin L r₁ r₂) (hi : L.scopes i j) {bs cs : List (Symbol × Expr)}
    (hbs : List.Forall₂ (TwinBinding L) bs cs) :
    Twin (L.withScope r₁.all.size r₂.all.size) (r₁.enter i bs).2 (r₂.enter j cs).2 := by
  have hbs' := hbs.imp fun _ _ => TwinBinding.mono (L.le_withScope r₁.all.size r₂.all.size)
  exact (h.create (.some hi)).defineAll (L.withScope_new _ _) hbs'

end Scopes.Twin

theorem Scopes.matchUp_agree {formals formals' arguments arguments' : Expr} (hf : formals.Twin L formals')
    (ha : arguments.Twin L arguments') :
    Agree (List.Forall₂ (TwinBinding L)) (matchUp formals arguments formals arguments)
      (matchUp formals' arguments' formals' arguments') := by
  have hsymbol {x y : Symbol} (h : (Expr.symbol x).Twin L (.symbol y)) : x.Twin L y := by
    cases h with
    | symbol hx => exact hx
  exact matchUp_alike (Expr.Twin.likeness L) (Expr.Twin.likeness L) hsymbol hf ha hf ha

end Lisp
