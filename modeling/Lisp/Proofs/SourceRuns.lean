import Lisp.Proofs.SessionInputs
import Lisp.Proofs.SymbolOwnership

namespace Lisp

namespace Machine

open Event (values mem_values_append)

structure Onward (m m' : Machine) : Prop where
  owned : m'.Owned
  grown : m.session.symbols.Extends m'.session.symbols

theorem Onward.refl {m : Machine} (hm : m.Owned) : m.Onward m :=
  ⟨hm, .refl _⟩

theorem Onward.trans {m m' m'' : Machine} (h : m.Onward m') (h' : m'.Onward m'') : m.Onward m'' :=
  ⟨h'.owned, h.grown.trans h'.grown⟩

variable {sink : Sink} {m m' : Machine} {vs : List Expr}

theorem realize_owned (hm : m.Owned) {d : Datum} {e : Expr}
    (h : (realize d : Run Error Machine Expr) m = .value e m') : m.Onward m' ∧ e.Owned m'.session.symbols := by
  obtain ⟨hr, hx, he⟩ := d.toExpr_owned ⟨m.session.symbols, m.world.next⟩ hm.session.symbols
  have hheld : ∀ b ∈ m.session.primitives,
      (d.toExpr ⟨m.session.symbols, m.world.next⟩).2.symbols.Holds b.1 :=
    fun b hb => (hm.session.held b hb).mono hx
  cases h
  exact ⟨⟨⟨⟨hr, hheld, hm.session.named⟩, hm.scopes.mono hx⟩, hx⟩, he⟩

theorem evaluate_owned (hm : m.Owned) {depth : Nat} {e : Expr} (he : e.Owned m.session.symbols)
    {r : Except Error Expr} (h : (evaluate depth e m).ending? = some (r, m')) :
    m.Onward m' ∧ ∀ v, r = .ok v → v.Owned m'.session.symbols := by
  let I := Invariant.owned m.session.symbols hm.session.symbols
  have hkeeps := I.eval_keeps rfl depth m.world m.session.global e hm.scopes trivial he
  obtain ⟨heval, hsession⟩ := evaluateIn_ending_eq_some.mp h
  have onward (hw : I.Since m.world m'.world) : m.Onward m' := by
    refine ⟨⟨by rw [hsession]; exact hm.session, by rw [hsession]; exact hw.1⟩, ?_⟩
    rw [hsession]
    exact .refl _
  rw [hsession]
  obtain ⟨v, rfl, hw, hv⟩ | ⟨err, rfl, hw⟩ := hkeeps.ending heval
  · refine ⟨onward hw, ?_⟩
    rintro _ ⟨⟩
    exact hv
  · refine ⟨onward hw, ?_⟩
    rintro _ ⟨⟩

theorem Turns.owned {log : List Event} (h : m.Turns log m') (hm : m.Owned) :
    m.Onward m' ∧ ∀ v ∈ values log, v.Owned m'.session.symbols := by
  -- what came of earlier turns stays owned as the table grows
  have add {m₁ m₂ : Machine} {log : List Event} {ev : Event}
      (ih : m.Onward m₁ ∧ ∀ v ∈ values log, v.Owned m₁.session.symbols) (hon : m₁.Onward m₂)
      (hev : ∀ v, ev.value? = some v → v.Owned m₂.session.symbols) :
      m.Onward m₂ ∧ ∀ v ∈ values (log ++ [ev]), v.Owned m₂.session.symbols := by
    refine ⟨ih.1.trans hon, ?_⟩
    intro v hv
    rcases mem_values_append.mp hv with hv | hv
    · exact (ih.2 v hv).mono hon.grown
    · exact hev v (by simpa [values] using hv)
  induction h with
  | refl => exact ⟨.refl hm, by simp [values]⟩
  | write _ sink ih => exact ⟨⟨⟨ih.1.owned.session, ih.1.owned.scopes⟩, ih.1.grown⟩, ih.2⟩
  | read _ _ he ih =>
    obtain ⟨hon, hown⟩ := realize_owned ih.1.owned he
    apply add ih hon
    rintro _ ⟨⟩
    exact hown
  | @run _ _ _ _ _ _ _ r _ _ he hr ih =>
    obtain ⟨hon, hown⟩ := realize_owned ih.1.owned he
    obtain ⟨hon', hown'⟩ := evaluate_owned hon.owned hown hr
    apply add ih (hon.trans hon')
    intro v hv
    apply hown' v
    cases r with
    | error err => cases hv
    | ok u => cases hv; rfl

theorem Driven.owned (h : Driven sink m vs) : m.Owned ∧ ∀ v ∈ vs, v.Owned m.session.symbols := by
  obtain ⟨log, ht, hvs⟩ := h.turns
  obtain ⟨hon, hown⟩ := ht.owned (start_owned sink)
  exact ⟨hon.owned, fun v hv => hown v (hvs v hv)⟩

def Uses (m : Machine) (vs : List Expr) (x : Symbol) : Prop :=
  (∃ v ∈ vs, v.Mentions x) ∨ ∃ (i : ScopeId) (f : Scope), m.world.scopes.all[i]? = some f ∧
    ∃ b ∈ f.bindings, b.1 = x ∨ b.2.Mentions x

theorem Uses.holds (hm : m.Owned) (hvs : ∀ v ∈ vs, v.Owned m.session.symbols) {x : Symbol} (hx : m.Uses vs x) :
    m.session.symbols.Holds x := by
  rcases hx with ⟨v, hv, hx⟩ | ⟨i, f, hf, b, hb, rfl | hx⟩
  · exact hvs v hv x hx
  · exact (hm.scopes i f hf b hb).1
  · exact (hm.scopes i f hf b hb).2 x hx

/-- In a session that is given texts only, every symbol in use is the entry of its table under its
name. So names tell symbols apart, and NIL, the keywords and the primitives are known by name. -/
theorem used_symbols_held (h : Driven sink m vs) :
    (∀ x, m.Uses vs x → m.session.symbols.Holds x ∧
      (x.isNil = true ↔ x = Keyword.nil.symbol m.session.symbols.id) ∧
      (∀ k : Keyword, (m.session.keyword? x = some k ↔ x.name = k.name) ∧
        (x = k.symbol m.session.symbols.id ↔ x.name = k.name)) ∧
      m.session.primitive? x = Primitive.names.lookup x.name) ∧
    ∀ x y, m.Uses vs x → m.Uses vs y → x.name = y.name → x = y := by
  obtain ⟨hm, hvs⟩ := h.owned
  have ht := hm.session.symbols
  constructor
  · intro x hx
    have held := hx.holds hm hvs
    refine ⟨held, held.isNil_iff ht, ?_, hm.session.primitive? held⟩
    intro k
    exact ⟨held.keyword?_eq_some_iff ht k, held.eq_keyword_iff ht k⟩
  · intro x y hx hy hname
    exact (hx.holds hm hvs).eq_of_name (hy.holds hm hvs) hname

theorem used_symbols_held_closure :
    ∃ (m : Machine) (vs : List Expr), Driven .closed m vs ∧ m.Uses vs ⟨0, 33, "F"⟩ ∧ m.Uses vs ⟨0, 5, "COND"⟩ ∧
      m.session.symbols.Holds ⟨0, 33, "F"⟩ ∧ m.session.primitive? ⟨0, 33, "F"⟩ = none ∧
      m.session.keyword? ⟨0, 5, "COND"⟩ = some .cond := by
  let source : Input := .all "(defun (f x) (cond (t x)))"
  let lines : Input := .lines .quiet (.own (.buffer "")) "(f 1 2)\n(f".toUTF8.toList
  have next {m : Machine} {vs : List Expr} (hm : Driven .closed m vs) (i : Input) (hi : (i.run 3 m).isSome) :
      Driven .closed ((i.run 3 m).get hi).2 (vs ++ ((i.run 3 m).get hi).1) :=
    .input hm 3 i (Option.some_get hi).symm
  let r₁ := (source.run 3 (.start .closed)).get (by decide +kernel)
  let r₂ := (lines.run 3 r₁.2).get (by decide +kernel)
  have hdriven : Driven .closed r₂.2 ([] ++ r₁.1 ++ r₂.1) :=
    next (next .start source (by decide +kernel)) lines (by decide +kernel)
  let clause : Expr := .pair 3 (.keyword .t 0) (.pair 2 (.symbol ⟨0, 34, "X"⟩) (.nil 0))
  let body : Expr := .pair 5 (.keyword .cond 0) (.pair 4 clause (.nil 0))
  let f : Expr := .function 9 (.pair 0 (.symbol ⟨0, 34, "X"⟩) (.nil 0)) body 0
  have hown : r₂.2.world.scopes.own? 0 ⟨0, 33, "F"⟩ = some f := by decide +kernel
  obtain ⟨g, hg, hlookup⟩ := Option.bind_eq_some_iff.mp hown
  obtain ⟨before, after, hbindings, -⟩ := List.lookup_eq_some_iff.mp hlookup
  have hmem : (⟨0, 33, "F"⟩, f) ∈ g.bindings := by simp [hbindings]
  have hname : r₂.2.Uses ([] ++ r₁.1 ++ r₂.1) ⟨0, 33, "F"⟩ := .inr ⟨0, g, hg, _, hmem, .inl rfl⟩
  have hcond : r₂.2.Uses ([] ++ r₁.1 ++ r₂.1) ⟨0, 5, "COND"⟩ := .inr ⟨0, g, hg, _, hmem, .inr (.inr (.inl rfl))⟩
  obtain ⟨hall, -⟩ := used_symbols_held hdriven
  obtain ⟨held, -, -, hprimitive⟩ := hall _ hname
  obtain ⟨-, -, hkeyword, -⟩ := hall _ hcond
  exact ⟨r₂.2, _, hdriven, hname, hcond, held, hprimitive, (hkeyword .cond).1.mpr rfl⟩

end Machine

end Lisp
