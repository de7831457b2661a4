import Lisp.Proofs.Chains
import Lisp.Proofs.DefiningForms

namespace Lisp

namespace Eval

/-- None of the conditions holds. Each is evaluated in the state that the one before it has left, and
comes to NIL; the symbol T, which holds unevaluated, is not among them. -/
inductive NoneHolds (session : Session) (ev : Evaluator) (scope : ScopeId) : List Expr → World → World → Prop where
  | nil (w : World) : NoneHolds session ev scope [] w w
  | cons {c v : Expr} {cs : List Expr} {w w₁ w₂ : World} (ht : c ≠ .keyword .t session.symbols.id)
    (hc : ev scope c w = .value v w₁) (hv : v.isNil = true) (hcs : NoneHolds session ev scope cs w₁ w₂) :
    NoneHolds session ev scope (c :: cs) w w₂

def HaveConditions (clauses conditions : List Expr) : Prop :=
  List.Forall₂ (fun clause c => ∃ result, clause.toList? = some [c, result]) clauses conditions

/-- How the form ends if it comes to the clause in this state and the clause decides it. -/
inductive Decides (session : Session) (ev : Evaluator) (scope : ScopeId) (clause : Expr) (w : World) :
    Outcome Error World Expr → Prop where
  | malformed (h : ∀ c result, clause.toList? ≠ some [c, result]) :
    Decides session ev scope clause w (.error (.condClause clause.print) w)
  | always {result : Expr} (h : clause.toList? = some [.keyword .t session.symbols.id, result]) :
    Decides session ev scope clause w (ev scope result w)
  | fails {c result : Expr} {e : Error} {w' : World} (h : clause.toList? = some [c, result])
    (ht : c ≠ .keyword .t session.symbols.id) (hc : ev scope c w = .error e w') :
    Decides session ev scope clause w (.error e w')
  | holds {c result v : Expr} {w' : World} (h : clause.toList? = some [c, result])
    (ht : c ≠ .keyword .t session.symbols.id) (hc : ev scope c w = .value v w') (hv : v.isNil = false) :
    Decides session ev scope clause w (ev scope result w')

def undecided (session : Session) (last : Expr) (w : World) : Outcome Error World Expr :=
  if last.isNil then .value session.nil w else .error (.condEnd last.print) w

variable {session : Session} {ev : Evaluator} {scope : ScopeId} {w w₁ : World} {clauses conditions : List Expr}

section Steps

variable {clause c result : Expr} (i : Ident) (rest : Expr)

theorem symbol?_ne_t (ht : c ≠ .keyword .t session.symbols.id) :
    c.symbol? ≠ some (Keyword.t.symbol session.symbols.id) := by
  intro h
  cases c with
  | symbol x => exact ht (congrArg Expr.symbol (Option.some.inj h))
  | _ => cases h

theorem cond_clause (h : clause.toList? = some [c, result]) (ht : c ≠ .keyword .t session.symbols.id) :
    cond session ev scope (.pair i clause rest) =
      ev scope c >>= fun v => if v.isNil then cond session ev scope rest else ev scope result := by
  rw [cond, h]
  dsimp only
  rw [if_neg (symbol?_ne_t ht)]

theorem cond_always (h : clause.toList? = some [.keyword .t session.symbols.id, result]) :
    cond session ev scope (.pair i clause rest) = ev scope result := by
  rw [cond, h]
  exact if_pos rfl

theorem cond_malformed (h : ∀ c result, clause.toList? ≠ some [c, result]) :
    cond session ev scope (.pair i clause rest) = Run.throw (.condClause clause.print) := by
  rw [cond]
  split
  · rename_i c result hl
    exact absurd hl (h c result)
  · rfl

theorem cond_end {last : Expr} (h : last.isAtom = true) (w : World) :
    cond session ev scope last w = undecided session last w := by
  have stop : (if last.isNil then pure session.nil else Run.throw (.condEnd last.print) : Run Error World Expr) w =
      undecided session last w := by
    rw [undecided]
    split <;> rfl
  cases last with
  | pair j head tail => cases h
  | _ => exact stop

end Steps

theorem cond_passes {e : Expr} (hcs : HaveConditions clauses conditions)
    (hn : NoneHolds session ev scope conditions w w₁) (he : clauses <+: e.elements) :
    cond session ev scope e w = cond session ev scope (e.rest clauses.length) w₁ := by
  induction hcs generalizing e w with
  | nil =>
    cases hn
    rw [List.length_nil, Expr.rest_zero]
  | cons hclause _ ih =>
    obtain ⟨result, hl⟩ := hclause
    cases hn with
    | cons ht hc hv hn =>
      cases e with
      | pair i clause rest =>
        rw [Expr.elements, List.cons_prefix_cons] at he
        obtain ⟨rfl, he⟩ := he
        rw [cond_clause i rest hl ht, Run.bind_value hc, if_pos hv, ih hn he]
        rfl
      | _ => simp [Expr.elements] at he

theorem Decides.run {clause : Expr} {o : Outcome Error World Expr} (h : Decides session ev scope clause w o)
    (i : Ident) (rest : Expr) : cond session ev scope (.pair i clause rest) w = o := by
  cases h with
  | malformed h => rw [cond_malformed i rest h]; rfl
  | always h => rw [cond_always i rest h]
  | fails h ht hc => rw [cond_clause i rest h ht, Run.bind_error hc]
  | holds h ht hc hv => rw [cond_clause i rest h ht, Run.bind_value hc, hv]; rfl

theorem cond_decided {clause e : Expr} {o : Outcome Error World Expr} (hcs : HaveConditions clauses conditions)
    (hn : NoneHolds session ev scope conditions w w₁) (hd : Decides session ev scope clause w₁ o)
    (he : clauses ++ [clause] <+: e.elements) : cond session ev scope e w = o := by
  have hget : e.elements[clauses.length]? = some clause := by
    obtain ⟨more, hmore⟩ := he
    rw [← hmore]
    simp
  obtain ⟨i, rest, hrest⟩ := Expr.rest_eq_pair hget
  rw [cond_passes hcs hn ((List.prefix_append _ _).trans he), hrest, hd.run]

theorem cond_undecided {e : Expr} (hcs : HaveConditions e.elements conditions)
    (hn : NoneHolds session ev scope conditions w w₁) :
    cond session ev scope e w = undecided session e.terminator w₁ := by
  rw [cond_passes hcs hn (List.prefix_refl _), Expr.rest_length, cond_end e.isAtom_terminator]

theorem NoneHolds.congr {ev' : Evaluator} (hn : NoneHolds session ev scope conditions w w₁)
    (h : ∀ c ∈ conditions, ev' scope c = ev scope c) : NoneHolds session ev' scope conditions w w₁ := by
  induction hn with
  | nil w => exact .nil w
  | cons ht hc hv _ ih =>
    refine .cons ht ?_ hv (ih fun c hc => h c (List.mem_cons_of_mem _ hc))
    rw [h _ List.mem_cons_self, hc]

theorem cond_cases (session : Session) (ev : Evaluator) (scope : ScopeId) (e : Expr) (w : World) :
    cond session ev scope e w = .exhausted ∨
    (∃ clauses conditions clause w₁ o, clauses ++ [clause] <+: e.elements ∧ HaveConditions clauses conditions ∧
      NoneHolds session ev scope conditions w w₁ ∧ Decides session ev scope clause w₁ o) ∨
    ∃ conditions w₁, HaveConditions e.elements conditions ∧ NoneHolds session ev scope conditions w w₁ := by
  induction e generalizing w with
  | pair i clause rest _ ih =>
    have here {o : Outcome Error World Expr} (h : Decides session ev scope clause w o) :
        ∃ clauses conditions clause' w₁ o, clauses ++ [clause'] <+: (Expr.pair i clause rest).elements ∧
          HaveConditions clauses conditions ∧ NoneHolds session ev scope conditions w w₁ ∧
          Decides session ev scope clause' w₁ o :=
      ⟨[], [], clause, w, o, ⟨rest.elements, rfl⟩, .nil, .nil w, h⟩
    by_cases htwo : ∃ c result, clause.toList? = some [c, result]
    · obtain ⟨c, result, hl⟩ := htwo
      by_cases ht : c = .keyword .t session.symbols.id
      · subst ht
        exact .inr (.inl (here (.always hl)))
      cases hc : ev scope c w with
      | exhausted => exact .inl (by rw [cond_clause i rest hl ht, Run.bind_exhausted hc])
      | error err w' => exact .inr (.inl (here (.fails hl ht hc)))
      | value v w' =>
        cases hv : v.isNil with
        | false => exact .inr (.inl (here (.holds hl ht hc hv)))
        | true =>
          -- The clause is passed over, and what the rest comes to is what the whole comes to.
          rcases ih w' with hx | ⟨cls, cs, clause', w₁, o, hpre, hcs, hn, hd⟩ | ⟨cs, w₁, hcs, hn⟩
          · refine .inl ?_
            rw [cond_clause i rest hl ht, Run.bind_value hc, if_pos hv, hx]
          · exact .inr (.inl ⟨clause :: cls, c :: cs, clause', w₁, o, List.cons_prefix_cons.mpr ⟨rfl, hpre⟩,
              .cons ⟨result, hl⟩ hcs, .cons ht hc hv hn, hd⟩)
          · exact .inr (.inr ⟨c :: cs, w₁, .cons ⟨result, hl⟩ hcs, .cons ht hc hv hn⟩)
    · exact .inr (.inl (here (.malformed fun c result hl => htwo ⟨c, result, hl⟩)))
  | _ => exact .inr (.inr ⟨[], w, .nil, .nil w⟩)

end Eval

theorem eval_cond (session : Session) (depth : Nat) (scope : ScopeId) (i : Ident) (e : Expr) :
    eval session (depth + 1) scope (session.form i .cond e) = Eval.cond session (eval session depth) scope e :=
  eval_form session depth scope i .cond e

open Eval (HaveConditions NoneHolds Decides undecided) in
/-- The clause that decides a conditional form also decides how it ends, whatever comes after that clause.
If no condition holds, the end of the clauses decides in the state that the conditions have left; an
evaluator that knows nothing but the conditions would do. A form that ends is of one of these kinds. -/
theorem cond_ignores_rest (session : Session) (depth : Nat) (scope : ScopeId) (w : World) :
    (∀ clauses conditions clause w₁ o, HaveConditions clauses conditions →
      NoneHolds session (eval session depth) scope conditions w w₁ →
      Decides session (eval session depth) scope clause w₁ o →
      ∀ i j e₁ e₂, clauses ++ [clause] <+: e₁.elements → clauses ++ [clause] <+: e₂.elements →
        eval session (depth + 1) scope (session.form i .cond e₁) w = o ∧
        eval session (depth + 1) scope (session.form j .cond e₂) w = o) ∧
    (∀ e conditions w₁, HaveConditions e.elements conditions →
      NoneHolds session (eval session depth) scope conditions w w₁ →
      (∀ i, eval session (depth + 1) scope (session.form i .cond e) w = undecided session e.terminator w₁) ∧
      ∀ ev : Evaluator, (∀ c ∈ conditions, ev scope c = eval session depth scope c) →
        Eval.cond session ev scope e w = undecided session e.terminator w₁) ∧
    ∀ i e, eval session (depth + 1) scope (session.form i .cond e) w = .exhausted ∨
      (∃ clauses conditions clause w₁ o, clauses ++ [clause] <+: e.elements ∧
        HaveConditions clauses conditions ∧ NoneHolds session (eval session depth) scope conditions w w₁ ∧
        Decides session (eval session depth) scope clause w₁ o) ∨
      ∃ conditions w₁, HaveConditions e.elements conditions ∧
        NoneHolds session (eval session depth) scope conditions w w₁ := by
  refine ⟨?_, ?_, ?_⟩
  · intro clauses conditions clause w₁ o hcs hn hd i j e₁ e₂ h₁ h₂
    rw [eval_cond, eval_cond]
    exact ⟨Eval.cond_decided hcs hn hd h₁, Eval.cond_decided hcs hn hd h₂⟩
  · intro e conditions w₁ hcs hn
    refine ⟨?_, fun ev hev => Eval.cond_undecided hcs (hn.congr hev)⟩
    intro i
    rw [eval_cond, Eval.cond_undecided hcs hn]
  · intro i e
    rw [eval_cond]
    exact Eval.cond_cases session (eval session depth) scope e w

theorem cond_ignores_rest_dotted :
    ∃ (session : Session) (w : World) (e₁ e₂ e₃ : Expr), e₁.print = "((NIL 1) (7 8) 5 . 6)" ∧
      e₂.print = "((NIL 1) (7 8))" ∧ e₃.print = "((NIL 1) . 6)" ∧
      eval session 2 0 (session.form 0 .cond e₁) w = .value (.number 8) w ∧
      eval session 2 0 (session.form 0 .cond e₂) w = .value (.number 8) w ∧
      eval session 2 0 (session.form 0 .cond e₃) w = .error (.condEnd "6") w := by
  let session : Session := ⟨.initial 0, [], 0⟩
  let w : World := ⟨⟨#[⟨none, [(Keyword.nil.symbol 0, .nil 0)]⟩]⟩, 9, .closed⟩
  let fails : Expr := .chain 0 [.nil 0, .number 1] (.nil 0)
  let holds : Expr := .chain 2 [.number 7, .number 8] (.nil 0)
  have hcs : Eval.HaveConditions [fails] [.nil 0] := .cons ⟨.number 1, rfl⟩ .nil
  have hn : Eval.NoneHolds session (eval session 1) 0 [.nil 0] w w :=
    .cons (v := .nil 0) (by decide) rfl (by decide) (.nil w)
  have hd : Eval.Decides session (eval session 1) 0 holds w (eval session 1 0 (.number 8) w) :=
    .holds (c := .number 7) (v := .number 7) rfl (by decide) rfl rfl
  obtain ⟨hdecided, hundecided, -⟩ := cond_ignores_rest session 1 0 w
  obtain ⟨h₁, h₂⟩ := hdecided _ _ _ _ _ hcs hn hd 0 0 (.chain 4 [fails, holds, .number 5] (.number 6))
    (.chain 4 [fails, holds] (.nil 0)) ⟨[.number 5], rfl⟩ ⟨[], rfl⟩
  obtain ⟨h₃, -⟩ := hundecided (.chain 4 [fails] (.number 6)) _ _ hcs hn
  have hend : Eval.undecided session (.number 6) w = .error (.condEnd "6") w := by
    have hprint : (Expr.number 6).print = "6" := by decide +kernel
    rw [Eval.undecided, if_neg (by decide), hprint]
  exact ⟨session, w, _, _, _, by decide +kernel, by decide +kernel, by decide +kernel, h₁, h₂, (h₃ 0).trans hend⟩

end Lisp
