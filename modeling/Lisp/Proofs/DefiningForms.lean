import Lisp.Proofs.ScopeWrites

namespace Lisp

def Session.form (s : Session) (i : Ident) (k : Keyword) (operands : Expr) : Expr :=
  .pair i (.keyword k s.symbols.id) operands

theorem Session.keyword?_symbol (s : Session) (k : Keyword) : s.keyword? (k.symbol s.symbols.id) = some k := by
  cases k <;> simp [keyword?, SymbolTable.keyword?, Keyword.all, Keyword.symbol, Keyword.index]

namespace Scopes

variable {r r' : Scopes} {scope d : ScopeId} {x : Symbol} {v : Expr}

structure Rebound (r : Scopes) (d : ScopeId) (x : Symbol) (v : Expr) (r' : Scopes) : Prop where
  size : r'.all.size = r.all.size
  parent : ∀ j, r'.parent? j = r.parent? j
  bound : r'.own? d x = some v
  others : ∀ j y, ¬ (j = d ∧ y = x) → r'.own? j y = r.own? j y

theorem rebound_define (hd : d < r.all.size) (x : Symbol) (v : Expr) : r.Rebound d x v (r.define d x v) := by
  refine ⟨by simp [define], parent?_define r d x v, ?_, ?_⟩
  · rw [own?_define hd, if_pos ⟨rfl, rfl⟩]
  · intro j y hne
    rw [own?_define hd, if_neg hne]

/-- The scope is the nearest that binds the symbol, or no scope binds it and this is the innermost. -/
def Target (r : Scopes) (scope : ScopeId) (x : Symbol) (d : ScopeId) : Prop :=
  r.Nearest x scope d ∨ d = scope ∧ ∀ n k, r.outer n scope = some k → r.own? k x = none

theorem target_holder (r : Scopes) (scope : ScopeId) (x : Symbol) :
    r.Target scope x ((r.holder? scope x).getD scope) := by
  cases hd : r.holder? scope x with
  | none => exact .inr ⟨rfl, holder?_eq_none_iff.mp hd⟩
  | some d => exact .inl (holder?_eq_some_iff.mp hd)

theorem Target.lt (h : r.Target scope x d) (hs : scope < r.all.size) : d < r.all.size := by
  rcases h with h | ⟨rfl, -⟩
  · exact lt_of_own h.2
  · exact hs

theorem exposed_self (r : Scopes) (x : Symbol) (i : ScopeId) : r.Exposed x i i :=
  ⟨0, rfl, fun m hm => absurd hm (Nat.not_lt_zero m)⟩

theorem Target.exposed (h : r.Target scope x d) : r.Exposed x scope d := by
  rcases h with h | ⟨rfl, -⟩
  · exact h.1
  · exact exposed_self r x d

end Scopes

namespace World

theorem set_eq_assign_or_define (scope : ScopeId) (x : Symbol) (v : Expr) (w : World) :
    set scope x v w = if (w.scopes.probe scope x).isSome then assign scope x v w else define scope x v w := by
  rw [set, Scopes.set, Scopes.probe_isSome]
  cases hd : w.scopes.holder? scope x with
  | none => rfl
  | some d =>
    rw [Option.isSome_some, if_pos rfl, assign_nearest (Scopes.holder?_eq_some_iff.mp hd)]
    rfl

end World

theorem eval_symbol {session : Session} {scope : ScopeId} {x : Symbol} {v : Expr} {w : World}
    (h : w.scopes.probe scope x = some v) (depth : Nat) :
    eval session (depth + 1) scope (.symbol x) w = .value v w :=
  World.resolve_some h

namespace Eval

variable {e : Expr}

theorem operands_two {a b : Expr} (h : e.toList? = some [a, b]) (form : Keyword) :
    operands form 2 e = .ok ⟨#[a, b], rfl⟩ :=
  operands_eq_ok_iff.mpr h

theorem operands_not_two (h : ∀ a b, e.toList? ≠ some [a, b]) (form : Keyword) :
    operands form 2 e = .error (.operands form 2 e.print) := by
  obtain ⟨vs, hvs⟩ | herror := operands_cases form 2 e
  · obtain ⟨a, b, hab⟩ := List.length_eq_two.mp vs.length_toList
    rw [operands_eq_ok_iff, hab] at hvs
    exact absurd hvs (h a b)
  · exact herror

theorem set_two {x : Symbol} {b : Expr} (h : e.toList? = some [.symbol x, b]) (ev : Evaluator) (scope : ScopeId) :
    set ev scope e = ev scope b >>= fun v => World.set scope x v >>= fun _ => pure v := by
  rw [set, operands_two h]
  rfl

theorem set_malformed (h : ∀ x b, e.toList? ≠ some [.symbol x, b]) :
    ∃ err : Error, err.kind = .malformed ∧ ∀ ev scope w, set ev scope e w = .error err w := by
  by_cases htwo : ∃ a b, e.toList? = some [a, b]
  · obtain ⟨a, b, hl⟩ := htwo
    refine ⟨.setTarget a.print, rfl, ?_⟩
    intro ev scope w
    rw [set, operands_two hl]
    cases a with
    | symbol x => exact absurd hl (h x b)
    | _ => rfl
  · refine ⟨.operands .set 2 e.print, rfl, ?_⟩
    intro ev scope w
    rw [set, operands_not_two (fun a b hl => htwo ⟨a, b, hl⟩)]
    rfl

theorem defun_two {j : Ident} {f : Symbol} {ps b : Expr} (h : e.toList? = some [.pair j (.symbol f) ps, b])
    (scope : ScopeId) (w : World) :
    defun scope e w = .value (.symbol f)
      { w with scopes := w.scopes.define scope f (.function w.next ps b scope), next := w.next + 1 } := by
  rw [defun, operands_two h]
  rfl

theorem defun_malformed (h : ∀ j f ps b, e.toList? ≠ some [.pair j (.symbol f) ps, b]) :
    ∃ err : Error, err.kind = .malformed ∧ ∀ scope w, defun scope e w = .error err w := by
  by_cases htwo : ∃ a b, e.toList? = some [a, b]
  · obtain ⟨a, b, hl⟩ := htwo
    by_cases hpair : ∃ j name ps, a = .pair j name ps
    · obtain ⟨j, name, ps, rfl⟩ := hpair
      refine ⟨.defunName name.print, rfl, ?_⟩
      intro scope w
      rw [defun, operands_two hl]
      cases name with
      | symbol f => exact absurd hl (h j f ps b)
      | _ => rfl
    · refine ⟨.defunHeader a.print, rfl, ?_⟩
      intro scope w
      rw [defun, operands_two hl]
      cases a with
      | pair j name ps => exact absurd ⟨j, name, ps, rfl⟩ hpair
      | _ => rfl
  · refine ⟨.operands .defun 2 e.print, rfl, ?_⟩
    intro scope w
    rw [defun, operands_not_two (fun a b hl => htwo ⟨a, b, hl⟩)]
    rfl

end Eval

section Forms

variable (session : Session) (depth : Nat) (scope : ScopeId) (i : Ident)

theorem eval_form (k : Keyword) (e : Expr) :
    eval session (depth + 1) scope (session.form i k e) =
      match k with
      | .quote => Eval.quote e
      | .set => Eval.set (eval session depth) scope e
      | .defun => Eval.defun scope e
      | .cond => Eval.cond session (eval session depth) scope e
      | k => Eval.call session (eval session depth) scope (.keyword k session.symbols.id) e := by
  rw [Session.form, eval, Eval.step, Expr.keyword, Expr.symbol?, Option.bind_some, session.keyword?_symbol]
  cases k <;> rfl

theorem eval_set (e : Expr) :
    eval session (depth + 1) scope (session.form i .set e) = Eval.set (eval session depth) scope e :=
  eval_form session depth scope i .set e

theorem eval_defun (e : Expr) : eval session (depth + 1) scope (session.form i .defun e) = Eval.defun scope e :=
  eval_form session depth scope i .defun e

end Forms

theorem World.set_writes {w : World} {scope : ScopeId} (hs : scope < w.scopes.all.size) (x : Symbol) (v : Expr) :
    ∃ d w', set scope x v w = .value () w' ∧ w.scopes.Target scope x d ∧ w.scopes.Rebound d x v w'.scopes ∧
      w'.next = w.next ∧ w'.sink = w.sink ∧ w'.scopes.probe scope x = some v := by
  have htarget := w.scopes.target_holder scope x
  refine ⟨_, _, rfl, htarget, Scopes.rebound_define (htarget.lt hs) x v, rfl, rfl, ?_⟩
  exact Scopes.probe_define_exposed (htarget.lt hs) htarget.exposed v

/-- SET and DEFUN check the form of their operands before anything is evaluated or changed. When the value
of SET is there, it is bound in the nearest scope that binds the symbol, or in the current one, and
nothing else changes; assignment is tried only where it succeeds. DEFUN binds a new function in the
current scope and changes nothing else. The symbol evaluates to what was bound. -/
theorem set_defun_write_once (session : Session) {scope : ScopeId} {w : World} (hs : scope < w.scopes.all.size)
    (i : Ident) (operands : Expr) :
    ((∀ x e, operands.toList? ≠ some [.symbol x, e]) →
      ∃ err : Error, err.kind = .malformed ∧
        ∀ depth, eval session (depth + 1) scope (session.form i .set operands) w = .error err w) ∧
    (∀ x e, operands.toList? = some [.symbol x, e] → ∀ depth,
      (∀ err s, eval session depth scope e w = .error err s →
        eval session (depth + 1) scope (session.form i .set operands) w = .error err s) ∧
      ∀ v s, eval session depth scope e w = .value v s →
        ∃ d s', eval session (depth + 1) scope (session.form i .set operands) w = .value v s' ∧
          s.scopes.Target scope x d ∧ s.scopes.Rebound d x v s'.scopes ∧ s'.next = s.next ∧ s'.sink = s.sink ∧
          (if (s.scopes.probe scope x).isSome then World.assign scope x v s else World.define scope x v s) =
            .value () s' ∧
          ∀ depth', eval session (depth' + 1) scope (.symbol x) s' = .value v s') ∧
    ((∀ j f ps b, operands.toList? ≠ some [.pair j (.symbol f) ps, b]) →
      ∃ err : Error, err.kind = .malformed ∧
        ∀ depth, eval session (depth + 1) scope (session.form i .defun operands) w = .error err w) ∧
    (∀ j f ps b, operands.toList? = some [.pair j (.symbol f) ps, b] → ∀ depth,
      ∃ s', eval session (depth + 1) scope (session.form i .defun operands) w = .value (.symbol f) s' ∧
        w.scopes.Rebound scope f (.function w.next ps b scope) s'.scopes ∧ s'.next = w.next + 1 ∧
        s'.sink = w.sink ∧
        ∀ depth', eval session (depth' + 1) scope (.symbol f) s' = .value (.function w.next ps b scope) s') := by
  refine ⟨?_, ?_, ?_, ?_⟩
  · intro h
    obtain ⟨err, hkind, herr⟩ := Eval.set_malformed h
    exact ⟨err, hkind, fun depth => by rw [eval_set, herr]⟩
  · intro x e h depth
    rw [eval_set, Eval.set_two h]
    refine ⟨fun err s he => Run.bind_error he _, ?_⟩
    intro v s he
    have hgrows : w.scopes.Grows s.scopes := eval_grows (by rw [he]; rfl)
    obtain ⟨d, s', hset, htarget, hrebound, hnext, hsink, hprobe⟩ := World.set_writes (hgrows.lt hs) x v
    refine ⟨d, s', ?_, htarget, hrebound, hnext, hsink, ?_, fun depth' => eval_symbol hprobe depth'⟩
    · rw [Run.bind_value he, Run.bind_value hset]
      rfl
    · rw [← World.set_eq_assign_or_define, hset]
  · intro h
    obtain ⟨err, hkind, herr⟩ := Eval.defun_malformed h
    exact ⟨err, hkind, fun depth => by rw [eval_defun, herr]⟩
  · intro j f ps b h depth
    rw [eval_defun, Eval.defun_two h]
    refine ⟨_, rfl, Scopes.rebound_define hs f _, rfl, rfl, ?_⟩
    intro depth'
    exact eval_symbol (Scopes.probe_define_exposed hs (Scopes.exposed_self _ f scope) _) depth'

theorem set_defun_write_once_enclosing :
    ∃ (session : Session) (w : World) (x f : Symbol), 1 < w.scopes.all.size ∧
      (∃ s', eval session 2 1 (session.form 0 .set (.chain 1 [.symbol x, .number 5] (.nil 0))) w =
          .value (.number 5) s' ∧
        s'.scopes.own? 0 x = some (.number 5) ∧ s'.scopes.own? 1 x = none ∧
        eval session 1 1 (.symbol x) s' = .value (.number 5) s') ∧
      (∃ err : Error, err.kind = .malformed ∧
        eval session 1 1 (session.form 0 .set (.chain 1 [.number 5, .symbol x] (.nil 0))) w = .error err w) ∧
      ∃ s', eval session 1 1 (session.form 0 .defun
          (.chain 1 [.chain 3 [.symbol f, .symbol x] (.nil 0), .symbol x] (.nil 0))) w = .value (.symbol f) s' ∧
        s'.scopes.own? 1 f = some (.function 9 (.pair 4 (.symbol x) (.nil 0)) (.symbol x) 1) := by
  let x : Symbol := ⟨0, 6, "X"⟩
  let f : Symbol := ⟨0, 7, "F"⟩
  let session : Session := ⟨.initial 0, [], 0⟩
  let w : World := ⟨⟨#[⟨none, [(x, .number 1)]⟩, ⟨some 0, []⟩]⟩, 9, .closed⟩
  have hs : 1 < w.scopes.all.size := by decide
  obtain ⟨-, hset, -⟩ := set_defun_write_once session hs 0 (.chain 1 [.symbol x, .number 5] (.nil 0))
  obtain ⟨-, hvalue⟩ := hset x (.number 5) rfl 1
  obtain ⟨d, s', hrun, htarget, hrebound, -, -, -, hsymbol⟩ := hvalue (.number 5) w rfl
  have hd : d = 0 := by
    have hlt := htarget.lt hs
    rcases htarget with ⟨-, hown⟩ | ⟨-, hunbound⟩
    · match d, hlt, hown with
      | 0, _, _ => rfl
      | 1, _, hown => exact absurd hown (by decide)
    · exact absurd (hunbound 1 0 rfl) (by decide)
  subst hd
  obtain ⟨hmalformed, -⟩ := set_defun_write_once session hs 0 (.chain 1 [.number 5, .symbol x] (.nil 0))
  obtain ⟨err, hkind, herr⟩ := hmalformed (by
    intro y e h
    simp [Expr.toList?, Expr.chain, Expr.terminator, Expr.elements, Expr.nil, Expr.keyword] at h)
  obtain ⟨-, -, -, hdefun⟩ := set_defun_write_once session hs 0
    (.chain 1 [.chain 3 [.symbol f, .symbol x] (.nil 0), .symbol x] (.nil 0))
  obtain ⟨s'', hrun', hrebound', -⟩ := hdefun 3 f _ _ rfl 0
  refine ⟨session, w, x, f, hs, ⟨s', hrun, hrebound.bound, ?_, hsymbol 0⟩, ⟨err, hkind, herr 0⟩,
    s'', hrun', hrebound'.bound⟩
  rw [hrebound.others 1 x (by decide)]
  rfl

end Lisp
