import Lisp.Proofs.EndingRuns
import Lisp.Proofs.EvaluationDepth
import Lisp.Proofs.EvaluationFrame

namespace Lisp

namespace Expr

def FunctionFree : Expr → Prop
  | pair _ h t => h.FunctionFree ∧ t.FunctionFree
  | function _ _ _ _ => False
  | _ => True

def Mentions (x : Symbol) : Expr → Prop
  | symbol y => y = x
  | pair _ h t => h.Mentions x ∨ t.Mentions x
  | function _ params body _ => params.Mentions x ∨ body.Mentions x
  | _ => False

def size : Expr → Nat
  | pair _ h t => h.size + t.size + 1
  | function _ params body _ => params.size + body.size + 1
  | _ => 1

theorem functionFree_iff {e : Expr} : e.FunctionFree ↔ e.Inside (fun _ => False) := by
  induction e with
  | pair i h t ihh iht => rw [FunctionFree, ihh, iht, inside_pair]
  | function i params body scope _ _ => exact ⟨False.elim, fun h => h scope (.inl rfl)⟩
  | _ => exact ⟨fun _ _ => False.elim, fun _ => trivial⟩

/-- Neither a function nor DEFUN occurs in the expression, and its size is at most `n`. -/
structure Harmless (table n : Nat) (e : Expr) : Prop where
  functionFree : e.FunctionFree
  defunFree : ¬ e.Mentions (Keyword.defun.symbol table)
  size_le : e.size ≤ n

namespace Harmless

variable {table n : Nat} {i : Ident} {h t : Expr}

theorem head (hp : (pair i h t).Harmless table (n + 1)) : h.Harmless table n := by
  have hs := hp.size_le
  rw [size] at hs
  exact ⟨hp.functionFree.1, fun hm => hp.defunFree (.inl hm), by omega⟩

theorem tail (hp : (pair i h t).Harmless table (n + 1)) : t.Harmless table n := by
  have hs := hp.size_le
  rw [size] at hs
  exact ⟨hp.functionFree.2, fun hm => hp.defunFree (.inr hm), by omega⟩

theorem mono {n' : Nat} {e : Expr} (he : e.Harmless table n) (hn : n ≤ n') : e.Harmless table n' :=
  ⟨he.functionFree, he.defunFree, Nat.le_trans he.size_le hn⟩

theorem elements {e : Expr} (he : e.Harmless table n) : ∀ v ∈ e.elements, v.Harmless table n := by
  induction e with
  | pair i h t _ iht =>
    have hp := he.mono (Nat.le_succ n)
    intro v hv
    rcases List.mem_cons.mp hv with rfl | hv
    · exact hp.head
    · exact iht hp.tail v hv
  | _ => exact fun v hv => absurd hv List.not_mem_nil

end Harmless

end Expr

namespace Scopes

def FunctionFree (r : Scopes) (scope : ScopeId) : Prop :=
  ∀ i f, r.Reach (fun j => j = scope) i → r.all[i]? = some f → ∀ b ∈ f.bindings, b.2.FunctionFree

structure Tame (S : ScopeId → Prop) (r : Scopes) : Prop where
  closed : Closed S r
  functionFree : ∀ i f, S i → r.all[i]? = some f → ∀ b ∈ f.bindings, b.2.FunctionFree

namespace Tame

variable {S : ScopeId → Prop} {r : Scopes}

theorem of_functionFree {scope : ScopeId} (h : r.FunctionFree scope) : Tame (r.Reach (fun j => j = scope)) r :=
  ⟨closed_reach r _, h⟩

theorem toFunctionFree (h : Tame S r) {scope : ScopeId} (hs : S scope) : r.FunctionFree scope := by
  intro i f hi hf
  apply h.functionFree i f _ hf
  apply h.closed.reach _ hi
  rintro j rfl
  exact hs

theorem probe (h : Tame S r) {i : ScopeId} (hi : S i) {x : Symbol} {v : Expr} (hv : r.probe i x = some v) :
    v.FunctionFree := by
  obtain ⟨j, hj, hv⟩ := List.exists_of_findSome?_eq_some hv
  obtain ⟨f, hf, hv⟩ := Option.bind_eq_some_iff.mp hv
  obtain ⟨bs, bs', hl, -⟩ := List.lookup_eq_some_iff.mp hv
  apply h.functionFree j f (h.closed.chain hi j hj) hf (x, v)
  rw [hl]
  simp

theorem define (h : Tame S r) {v : Expr} (hv : v.FunctionFree) (i : ScopeId) (x : Symbol) :
    Tame S (r.define i x v) := by
  have key (j : ScopeId) (f : Scope) (hf : (r.define i x v).all[j]? = some f) :
      ∃ g, r.all[j]? = some g ∧ (f = g ∨ f = g.put x v) := by
    simp only [Scopes.define, Array.getElem?_modify] at hf
    split at hf
    · obtain ⟨g, hg, rfl⟩ := Option.map_eq_some_iff.mp hf
      exact ⟨g, hg, .inr rfl⟩
    · exact ⟨f, hf, .inl rfl⟩
  constructor
  · intro j f hj hf k hk
    obtain ⟨g, hg, rfl | rfl⟩ := key j f hf
    · exact h.closed j f hj hg k hk
    · rcases Scope.mentions_put hk with hk | hk
      · exact h.closed j g hj hg k hk
      · exact (Expr.functionFree_iff.mp hv k hk).elim
  · intro j f hj hf b hb
    obtain ⟨g, hg, rfl | rfl⟩ := key j f hf
    · exact h.functionFree j f hj hg b hb
    · rcases Scope.mem_insert hb with rfl | hb
      · exact hv
      · exact h.functionFree j g hj hg b hb

theorem constants (h : Tame S r) (i : ScopeId) (xs : List Symbol) :
    Tame S (xs.foldl (fun r x => r.define i x (.symbol x)) r) := by
  induction xs generalizing r with
  | nil => exact h
  | cons x xs ih => exact ih (h.define (v := .symbol x) trivial i x)

end Tame

theorem create_tame (r : Scopes) : Tame (fun i => i = r.all.size) (r.create none).2 := by
  have empty (i : ScopeId) (f : Scope) (hi : i = r.all.size) (hf : (r.create none).2.all[i]? = some f) :
      f = ⟨none, []⟩ := by
    subst hi
    simpa [create] using hf.symm
  constructor
  · intro i f hi hf j hj
    obtain rfl := empty i f hi hf
    rcases hj with hj | ⟨b, hb, -⟩
    · cases hj
    · cases hb
  · intro i f hi hf b hb
    obtain rfl := empty i f hi hf
    cases hb

end Scopes

theorem SymbolTable.intern_id (t : SymbolTable) (raw : String) : (t.intern raw).2.id = t.id := by
  simp only [intern]
  split <;> rfl

theorem Session.initial_id (id : Nat) (global : ScopeId) : (initial id global).symbols.id = id := by
  have fold (entries : List (String × Primitive)) (s : Session) :
      (entries.foldl enrol s).symbols.id = s.symbols.id := by
    induction entries generalizing s with
    | nil => rfl
    | cons entry entries ih => exact (ih _).trans (SymbolTable.intern_id _ _)
  exact fold _ _

def World.Tame (S : ScopeId → Prop) (w : World) : Prop :=
  w.scopes.Tame S

def Evaluator.Tame (S : ScopeId → Prop) (table n : Nat) (ev : Evaluator) : Prop :=
  ∀ w scope e, w.Tame S → S scope → e.Harmless table n →
    (ev scope e).Ends (World.Tame S) Expr.FunctionFree w

namespace Eval

variable {S : ScopeId → Prop} {table n : Nat} {ev : Evaluator} {w : World} {scope : ScopeId} {e : Expr}

theorem operand_harmless {form : Keyword} {k : Nat} {vs : Vector Expr k} (he : e.Harmless table n)
    (h : operands form k e = .ok vs) (i : Fin k) : (vs.get i).Harmless table n :=
  he.elements _ (operands_mem h _ (Vector.getElem_mem i.isLt))

theorem quote_ends (hw : w.Tame S) (he : e.Harmless table n) :
    (quote e).Ends (World.Tame S) Expr.FunctionFree w := by
  apply Run.Ends.ofExcept_bind hw
  intro vs hvs
  exact .pure hw (operand_harmless he hvs _).functionFree

theorem set_ends (hev : ev.Tame S table n) (hw : w.Tame S) (hs : S scope) (he : e.Harmless table n) :
    (set ev scope e).Ends (World.Tame S) Expr.FunctionFree w := by
  apply Run.Ends.ofExcept_bind hw
  intro vs hvs
  split
  · apply (hev w scope _ hw hs (operand_harmless he hvs _)).bind
    intro v w' hw' hv
    exact .value rfl (Scopes.Tame.define hw' hv _ _) hv
  · exact .throw hw

theorem cond_ends (session : Session) (hev : ev.Tame S table n) (hw : w.Tame S) (hs : S scope)
    (he : e.Harmless table n) : (cond session ev scope e).Ends (World.Tame S) Expr.FunctionFree w := by
  have stop (w : World) (hw : w.Tame S) (x : Expr) :
      (if x.isNil then pure session.nil else Run.throw (.condEnd x.print) : Run Error World Expr).Ends
        (World.Tame S) Expr.FunctionFree w := by
    split
    · exact .pure hw trivial
    · exact .throw hw
  induction e generalizing w with
  | pair i clause clauses _ ih =>
    have hp := he.mono (Nat.le_succ n)
    rw [cond]
    split
    · rename_i condition result hlist
      have parts := hp.head.elements
      rw [toList?_elements hlist] at parts
      have hc : condition.Harmless table n := parts condition (by simp)
      have hr : result.Harmless table n := parts result (by simp)
      split
      · exact hev w scope result hw hs hr
      · apply (hev w scope condition hw hs hc).bind
        intro v w' hw' _
        split
        · exact ih hw' hp.tail
        · exact hev w' scope result hw' hs hr
    · exact .throw hw
  | _ => exact stop w hw _

theorem arguments_ends (hev : ev.Tame S table n) (hw : w.Tame S) (hs : S scope) {es : List Expr}
    (hes : ∀ e ∈ es, e.Harmless table n) :
    (arguments ev scope es).Ends (World.Tame S) (fun vs => ∀ v ∈ vs, v.FunctionFree) w := by
  induction es generalizing w with
  | nil => exact .pure hw (by simp)
  | cons e es ih =>
    apply (hev w scope e hw hs (hes e (by simp))).bind
    intro v w' hw' hv
    apply (ih hw' (fun u hu => hes u (by simp [hu]))).bind
    intro vs w'' hw'' hvs
    exact .pure hw'' (List.forall_mem_cons.mpr ⟨hv, hvs⟩)

theorem apply_ends (session : Session) (ev : Evaluator) (hw : w.Tame S) {f : Expr} (hf : f.FunctionFree)
    {vs : List Expr} (hvs : ∀ v ∈ vs, v.FunctionFree) :
    (apply session ev f vs).Ends (World.Tame S) Expr.FunctionFree w := by
  cases f with
  | function i params body scope => exact hf.elim
  | symbol x =>
    rw [apply]
    split
    · have hin : ∀ v ∈ vs, v.Inside (fun _ => False) := fun v hv => Expr.functionFree_iff.mp (hvs v hv)
      have hI (w' : World) (h : w'.scopes = w.scopes) : w'.Tame S := by
        rw [World.Tame, h]
        exact hw
      exact (Primitive.apply_ends hI hin _ _).mono (fun _ => id) (fun _ => Expr.functionFree_iff.mpr)
    · exact .throw hw
  | _ => exact .throw hw

theorem call_ends (session : Session) (hev : ev.Tame S table n) (hw : w.Tame S) (hs : S scope) {head tail : Expr}
    (hh : head.Harmless table n) (ht : tail.Harmless table n) :
    (call session ev scope head tail).Ends (World.Tame S) Expr.FunctionFree w := by
  apply (hev w scope head hw hs hh).bind
  intro f w' hw' hf
  split
  · rename_i es hlist
    have hes := ht.elements
    rw [toList?_elements hlist] at hes
    apply (arguments_ends hev hw' hs hes).bind
    intro vs w'' hw'' hvs
    exact apply_ends session ev hw'' hf hvs
  · exact .throw hw'

theorem head_keyword {session : Session} {head : Expr} {k : Keyword}
    (h : head.symbol?.bind session.keyword? = some k) : head = .keyword k session.symbols.id := by
  obtain ⟨x, hx, hk⟩ := Option.bind_eq_some_iff.mp h
  have he : k.symbol session.symbols.id = x := by simpa using List.find?_some hk
  cases head with
  | symbol y =>
    obtain rfl := Option.some.inj hx
    rw [Expr.keyword, he]
  | _ => cases hx

theorem head_not_defun {session : Session} {head : Expr} (hh : head.Harmless session.symbols.id n) :
    head.symbol?.bind session.keyword? ≠ some .defun := by
  intro h
  apply hh.defunFree
  rw [head_keyword h]
  rfl

theorem step_ends (session : Session) (hev : ev.Tame S session.symbols.id n) :
    Evaluator.Tame S session.symbols.id (n + 1) (step session ev) := by
  intro w scope e hw hs he
  cases e with
  | symbol x =>
    cases hv : w.scopes.probe scope x with
    | none => exact .error (by rw [step, World.resolve, Scopes.resolve, hv]) hw
    | some v => exact .value (by rw [step, World.resolve, Scopes.resolve, hv]) hw (Scopes.Tame.probe hw hs hv)
  | pair i head tail =>
    rw [step]
    split
    · exact quote_ends hw he.tail
    · exact set_ends hev hw hs he.tail
    · rename_i hd
      exact absurd hd (head_not_defun he.head)
    · exact cond_ends session hev hw hs he.tail
    · exact call_ends session hev hw hs he.head he.tail
  | _ => exact .pure hw he.functionFree

end Eval

theorem eval_tame (S : ScopeId → Prop) (session : Session) (depth : Nat) :
    Evaluator.Tame S session.symbols.id depth (eval session depth) := by
  induction depth with
  | zero =>
    intro w scope e _ _ he
    have hpos : 0 < e.size := by cases e <;> simp [Expr.size]
    have hs := he.size_le
    omega
  | succ depth ih => exact Eval.step_ends session ih

theorem Run.attempt_of_ending {ε δ σ α : Type} {x : Run ε σ α} {s s' : σ} {result : Except ε α}
    (h : (x s).ending? = some (result, s')) : (x.attempt : Run δ σ (Except ε α)) s = .value result s' := by
  rw [attempt]
  cases hx : x s <;> simp [hx, Outcome.ending?] at h ⊢ <;> exact h

namespace Machine

def evaluateEach (depth : Nat) : List Expr → Run Error Machine (List (Except Error Expr))
  | [] => pure []
  | e :: es => do
    let result ← (evaluate depth e).attempt
    let results ← evaluateEach depth es
    pure (result :: results)

variable {S : ScopeId → Prop} {m : Machine}

theorem evaluateIn_tame {scope : ScopeId} {e : Expr} (hm : m.world.Tame S) (hs : S scope) (hf : e.FunctionFree)
    (hd : ¬ e.Mentions (Keyword.defun.symbol m.session.symbols.id)) :
    ∃ result m', (∀ depth, e.size ≤ depth → (evaluateIn depth scope e m).ending? = some (result, m')) ∧
      m'.session = m.session ∧ m'.world.Tame S ∧ ∀ v, result = .ok v → v.FunctionFree := by
  have hends := eval_tame S m.session e.size m.world scope e hm hs ⟨hf, hd, Nat.le_refl _⟩
  -- a greater depth makes no difference once the run has ended
  have deeper {result : Except Error Expr} {w : World}
      (h : (eval m.session e.size scope e m.world).ending? = some (result, w)) (depth : Nat) (hle : e.size ≤ depth) :
      (evaluateIn depth scope e m).ending? = some (result, { m with world := w }) := by
    rw [evaluateIn_ending_eq_some]
    refine ⟨?_, rfl⟩
    rcases eval_below m.session hle scope e m.world with hx | hx
    · simp [hx, Outcome.ending?] at h
    · rw [hx, h]
  cases hends with
  | @value v w h hw hv =>
    refine ⟨.ok v, { m with world := w }, deeper (by rw [h]; rfl), rfl, hw, ?_⟩
    rintro v ⟨⟩
    exact hv
  | @error err w h hw =>
    refine ⟨.error err, { m with world := w }, deeper (by rw [h]; rfl), rfl, hw, ?_⟩
    rintro v ⟨⟩

theorem evaluateEach_tame {es : List Expr} (hm : m.world.Tame S) (hs : S m.session.global)
    (hes : ∀ e ∈ es, e.FunctionFree ∧ ¬ e.Mentions (Keyword.defun.symbol m.session.symbols.id)) :
    ∃ results m', (∀ depth, (∀ e ∈ es, e.size ≤ depth) → evaluateEach depth es m = .value results m') ∧
      m'.session = m.session ∧ m'.world.Tame S ∧ ∀ v, .ok v ∈ results → v.FunctionFree := by
  induction es generalizing m with
  | nil => exact ⟨[], m, fun _ _ => rfl, rfl, hm, by simp⟩
  | cons e es ih =>
    obtain ⟨hf, hd⟩ := hes e (by simp)
    obtain ⟨result, m₁, hrun, hsession, hm₁, hv⟩ := evaluateIn_tame hm hs hf hd
    have hes' : ∀ u ∈ es, u.FunctionFree ∧ ¬ u.Mentions (Keyword.defun.symbol m₁.session.symbols.id) := by
      intro u hu
      rw [hsession]
      exact hes u (by simp [hu])
    obtain ⟨results, m₂, hruns, hsession', hm₂, hvs⟩ := ih hm₁ (by rw [hsession]; exact hs) hes'
    refine ⟨result :: results, m₂, fun depth hdepth => ?_, hsession'.trans hsession, hm₂, ?_⟩
    · have hfirst : ((evaluate depth e).attempt : Run Error Machine _) m = .value result m₁ :=
        Run.attempt_of_ending (hrun depth (hdepth e (by simp)))
      rw [evaluateEach, Run.bind_value hfirst, Run.bind_value (hruns depth fun u hu => hdepth u (by simp [hu]))]
      rfl
    · intro v hmem
      rcases List.mem_cons.mp hmem with h | h
      · exact hv v h.symm
      · exact hvs v h

theorem join_tame (id : Nat) (w : World) : (join id w).world.Tame (fun i => i = (join id w).session.global) := by
  have hscopes : (join id w).world.scopes =
      (Session.initial id w.scopes.all.size).constants.foldl
        (fun r x => r.define w.scopes.all.size x (.symbol x)) (w.scopes.create none).2 := by
    simp only [join, Scopes.create]
  have hglobal : (join id w).session.global = w.scopes.all.size := rfl
  rw [World.Tame, hscopes, hglobal]
  exact (Scopes.create_tame w.scopes).constants _ _

/-- Without DEFUN and with no function at hand, evaluation ends within a depth that is the size of
the expression, and no function comes into being. So does any sequence of such evaluations in a new
session. -/
theorem evaluation_ends_without_defun :
    (∀ (m : Machine) (scope : ScopeId) (e : Expr), m.world.scopes.FunctionFree scope → e.FunctionFree →
      ¬ e.Mentions (Keyword.defun.symbol m.session.symbols.id) →
      ∃ result m', (∀ depth, e.size ≤ depth → (evaluateIn depth scope e m).ending? = some (result, m')) ∧
        (∀ v, result = .ok v → v.FunctionFree) ∧ m'.world.scopes.FunctionFree scope) ∧
    ∀ (id : Nat) (w : World) (es : List Expr),
      (∀ e ∈ es, e.FunctionFree ∧ ¬ e.Mentions (Keyword.defun.symbol id)) →
      ∃ results m', (∀ depth, (∀ e ∈ es, e.size ≤ depth) → evaluateEach depth es (join id w) = .value results m') ∧
        (∀ v, .ok v ∈ results → v.FunctionFree) ∧ m'.world.scopes.FunctionFree m'.session.global := by
  constructor
  · intro m scope e hm hf hd
    obtain ⟨result, m', hrun, -, hm', hv⟩ := evaluateIn_tame (Scopes.Tame.of_functionFree hm) (.root rfl) hf hd
    exact ⟨result, m', hrun, hv, Scopes.Tame.toFunctionFree hm' (.root rfl)⟩
  · intro id w es hes
    have hid : (join id w).session.symbols.id = id := Session.initial_id id _
    rw [← hid] at hes
    obtain ⟨results, m', hrun, hsession, hm', hv⟩ := evaluateEach_tame (join_tame id w) rfl hes
    refine ⟨results, m', hrun, hv, ?_⟩
    rw [hsession]
    exact Scopes.Tame.toFunctionFree hm' rfl

theorem evaluation_ends_without_defun_cond :
    ∃ (m : Machine) (e : Expr), e.print = "(COND ((SET Y (QUOTE (1 X))) Y))" ∧ m.world.scopes.FunctionFree 0 ∧
      e.FunctionFree ∧ ¬ e.Mentions (Keyword.defun.symbol 0) ∧
      (∃ result m', (∀ depth, e.size ≤ depth → (evaluateIn depth 0 e m).ending? = some (result, m')) ∧
        m'.world.scopes.FunctionFree 0) ∧
      ∃ results m', ∀ depth, e.size ≤ depth → evaluateEach depth [e, e] (join 0 m.world) = .value results m' := by
  let m : Machine := ⟨⟨.initial 0, [], 0⟩, ⟨⟨#[⟨none, [(Keyword.t.symbol 0, .keyword .t 0)]⟩]⟩, 9, .buffer ""⟩⟩
  let list (es : List Expr) : Expr := es.foldr (.pair 0) (.nil 0)
  let x : Expr := .symbol ⟨0, 6, "X"⟩
  let y : Expr := .symbol ⟨0, 7, "Y"⟩
  let e := list [.keyword .cond 0, list [list [.keyword .set 0, y, list [.keyword .quote 0, list [.number 1, x]]], y]]
  have hm : m.world.scopes.FunctionFree 0 := by
    intro i f _ hf b hb
    obtain rfl | hi := Nat.eq_zero_or_pos i
    · obtain rfl := Option.some.inj hf
      obtain rfl := List.mem_singleton.mp hb
      trivial
    · rw [Array.getElem?_eq_none hi] at hf
      cases hf
  have hf : e.FunctionFree := by simp [e, list, x, y, Expr.FunctionFree, Expr.keyword, Expr.nil]
  have hd : ¬ e.Mentions (Keyword.defun.symbol 0) := by
    simp [e, list, x, y, Expr.Mentions, Expr.keyword, Expr.nil, Keyword.symbol, Keyword.index]
  obtain ⟨result, m', hrun, -, hm'⟩ := evaluation_ends_without_defun.1 m 0 e hm hf hd
  obtain ⟨results, m'', hruns, -⟩ := evaluation_ends_without_defun.2 0 m.world [e, e] (by simp [hf, hd])
  refine ⟨m, e, by decide +kernel, hm, hf, hd, ⟨result, m', hrun, hm'⟩, results, m'', fun depth hdepth => ?_⟩
  exact hruns depth (by simpa using hdepth)

end Machine

end Lisp
