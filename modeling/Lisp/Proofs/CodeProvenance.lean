import Lisp.Proofs.PrintTraces
import Lisp.Proofs.Termination

namespace Lisp

namespace Expr

theorem FunctionFree.sub {e e' : Expr} (he : e'.FunctionFree) (h : e.Sub e') : e.FunctionFree := by
  rw [functionFree_iff] at he ⊢
  exact he.sub h

/-- A function with the given parameters and the given body occurs in the expression. -/
def Carries : Expr → (params body : Expr) → Prop
  | pair _ h t, params, body => h.Carries params body ∨ t.Carries params body
  | function _ p b _, params, body => (p = params ∧ b = body) ∨ p.Carries params body ∨ b.Carries params body
  | _, _, _ => False

theorem FunctionFree.not_carries {e params body : Expr} (he : e.FunctionFree) : ¬ e.Carries params body := by
  induction e with
  | pair i h t ihh iht =>
    rintro (hc | hc)
    · exact ihh he.1 hc
    · exact iht he.2 hc
  | function i p b scope _ _ => exact he.elim
  | _ => exact id

def From (H : Expr → Prop) (e : Expr) : Prop :=
  ∃ h, H h ∧ e.Sub h

def Clean (H : Expr → Prop) (e : Expr) : Prop :=
  ∀ params body, e.Carries params body → ∃ h, H h ∧ params.Sub h ∧ body.Sub h

variable {H : Expr → Prop}

theorem From.sub {e e' : Expr} (he : e'.From H) (h : e.Sub e') : e.From H := by
  obtain ⟨x, hx, hs⟩ := he
  exact ⟨x, hx, h.trans hs⟩

theorem clean_symbol (x : Symbol) : (symbol x).Clean H :=
  fun _ _ => False.elim

theorem clean_pair {i : Ident} {h t : Expr} : (pair i h t).Clean H ↔ h.Clean H ∧ t.Clean H := by
  constructor
  · intro hp
    exact ⟨fun p b hc => hp p b (.inl hc), fun p b hc => hp p b (.inr hc)⟩
  · rintro ⟨hh, ht⟩ p b (hc | hc)
    · exact hh p b hc
    · exact ht p b hc

theorem Clean.sub {e e' : Expr} (he : e'.Clean H) (h : e.Sub e') : e.Clean H := by
  induction h with
  | refl => exact he
  | head _ ih => exact ih (clean_pair.mp he).1
  | tail _ ih => exact ih (clean_pair.mp he).2

theorem Clean.mono {H' : Expr → Prop} (hH : ∀ h, H h → H' h) {e : Expr} (he : e.Clean H) : e.Clean H' := by
  intro params body hc
  obtain ⟨h, hh, hp, hb⟩ := he params body hc
  exact ⟨h, hH h hh, hp, hb⟩

theorem clean_of_functionFree {e : Expr} (he : e.FunctionFree) : e.Clean H :=
  fun _ _ hc => absurd hc he.not_carries

theorem clean_chain {vs : List Expr} (hvs : ∀ v ∈ vs, v.Clean H) {tail : Expr} (ht : tail.Clean H) (next : Ident) :
    (chain next vs tail).Clean H := by
  induction vs generalizing next with
  | nil => exact ht
  | cons v vs ih => exact clean_pair.mpr ⟨hvs v (by simp), ih (fun u hu => hvs u (by simp [hu])) (next + 1)⟩

theorem clean_made {table : Nat} {vs : List Expr} (hvs : ∀ v ∈ vs, v.Clean H) {v : Expr}
    (hv : Primitive.Made table vs v) : v.Clean H := by
  cases hv with
  | head hp => exact (clean_pair.mp (hvs _ hp)).1
  | tail hp => exact (clean_pair.mp (hvs _ hp)).2
  | pair i hh ht => exact clean_pair.mpr ⟨hvs _ hh, hvs _ ht⟩
  | list i => exact clean_chain hvs (clean_symbol _) i
  | keyword k => exact clean_symbol _
  | number n => exact clean_of_functionFree trivial
  | string i text => exact clean_of_functionFree trivial

section

variable (hfree : ∀ h, H h → h.FunctionFree)

include hfree

theorem From.functionFree {e : Expr} (he : e.From H) : e.FunctionFree := by
  obtain ⟨h, hh, hs⟩ := he
  exact (hfree h hh).sub hs

theorem clean_function {i : Ident} {params body : Expr} {scope : ScopeId} :
    (function i params body scope).Clean H ↔ ∃ h, H h ∧ params.Sub h ∧ body.Sub h := by
  constructor
  · intro hf
    exact hf params body (.inl ⟨rfl, rfl⟩)
  · rintro ⟨h, hh, hp, hb⟩ p b (⟨rfl, rfl⟩ | hc | hc)
    · exact ⟨h, hh, hp, hb⟩
    · exact absurd hc ((hfree h hh).sub hp).not_carries
    · exact absurd hc ((hfree h hh).sub hb).not_carries

end

end Expr

def Scopes.Clean (H : Expr → Prop) (r : Scopes) : Prop :=
  r.Every (fun b => b.2.Clean H)

structure Store.Onward (H : Expr → Prop) (s s' : Store) : Prop where
  next : s.next ≤ s'.next
  clean : s'.scopes.Clean H

theorem Store.Onward.trans {H : Expr → Prop} {s s' s'' : Store} (h : s.Onward H s') (h' : s'.Onward H s'') :
    s.Onward H s'' :=
  ⟨Nat.le_trans h.next h'.next, h'.clean⟩

theorem Primitive.result_cases (p : Primitive) (table : Nat) (vs : List Expr) (s : Store) :
    (∃ e, p.result table vs s = (.error e, s)) ∨
      ∃ v n, p.result table vs s = (.ok v, ⟨s.scopes, s.next + n⟩) ∧ Made table vs v := by
  cases p.apply_leaf table vs s.next with
  | error e h => exact .inl ⟨e, by rw [result, h (s.world .closed) rfl]; rfl⟩
  | value v n hv h => exact .inr ⟨v, n, by rw [result, h (s.world .closed) rfl]; rfl, hv⟩

def Task.Fit (H : Expr → Prop) : Task → Prop
  | eval _ e => e.From H
  | set _ _ v => v.Clean H
  | clauses _ e => e.From H
  | branch _ result rest _ => result.From H ∧ rest.From H
  | operands _ tail f => tail.From H ∧ f.Clean H
  | arguments _ f vs es => f.Clean H ∧ (∀ v ∈ vs, v.Clean H) ∧ ∀ e ∈ es, e.From H
  | apply f vs => f.Clean H ∧ ∀ v ∈ vs, v.Clean H

def Move.Fit (H : Expr → Prop) (s : Store) : Move → Prop
  | done r s' => s.Onward H s' ∧ ∀ v, r = .ok v → v.Clean H
  | print _ => True
  | become t s' => s.Onward H s' ∧ t.Fit H
  | first _ e next => e.From H ∧ ∀ v, v.Clean H → (next v).Fit H

namespace Move

variable {H : Expr → Prop} {s : Store} {session : Session} {scope : ScopeId} {e : Expr}

theorem done_fit (hs : s.scopes.Clean H) {r : Except Error Expr} (hr : ∀ v, r = .ok v → v.Clean H) :
    (done r s).Fit H s :=
  ⟨⟨Nat.le_refl _, hs⟩, hr⟩

theorem fail_fit (hs : s.scopes.Clean H) (err : Error) : (fail err s).Fit H s :=
  done_fit hs (fun _ h => nomatch h)

theorem become_fit (hs : s.scopes.Clean H) {t : Task} (ht : t.Fit H) : (become t s).Fit H s :=
  ⟨⟨Nat.le_refl _, hs⟩, ht⟩

theorem check_fit {α : Type} (hs : s.scopes.Clean H) {r : Except Error α} {next : α → Move}
    (hr : ∀ a, r = .ok a → (next a).Fit H s) : (check r s next).Fit H s := by
  cases r with
  | ok a => exact hr a rfl
  | error err => exact fail_fit hs err

theorem operand_from {form : Keyword} {n : Nat} {vs : Vector Expr n} (h : Eval.operands form n e = .ok vs)
    (k : Fin n) : (vs.get k).Sub e :=
  Expr.sub_elements (Eval.operands_mem h _ (Vector.getElem_mem k.isLt))

theorem set_fit (hs : s.scopes.Clean H) (he : e.From H) : (set s scope e).Fit H s := by
  apply check_fit hs
  intro vs hvs
  split
  · exact ⟨he.sub (operand_from hvs _), fun v hv => hv⟩
  · exact fail_fit hs _

theorem clauses_fit (hs : s.scopes.Clean H) (he : e.From H) : (clauses session s scope e).Fit H s := by
  cases e with
  | pair i clause rest =>
    have hrest : rest.From H := he.sub (.tail .refl)
    rw [clauses]
    split
    · rename_i condition result hlist
      have part {v : Expr} (hv : v ∈ [condition, result]) : v.From H := by
        rw [← toList?_elements hlist] at hv
        exact he.sub ((Expr.sub_elements hv).head)
      split
      · exact become_fit hs (part (by simp))
      · exact ⟨part (by simp), fun v _ => ⟨part (by simp), hrest⟩⟩
    · exact fail_fit hs _
  | _ =>
    simp only [clauses]
    split
    · apply done_fit hs
      rintro _ ⟨⟩
      exact Expr.clean_symbol _
    · exact fail_fit hs _

theorem operands_fit (hs : s.scopes.Clean H) {tail f : Expr} (ht : tail.From H) (hf : f.Clean H) :
    (operands s scope tail f).Fit H s := by
  rw [operands]
  split
  · rename_i es hlist
    refine become_fit hs ⟨hf, by simp, ?_⟩
    intro v hv
    rw [← toList?_elements hlist] at hv
    exact ht.sub (Expr.sub_elements hv)
  · exact fail_fit hs _

section

variable (hfree : ∀ h, H h → h.FunctionFree)

include hfree

theorem quote_fit (hs : s.scopes.Clean H) (he : e.From H) : (quote s e).Fit H s := by
  apply check_fit hs
  intro vs hvs
  apply done_fit hs
  rintro _ ⟨⟩
  exact Expr.clean_of_functionFree ((he.sub (operand_from hvs _)).functionFree hfree)

theorem defun_fit (hs : s.scopes.Clean H) (he : e.From H) : (defun s scope e).Fit H s := by
  apply check_fit hs
  intro vs hvs
  have header := operand_from hvs ⟨0, by decide⟩
  have body := operand_from hvs ⟨1, by decide⟩
  split
  · rename_i i f params hx
    rw [hx] at header
    obtain ⟨h, hh, hsub⟩ := he
    have hparams : params.Sub h := (Expr.Sub.tail .refl).trans (header.trans hsub)
    have hv (j : Ident) : (Expr.function j params (vs.get ⟨1, by decide⟩) scope).Clean H :=
      (Expr.clean_function hfree).mpr ⟨h, hh, hparams, body.trans hsub⟩
    refine ⟨⟨Nat.le_succ _, hs.define (hv _) _⟩, ?_⟩
    rintro _ ⟨⟩
    exact Expr.clean_symbol f
  · exact fail_fit hs _
  · exact fail_fit hs _

theorem eval_fit (hs : s.scopes.Clean H) (he : e.From H) : (eval session s scope e).Fit H s := by
  cases e with
  | symbol x =>
    apply done_fit hs
    intro v hv
    rw [Scopes.resolve] at hv
    cases hp : s.scopes.probe scope x with
    | none => simp [hp] at hv
    | some u =>
      obtain rfl : u = v := by simpa [hp] using hv
      exact hs.probe hp
  | pair i head tail =>
    have hhead : head.From H := he.sub (.head .refl)
    have htail : tail.From H := he.sub (.tail .refl)
    rw [eval]
    split
    · exact quote_fit hfree hs htail
    · exact set_fit hs htail
    · exact defun_fit hfree hs htail
    · exact become_fit hs htail
    · exact ⟨hhead, fun f hf => ⟨htail, hf⟩⟩
  | _ =>
    apply done_fit hs
    rintro _ ⟨⟩
    exact Expr.clean_of_functionFree (he.functionFree hfree)

theorem apply_fit (hs : s.scopes.Clean H) {f : Expr} (hf : f.Clean H) {vs : List Expr} (hvs : ∀ v ∈ vs, v.Clean H) :
    (apply session s vs f).Fit H s := by
  cases f with
  | function i params body scope =>
    obtain ⟨h, hh, -, hbody⟩ := (Expr.clean_function hfree).mp hf
    have harguments : (Expr.chain s.next vs session.nil).Clean H := Expr.clean_chain hvs (Expr.clean_symbol _) _
    -- the list of arguments is new, but it is only taken apart again and bound as data
    cases hm : Scopes.matchUp params (.chain s.next vs session.nil) params (.chain s.next vs session.nil) with
    | error err =>
      rw [apply, hm]
      refine ⟨⟨Nat.le_add_right _ _, hs⟩, ?_⟩
      rintro _ ⟨⟩
    | ok bs =>
      have hbs : ∀ b ∈ bs, b.2.Clean H := fun b hb => harguments.sub (Scopes.matchUp_sub hm b hb).2
      rw [apply, hm]
      exact ⟨⟨Nat.le_add_right _ _, (hs.create _).defineAll hbs _⟩, h, hh, hbody⟩
  | symbol x =>
    rw [apply]
    split
    · trivial
    · rename_i p _ _
      obtain ⟨err, hr⟩ | ⟨v, n, hr, hv⟩ := p.result_cases session.symbols.id vs s
      · rw [hr]
        exact fail_fit hs err
      · rw [hr]
        refine ⟨⟨Nat.le_add_right _ _, hs⟩, ?_⟩
        rintro _ ⟨⟩
        exact Expr.clean_made hvs hv
    · exact fail_fit hs _
  | _ => exact fail_fit hs _

end

end Move

namespace Task

variable {H : Expr → Prop} {s : Store} {session : Session}

theorem move_fit (hfree : ∀ h, H h → h.FunctionFree) (hs : s.scopes.Clean H) {t : Task} (ht : t.Fit H) :
    (t.move session s).Fit H s := by
  cases t with
  | eval scope e => exact Move.eval_fit hfree hs ht
  | set scope x v =>
    refine ⟨⟨Nat.le_refl _, hs.define ht _⟩, ?_⟩
    rintro _ ⟨⟩
    exact ht
  | clauses scope e => exact Move.clauses_fit hs ht
  | branch scope result rest v =>
    apply Move.become_fit hs
    split
    · exact ht.2
    · exact ht.1
  | operands scope tail f => exact Move.operands_fit hs ht.1 ht.2
  | arguments scope f vs es =>
    obtain ⟨hf, hvs, hes⟩ := ht
    cases es with
    | nil => exact Move.become_fit hs ⟨hf, hvs⟩
    | cons e es =>
      obtain ⟨he, hes⟩ := List.forall_mem_cons.mp hes
      refine ⟨he, fun v hv => ⟨hf, ?_, hes⟩⟩
      simpa [or_imp, forall_and] using ⟨hvs, hv⟩
  | apply f vs => exact Move.apply_fit hfree hs ht.1 ht.2

theorem Performs.fit (hfree : ∀ h, H h → h.FunctionFree) {t : Task} {s' : Store} {ps : List (List Expr)}
    {r : Except Error Expr} (h : t.Performs session s ps r s') (hs : s.scopes.Clean H) (ht : t.Fit H) :
    s.Onward H s' ∧ ∀ v, r = .ok v → v.Clean H := by
  have hmove {t : Task} {s : Store} (hs : s.scopes.Clean H) (ht : t.Fit H) : (t.move session s).Fit H s :=
    move_fit hfree hs ht
  induction h with
  | done h =>
    have hm := hmove hs ht
    rw [h] at hm
    exact hm
  | print h =>
    refine ⟨⟨Nat.le_refl _, hs⟩, ?_⟩
    rintro _ ⟨⟩
    exact Expr.clean_symbol _
  | become h _ ih =>
    have hm := hmove hs ht
    rw [h] at hm
    obtain ⟨ho, hr⟩ := ih hm.1.clean hm.2
    exact ⟨hm.1.trans ho, hr⟩
  | fail h _ ih =>
    have hm := hmove hs ht
    rw [h] at hm
    exact ih hs hm.1
  | next h _ _ ihe ihn =>
    have hm := hmove hs ht
    rw [h] at hm
    obtain ⟨ho, hv⟩ := ihe hs hm.1
    obtain ⟨ho', hr⟩ := ihn ho.clean (hm.2 _ (hv _ rfl))
    exact ⟨ho.trans ho', hr⟩

end Task

theorem eval_clean {H : Expr → Prop} (hfree : ∀ h, H h → h.FunctionFree) {session : Session} {depth : Nat}
    {scope : ScopeId} {e : Expr} {w w' : World} {r : Except Error Expr} (hw : w.scopes.Clean H) (he : e.From H)
    (h : (eval session depth scope e w).ending? = some (r, w')) :
    w.next ≤ w'.next ∧ w'.scopes.Clean H ∧ ∀ v, r = .ok v → v.Clean H := by
  rcases Task.eval_settles session depth scope e w.store with hx | ⟨ps, r', s', hp, hrun⟩
  · have hx' : eval session depth scope e w = .exhausted := hx w.sink
    rw [hx'] at h
    cases h
  · have hend : (eval session depth scope e w).ending? = some (r', s'.world (w.sink.push (Primitive.lines ps))) :=
      hrun w.sink
    rw [h] at hend
    cases hend
    obtain ⟨ho, hr⟩ := hp.fit hfree hw he
    exact ⟨ho.next, ho.clean, hr⟩

end Lisp
