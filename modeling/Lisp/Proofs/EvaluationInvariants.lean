import Lisp.Proofs.EvaluationFrame
import Lisp.Proofs.PrimitiveEffects

namespace Lisp

namespace Run

variable {ε σ α β : Type}

inductive Leaves (Q : α → σ → Prop) (E : σ → Prop) (x : Run ε σ α) (s : σ) : Prop where
  | value {a : α} {s' : σ} (h : x s = .value a s') (ha : Q a s')
  | error {e : ε} {s' : σ} (h : x s = .error e s') (hs : E s')
  | exhausted (h : x s = .exhausted)

namespace Leaves

variable {Q Q' : α → σ → Prop} {R : β → σ → Prop} {E E' : σ → Prop} {x : Run ε σ α} {s : σ}

theorem bind {f : α → Run ε σ β} (hx : Leaves Q E x s) (hf : ∀ a s', Q a s' → Leaves R E (f a) s') :
    Leaves R E (x >>= f) s := by
  cases hx with
  | value h ha =>
    cases hf _ _ ha with
    | value h' hb => exact .value ((bind_value h f).trans h') hb
    | error h' hs => exact .error ((bind_value h f).trans h') hs
    | exhausted h' => exact .exhausted ((bind_value h f).trans h')
  | error h hs => exact .error (bind_error h f) hs
  | exhausted h => exact .exhausted (bind_exhausted h f)

theorem mono (hx : Leaves Q E x s) (hQ : ∀ a s', Q a s' → Q' a s') (hE : ∀ s', E s' → E' s') :
    Leaves Q' E' x s := by
  cases hx with
  | value h ha => exact .value h (hQ _ _ ha)
  | error h hs => exact .error h (hE _ hs)
  | exhausted h => exact .exhausted h

theorem congr {y : Run ε σ α} {t : σ} (hx : Leaves Q E x s) (h : y t = x s) : Leaves Q E y t := by
  cases hx with
  | value hv ha => exact .value (h.trans hv) ha
  | error he hs => exact .error (h.trans he) hs
  | exhausted hx => exact .exhausted (h.trans hx)

theorem ending (hx : Leaves Q E x s) {result : Except ε α} {s' : σ} (h : (x s).ending? = some (result, s')) :
    (∃ a, result = .ok a ∧ Q a s') ∨ (∃ e, result = .error e ∧ E s') := by
  cases hx with
  | value hv ha =>
    rw [hv] at h
    cases h
    exact .inl ⟨_, rfl, ha⟩
  | error he hs =>
    rw [he] at h
    cases h
    exact .inr ⟨_, rfl, hs⟩
  | exhausted hx => simp [hx, Outcome.ending?] at h

end Leaves

end Run

/-- A property of all scopes together with what evaluation relies on and answers for: the scopes it
takes place in, the expressions it evaluates as code, the values it passes on as data, and how
scopes that came later relate to earlier ones. -/
structure Invariant (table : Nat) where
  State : Scopes → Prop
  Later : Scopes → Scopes → Prop
  Place : Scopes → ScopeId → Prop
  Code : Scopes → Expr → Prop
  Data : Scopes → Expr → Prop
  later_refl : ∀ r, Later r r
  later_trans : ∀ {r r' r''}, Later r r' → Later r' r'' → Later r r''
  later_place : ∀ {r r' i}, Later r r' → Place r i → Place r' i
  later_code : ∀ {r r' e}, Later r r' → Code r e → Code r' e
  later_data : ∀ {r r' e}, Later r r' → Data r e → Data r' e
  code_data : ∀ {r e}, Code r e → Data r e
  code_pair : ∀ {r i h t}, Code r (.pair i h t) → Code r h ∧ Code r t
  data_pair : ∀ {r i h t}, Data r (.pair i h t) ↔ Data r h ∧ Data r t
  data_function : ∀ {r i params body scope},
    Data r (.function i params body scope) ↔ Place r scope ∧ Code r params ∧ Code r body
  data_keyword : ∀ r k, Data r (.keyword k table)
  data_number : ∀ r n, Data r (.number n)
  data_string : ∀ r i text, Data r (.string i text)
  probe : ∀ {r i x v}, State r → Place r i → r.probe i x = some v → Data r v
  holder : ∀ {r i} x, State r → Place r i → Place r ((r.holder? i x).getD i)
  define : ∀ {r i x v}, State r → Place r i → Code r (.symbol x) → Data r v →
    State (r.define i x v) ∧ Later r (r.define i x v)
  create : ∀ {r i}, State r → Place r i →
    State (r.create (some i)).2 ∧ Later r (r.create (some i)).2 ∧ Place (r.create (some i)).2 r.all.size

namespace Invariant

variable {table : Nat} (I : Invariant table) {α β : Type}

def Since (w w' : World) : Prop :=
  I.State w'.scopes ∧ I.Later w.scopes w'.scopes

def Keeps (P : Scopes → α → Prop) (x : Run Error World α) (w : World) : Prop :=
  x.Leaves (fun a w' => I.Since w w' ∧ P w'.scopes a) (I.Since w) w

variable {I} {P : Scopes → α → Prop} {Q : Scopes → β → Prop} {w : World}

theorem Since.trans {w' w'' : World} (h : I.Since w w') (h' : I.Since w' w'') : I.Since w w'' :=
  ⟨h'.1, I.later_trans h.2 h'.2⟩

theorem Since.of_eq {w' : World} (hw : I.State w.scopes) (h : w'.scopes = w.scopes) : I.Since w w' := by
  rw [Since, h]
  exact ⟨hw, I.later_refl _⟩

namespace Keeps

theorem pure {a : α} (hw : I.State w.scopes) (ha : P w.scopes a) : I.Keeps P (Pure.pure a) w :=
  .value rfl ⟨.of_eq hw rfl, ha⟩

theorem throw (hw : I.State w.scopes) (e : Error) : I.Keeps P (Run.throw e) w :=
  .error rfl (.of_eq hw rfl)

theorem bind {x : Run Error World α} {f : α → Run Error World β} (hx : I.Keeps P x w)
    (hf : ∀ a w', I.Since w w' → P w'.scopes a → I.Keeps Q (f a) w') : I.Keeps Q (x >>= f) w := by
  apply Run.Leaves.bind hx
  rintro a w' ⟨hw, ha⟩
  apply (hf a w' hw ha).mono
  · rintro b w'' ⟨hw', hb⟩
    exact ⟨hw.trans hw', hb⟩
  · intro w'' hw'
    exact hw.trans hw'

theorem ofExcept_bind (hw : I.State w.scopes) (r : Except Error α) {f : α → Run Error World β}
    (hf : ∀ a, r = .ok a → I.Keeps Q (f a) w) : I.Keeps Q (Run.ofExcept r >>= f) w := by
  cases r with
  | ok a => exact hf a rfl
  | error e => exact .error rfl (.of_eq hw rfl)

theorem leaf {x : Run Error World Expr} {P : Scopes → Expr → Prop} {text : String} (hw : I.State w.scopes)
    (hx : x.Leaf (P w.scopes) text w.next) : I.Keeps P x w := by
  cases hx with
  | error e h => exact .error (h w rfl) (.of_eq hw rfl)
  | value v n hv h => exact .value (h w rfl) ⟨.of_eq hw rfl, hv⟩

end Keeps

theorem made {r : Scopes} {vs : List Expr} (hvs : ∀ v ∈ vs, I.Data r v) {v : Expr}
    (hv : Primitive.Made table vs v) : I.Data r v := by
  have chained (us : List Expr) (hus : ∀ u ∈ us, I.Data r u) (i : Ident) :
      I.Data r (.chain i us (.nil table)) := by
    induction us generalizing i with
    | nil => exact I.data_keyword r .nil
    | cons u us ih =>
      apply I.data_pair.mpr
      exact ⟨hus u (by simp), ih (fun u' hu' => hus u' (by simp [hu'])) (i + 1)⟩
  cases hv with
  | head hp => exact (I.data_pair.mp (hvs _ hp)).1
  | tail hp => exact (I.data_pair.mp (hvs _ hp)).2
  | pair i hh ht => exact I.data_pair.mpr ⟨hvs _ hh, hvs _ ht⟩
  | list i => exact chained vs hvs i
  | keyword k => exact I.data_keyword r k
  | number n => exact I.data_number r n
  | string i text => exact I.data_string r i text

theorem primitive_keeps (hw : I.State w.scopes) {vs : List Expr} (hvs : ∀ v ∈ vs, I.Data w.scopes v)
    (p : Primitive) : I.Keeps I.Data (p.apply table vs) w :=
  .leaf hw ((p.apply_leaf table vs w.next).mono fun _ => I.made hvs)

theorem resolve_keeps (hw : I.State w.scopes) {scope : ScopeId} (hs : I.Place w.scopes scope) (x : Symbol) :
    I.Keeps I.Data (World.resolve scope x) w := by
  cases hv : w.scopes.probe scope x with
  | none => exact .error (by rw [World.resolve, Scopes.resolve, hv]) (.of_eq hw rfl)
  | some v => exact .value (by rw [World.resolve, Scopes.resolve, hv]) ⟨.of_eq hw rfl, I.probe hw hs hv⟩

theorem define_keeps (hw : I.State w.scopes) {scope : ScopeId} (hs : I.Place w.scopes scope) {x : Symbol} {v : Expr}
    (hx : I.Code w.scopes (.symbol x)) (hv : I.Data w.scopes v) :
    I.Keeps (fun _ _ => True) (World.define scope x v) w :=
  .value rfl ⟨I.define hw hs hx hv, trivial⟩

theorem set_keeps (hw : I.State w.scopes) {scope : ScopeId} (hs : I.Place w.scopes scope) {x : Symbol} {v : Expr}
    (hx : I.Code w.scopes (.symbol x)) (hv : I.Data w.scopes v) :
    I.Keeps (fun _ _ => True) (World.set scope x v) w :=
  .value rfl ⟨I.define hw (I.holder x hw hs) hx hv, trivial⟩

theorem code_sub {r : Scopes} {e e' : Expr} (he : I.Code r e') (h : e.Sub e') : I.Code r e := by
  induction h with
  | refl => exact he
  | head _ ih => exact ih (I.code_pair he).1
  | tail _ ih => exact ih (I.code_pair he).2

theorem data_sub {r : Scopes} {e e' : Expr} (he : I.Data r e') (h : e.Sub e') : I.Data r e := by
  induction h with
  | refl => exact he
  | head _ ih => exact ih (I.data_pair.mp he).1
  | tail _ ih => exact ih (I.data_pair.mp he).2

theorem matchUp_fits {r : Scopes} {formals arguments p a : Expr} {bs : List (Symbol × Expr)} (hp : I.Code r p)
    (ha : I.Data r a) (h : Scopes.matchUp formals arguments p a = .ok bs) :
    ∀ b ∈ bs, I.Code r (.symbol b.1) ∧ I.Data r b.2 := by
  intro b hb
  obtain ⟨hx, hv⟩ := Scopes.matchUp_sub h b hb
  exact ⟨code_sub hp hx, data_sub ha hv⟩

theorem defineAll {r : Scopes} {i : ScopeId} (hr : I.State r) (hi : I.Place r i) {bs : List (Symbol × Expr)}
    (hbs : ∀ b ∈ bs, I.Code r (.symbol b.1) ∧ I.Data r b.2) :
    I.State (bs.foldl (fun r b => r.define i b.1 b.2) r) ∧
      I.Later r (bs.foldl (fun r b => r.define i b.1 b.2) r) := by
  induction bs generalizing r with
  | nil => exact ⟨hr, I.later_refl r⟩
  | cons b bs ih =>
    obtain ⟨hx, hv⟩ := hbs b (by simp)
    obtain ⟨hs, hl⟩ := I.define hr hi hx hv
    have hrest : ∀ c ∈ bs, I.Code (r.define i b.1 b.2) (.symbol c.1) ∧ I.Data (r.define i b.1 b.2) c.2 := by
      intro c hc
      obtain ⟨hx', hv'⟩ := hbs c (by simp [hc])
      exact ⟨I.later_code hl hx', I.later_data hl hv'⟩
    obtain ⟨hs', hl'⟩ := ih hs (I.later_place hl hi) hrest
    exact ⟨hs', I.later_trans hl hl'⟩

theorem extend_keeps (hw : I.State w.scopes) {scope : ScopeId} (hs : I.Place w.scopes scope) {formals arguments : Expr}
    (hf : I.Code w.scopes formals) (ha : I.Data w.scopes arguments) :
    I.Keeps I.Place (World.extend scope formals arguments) w := by
  cases hm : Scopes.matchUp formals arguments formals arguments with
  | error e => exact .error (by rw [World.extend, hm]) (.of_eq hw rfl)
  | ok bs =>
    have hbs := matchUp_fits hf ha hm
    obtain ⟨hc, hl, hp⟩ := I.create hw hs
    have hbs' : ∀ b ∈ bs, I.Code (w.scopes.create (some scope)).2 (.symbol b.1) ∧
        I.Data (w.scopes.create (some scope)).2 b.2 := by
      intro b hb
      exact ⟨I.later_code hl (hbs b hb).1, I.later_data hl (hbs b hb).2⟩
    obtain ⟨hd, hl'⟩ := defineAll hc hp hbs'
    have hrun : World.extend scope formals arguments w =
        .value (w.scopes.enter scope bs).1 { w with scopes := (w.scopes.enter scope bs).2 } := by
      rw [World.extend, hm]
    exact .value hrun ⟨⟨hd, I.later_trans hl hl'⟩, I.later_place hl' hp⟩

def Respects (I : Invariant table) (ev : Evaluator) : Prop :=
  ∀ w scope e, I.State w.scopes → I.Place w.scopes scope → I.Code w.scopes e → I.Keeps I.Data (ev scope e) w

section Forms

variable {ev : Evaluator} {session : Session} {scope : ScopeId} {e : Expr}

theorem code_elements {r : Scopes} (he : I.Code r e) : ∀ v ∈ e.elements, I.Code r v :=
  fun _ hv => code_sub he (Expr.sub_elements hv)

theorem code_operand {r : Scopes} {form : Keyword} {n : Nat} {vs : Vector Expr n} (he : I.Code r e)
    (h : Eval.operands form n e = .ok vs) (k : Fin n) : I.Code r (vs.get k) :=
  code_elements he _ (Eval.operands_mem h _ (Vector.getElem_mem k.isLt))

theorem quote_keeps (hw : I.State w.scopes) (he : I.Code w.scopes e) : I.Keeps I.Data (Eval.quote e) w := by
  apply Keeps.ofExcept_bind hw
  intro vs hvs
  exact .pure hw (I.code_data (code_operand he hvs _))

theorem setForm_keeps (hev : I.Respects ev) (hw : I.State w.scopes) (hs : I.Place w.scopes scope)
    (he : I.Code w.scopes e) : I.Keeps I.Data (Eval.set ev scope e) w := by
  apply Keeps.ofExcept_bind hw
  intro vs hvs
  have target := code_operand he hvs ⟨0, by decide⟩
  split
  · rename_i x hx
    rw [hx] at target
    apply (hev w scope _ hw hs (code_operand he hvs _)).bind
    intro v w' hw' hv
    apply (set_keeps hw'.1 (I.later_place hw'.2 hs) (I.later_code hw'.2 target) hv).bind
    intro _ w'' hw'' _
    exact .pure hw''.1 (I.later_data hw''.2 hv)
  · exact .throw hw _

theorem defun_keeps (hw : I.State w.scopes) (hs : I.Place w.scopes scope) (he : I.Code w.scopes e) :
    I.Keeps I.Data (Eval.defun scope e) w := by
  apply Keeps.ofExcept_bind hw
  intro vs hvs
  have header := code_operand he hvs ⟨0, by decide⟩
  have body := code_operand he hvs ⟨1, by decide⟩
  split
  · rename_i i f params hx
    rw [hx] at header
    obtain ⟨hf, hp⟩ := I.code_pair header
    have hv (j : Ident) : I.Data w.scopes (.function j params (vs.get ⟨1, by decide⟩) scope) :=
      I.data_function.mpr ⟨hs, hp, body⟩
    apply (Keeps.leaf hw (.fresh hv)).bind
    intro v w' hw' hv
    apply (define_keeps hw'.1 (I.later_place hw'.2 hs) (I.later_code hw'.2 hf) hv).bind
    intro _ w'' hw'' _
    exact .pure hw''.1 (I.later_data hw''.2 (I.later_data hw'.2 (I.code_data hf)))
  · exact .throw hw _
  · exact .throw hw _

theorem cond_keeps (hev : I.Respects ev) (hid : session.symbols.id = table) (hw : I.State w.scopes)
    (hs : I.Place w.scopes scope) (he : I.Code w.scopes e) : I.Keeps I.Data (Eval.cond session ev scope e) w := by
  have stop (w : World) (hw : I.State w.scopes) (x : Expr) :
      I.Keeps I.Data (if x.isNil then pure session.nil else Run.throw (.condEnd x.print)) w := by
    split
    · apply Keeps.pure hw
      rw [Session.nil, hid]
      exact I.data_keyword _ .nil
    · exact .throw hw _
  induction e generalizing w with
  | pair i clause clauses _ ih =>
    obtain ⟨hclause, hclauses⟩ := I.code_pair he
    rw [Eval.cond]
    split
    · rename_i condition result hlist
      have parts := code_elements hclause
      rw [toList?_elements hlist] at parts
      have hc : I.Code w.scopes condition := parts condition (by simp)
      have hr : I.Code w.scopes result := parts result (by simp)
      split
      · exact hev w scope result hw hs hr
      · apply (hev w scope condition hw hs hc).bind
        intro v w' hw' _
        split
        · exact ih hw'.1 (I.later_place hw'.2 hs) (I.later_code hw'.2 hclauses)
        · exact hev w' scope result hw'.1 (I.later_place hw'.2 hs) (I.later_code hw'.2 hr)
    · exact .throw hw _
  | _ => exact stop w hw _

theorem arguments_keeps (hev : I.Respects ev) (hw : I.State w.scopes) (hs : I.Place w.scopes scope) {es : List Expr}
    (hes : ∀ e ∈ es, I.Code w.scopes e) :
    I.Keeps (fun r vs => ∀ v ∈ vs, I.Data r v) (Eval.arguments ev scope es) w := by
  induction es generalizing w with
  | nil => exact .pure hw (by simp)
  | cons e es ih =>
    apply (hev w scope e hw hs (hes e (by simp))).bind
    intro v w' hw' hv
    have hes' : ∀ u ∈ es, I.Code w'.scopes u := fun u hu => I.later_code hw'.2 (hes u (by simp [hu]))
    apply (ih hw'.1 (I.later_place hw'.2 hs) hes').bind
    intro vs w'' hw'' hvs
    exact .pure hw''.1 (List.forall_mem_cons.mpr ⟨I.later_data hw''.2 hv, hvs⟩)

theorem apply_keeps (hev : I.Respects ev) (hid : session.symbols.id = table) (hw : I.State w.scopes) {f : Expr}
    (hf : I.Data w.scopes f) {vs : List Expr} (hvs : ∀ v ∈ vs, I.Data w.scopes v) :
    I.Keeps I.Data (Eval.apply session ev f vs) w := by
  cases f with
  | function i params body scope =>
    obtain ⟨hs, hp, hb⟩ := I.data_function.mp hf
    have hchain (j : Ident) : I.Data w.scopes (.chain j vs session.nil) := by
      rw [Session.nil, hid]
      exact I.made hvs (.list j)
    apply (Keeps.leaf hw (.chain hchain)).bind
    intro arguments w' hw' ha
    apply (extend_keeps hw'.1 (I.later_place hw'.2 hs) (I.later_code hw'.2 hp) ha).bind
    intro inner w'' hw'' hi
    exact hev w'' inner body hw''.1 hi (I.later_code hw''.2 (I.later_code hw'.2 hb))
  | symbol x =>
    rw [Eval.apply]
    split
    · rw [hid]
      exact primitive_keeps hw hvs _
    · exact .throw hw _
  | _ => exact .throw hw _

theorem call_keeps (hev : I.Respects ev) (hid : session.symbols.id = table) (hw : I.State w.scopes)
    (hs : I.Place w.scopes scope) {head tail : Expr} (hh : I.Code w.scopes head) (ht : I.Code w.scopes tail) :
    I.Keeps I.Data (Eval.call session ev scope head tail) w := by
  apply (hev w scope head hw hs hh).bind
  intro f w' hw' hf
  split
  · rename_i es hlist
    have hes := code_elements (I.later_code hw'.2 ht)
    rw [toList?_elements hlist] at hes
    apply (arguments_keeps hev hw'.1 (I.later_place hw'.2 hs) hes).bind
    intro vs w'' hw'' hvs
    exact apply_keeps hev hid hw''.1 (I.later_data hw''.2 hf) hvs
  · exact .throw hw'.1 _

theorem step_keeps (hev : I.Respects ev) (hid : session.symbols.id = table) : I.Respects (Eval.step session ev) := by
  intro w scope e hw hs he
  cases e with
  | symbol x => exact resolve_keeps hw hs x
  | pair i head tail =>
    obtain ⟨hh, ht⟩ := I.code_pair he
    rw [Eval.step]
    split
    · exact quote_keeps hw ht
    · exact setForm_keeps hev hw hs ht
    · exact defun_keeps hw hs ht
    · exact cond_keeps hev hid hw hs ht
    · exact call_keeps hev hid hw hs hh ht
  | _ => exact .pure hw (I.code_data he)

end Forms

theorem eval_keeps (I : Invariant table) {session : Session} (hid : session.symbols.id = table) (depth : Nat) :
    I.Respects (eval session depth) := by
  induction depth with
  | zero => exact fun _ _ _ _ _ _ => .exhausted rfl
  | succ depth ih => exact step_keeps ih hid

end Invariant

end Lisp
