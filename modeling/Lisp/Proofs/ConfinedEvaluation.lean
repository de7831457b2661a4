import Lisp.Eval
import Lisp.Proofs.Chains
import Lisp.Proofs.PrimitiveEffects

namespace Lisp

open Run (Confined)
open World (Alike Parallel Kept)

variable {R : ScopeId → Prop} {base : Nat} {w₁ w₂ : World}

namespace Primitive

theorem apply_confined (h : Alike R base w₁ w₂) {vs : List Expr} (hvs : ∀ v ∈ vs, Kept R base v w₁.scopes)
    (table : Nat) (p : Primitive) : Confined R base (Kept R base) (p.apply table vs) w₁ w₂ := by
  cases p.apply_leaf table vs w₁.next with
  | error e he => exact .error (he w₁ rfl) (he w₂ h.next) h.parallel
  | value v n hv hrun =>
    have hw : Alike R base { w₁ with next := w₁.next + n, sink := w₁.sink.push (p.output vs) }
        { w₂ with next := w₁.next + n, sink := w₂.sink.push (p.output vs) } := ⟨h.scopes, rfl⟩
    exact .value (hrun w₁ rfl) (hrun w₂ h.next) ⟨hw, .refl _, .refl _, p.output vs, rfl, rfl⟩ (hv.inside hvs)

end Primitive

theorem toList?_elements {e : Expr} {es : List Expr} (h : e.toList? = some es) : e.elements = es :=
  (Expr.toList?_eq_some_iff.mp h).1

def Evaluator.Confined (R : ScopeId → Prop) (base : Nat) (ev : Evaluator) : Prop :=
  ∀ w₁ w₂ scope e, Alike R base w₁ w₂ → w₁.scopes.Region R base scope → Kept R base e w₁.scopes →
    Run.Confined R base (Kept R base) (ev scope e) w₁ w₂

namespace Eval

theorem operands_eq_ok_iff {form : Keyword} {n : Nat} {e : Expr} {vs : Vector Expr n} :
    operands form n e = .ok vs ↔ e.toList? = some vs.toList := by
  rw [operands]
  cases e.toList? with
  | none => simp
  | some us =>
    by_cases hlen : us.length = n
    · subst hlen
      simp [← Vector.toList_inj]
    · have hne : us ≠ vs.toList := by
        rintro rfl
        exact hlen vs.length_toList
      simp [hlen, hne]

theorem operands_cases (form : Keyword) (n : Nat) (e : Expr) :
    (∃ vs, operands form n e = .ok vs) ∨ operands form n e = .error (.operands form n e.print) := by
  rw [operands]
  cases e.toList? with
  | none => exact .inr rfl
  | some us =>
    by_cases hlen : us.length = n
    · exact .inl ⟨_, dif_pos hlen⟩
    · exact .inr (dif_neg hlen)

theorem operands_mem {form : Keyword} {n : Nat} {e : Expr} {vs : Vector Expr n} (h : operands form n e = .ok vs) :
    ∀ v ∈ vs, v ∈ e.elements := by
  intro v hv
  rw [toList?_elements (operands_eq_ok_iff.mp h)]
  exact Vector.mem_toList_iff.mpr hv

theorem operand_kept {r : Scopes} {form : Keyword} {n : Nat} {e : Expr} {vs : Vector Expr n}
    (he : Kept R base e r) (h : operands form n e = .ok vs) (k : Fin n) : Kept R base (vs.get k) r :=
  he.elements _ (operands_mem h _ (Vector.getElem_mem k.isLt))

variable {ev : Evaluator} {scope : ScopeId} {e : Expr}

theorem quote_confined (h : Alike R base w₁ w₂) (he : Kept R base e w₁.scopes) :
    Confined R base (Kept R base) (quote e) w₁ w₂ :=
  .ofExcept_bind h _ fun _ hvs => .pure h (operand_kept he hvs _)

theorem set_confined (hev : ev.Confined R base) (h : Alike R base w₁ w₂) (hs : w₁.scopes.Region R base scope)
    (he : Kept R base e w₁.scopes) : Confined R base (Kept R base) (set ev scope e) w₁ w₂ := by
  refine .ofExcept_bind h _ fun vs hvs => ?_
  split
  · refine (hev _ _ scope _ h hs (operand_kept he hvs _)).bind fun v _ _ hw hv => ?_
    refine (World.set_confined hw.alike (hw.region hs) _ hv).bind fun _ _ _ hw' _ => ?_
    exact .pure hw'.alike (hw'.kept hv)
  · exact .throw h _

theorem defun_confined (h : Alike R base w₁ w₂) (hs : w₁.scopes.Region R base scope)
    (he : Kept R base e w₁.scopes) : Confined R base (Kept R base) (defun scope e) w₁ w₂ := by
  refine .ofExcept_bind h _ fun vs hvs => ?_
  have header := operand_kept he hvs ⟨0, by decide⟩
  have body := operand_kept he hvs ⟨1, by decide⟩
  split
  · rename_i f params hheader
    rw [hheader] at header
    have hf (i : Ident) : Kept R base (.function i params (vs.get ⟨1, by decide⟩) scope) w₁.scopes :=
      Expr.inside_function.mpr ⟨hs, (Expr.inside_pair.mp header).2, body⟩
    refine (World.fresh_confined h hf).bind fun v _ _ hw hv => ?_
    refine (World.define_confined hw.alike (hw.region hs) f hv).bind fun _ _ _ hw' _ => ?_
    exact .pure hw'.alike (Expr.inside_symbol f)
  · exact .throw h _
  · exact .throw h _

theorem cond_end_confined (session : Session) (h : Alike R base w₁ w₂) (last : Expr) (failure : Error) :
    Confined R base (Kept R base) (if last.isNil then pure session.nil else Run.throw failure) w₁ w₂ := by
  split
  · exact .pure h (Expr.inside_symbol _)
  · exact .throw h _

theorem cond_confined (hev : ev.Confined R base) (session : Session) (h : Alike R base w₁ w₂)
    (hs : w₁.scopes.Region R base scope) (he : Kept R base e w₁.scopes) :
    Confined R base (Kept R base) (cond session ev scope e) w₁ w₂ := by
  induction e generalizing w₁ w₂ with
  | pair i clause clauses _ ih =>
    obtain ⟨hclause, hclauses⟩ := Expr.inside_pair.mp he
    rw [cond]
    split
    · rename_i condition result hlist
      have hparts : ∀ v ∈ [condition, result], Kept R base v w₁.scopes := by
        rw [← toList?_elements hlist]
        exact hclause.elements
      have hresult := hparts result (by simp)
      split
      · exact hev _ _ scope result h hs hresult
      · refine (hev _ _ scope condition h hs (hparts condition (by simp))).bind fun v _ _ hw _ => ?_
        split
        · exact ih hw.alike (hw.region hs) (hw.kept hclauses)
        · exact hev _ _ scope result hw.alike (hw.region hs) (hw.kept hresult)
    · exact .throw h _
  | _ => exact cond_end_confined session h _ _

theorem arguments_confined (hev : ev.Confined R base) {es : List Expr} (h : Alike R base w₁ w₂)
    (hs : w₁.scopes.Region R base scope) (hes : ∀ e ∈ es, Kept R base e w₁.scopes) :
    Confined R base (fun vs r => ∀ v ∈ vs, Kept R base v r) (arguments ev scope es) w₁ w₂ := by
  induction es generalizing w₁ w₂ with
  | nil => exact .pure h (by simp)
  | cons e es ih =>
    refine (hev _ _ scope e h hs (hes e (by simp))).bind fun v _ _ hw hv => ?_
    have hrest := ih hw.alike (hw.region hs) (fun e' he' => hw.kept (hes e' (by simp [he'])))
    refine hrest.bind fun vs _ _ hw' hvs => .pure hw'.alike ?_
    intro u hu
    rcases List.mem_cons.mp hu with rfl | hu
    · exact hw'.kept hv
    · exact hvs u hu

theorem apply_confined (hev : ev.Confined R base) (session : Session) {f : Expr} {vs : List Expr}
    (h : Alike R base w₁ w₂) (hf : Kept R base f w₁.scopes) (hvs : ∀ v ∈ vs, Kept R base v w₁.scopes) :
    Confined R base (Kept R base) (apply session ev f vs) w₁ w₂ := by
  cases f with
  | function i params body scope =>
    obtain ⟨hs, -, hb⟩ := Expr.inside_function.mp hf
    refine (World.chain_confined h hvs (Expr.inside_symbol _)).bind fun arguments _ _ hw ha => ?_
    refine (World.extend_confined hw.alike (hw.region hs) params ha).bind fun inner _ _ hw' hi => ?_
    exact hev _ _ inner body hw'.alike hi (hw'.kept (hw.kept hb))
  | symbol x =>
    rw [apply]
    split
    · exact Primitive.apply_confined h hvs _ _
    · exact .throw h _
  | _ => exact .throw h _

theorem call_confined (hev : ev.Confined R base) (session : Session) {head tail : Expr} (h : Alike R base w₁ w₂)
    (hs : w₁.scopes.Region R base scope) (hh : Kept R base head w₁.scopes) (ht : Kept R base tail w₁.scopes) :
    Confined R base (Kept R base) (call session ev scope head tail) w₁ w₂ := by
  refine (hev _ _ scope head h hs hh).bind fun f _ _ hw hf => ?_
  split
  · rename_i es hlist
    obtain rfl := toList?_elements hlist
    have hargs := arguments_confined hev hw.alike (hw.region hs) (hw.kept ht).elements
    exact hargs.bind fun vs _ _ hw' hvs => apply_confined hev session hw'.alike (hw'.kept hf) hvs
  · exact .throw hw.alike _

theorem step_confined (hev : ev.Confined R base) (session : Session) :
    Evaluator.Confined R base (step session ev) := by
  intro w₁ w₂ scope e h hs he
  cases e with
  | symbol x => exact World.resolve_confined h hs x
  | pair i head tail =>
    obtain ⟨hh, ht⟩ := Expr.inside_pair.mp he
    rw [step]
    split
    · exact quote_confined h ht
    · exact set_confined hev h hs ht
    · exact defun_confined h hs ht
    · exact cond_confined hev session h hs ht
    · exact call_confined hev session h hs hh ht
  | _ => exact .pure h he

end Eval

theorem eval_confined (session : Session) (depth : Nat) : Evaluator.Confined R base (eval session depth) := by
  induction depth with
  | zero => exact fun _ _ _ _ _ _ _ => .exhausted rfl rfl
  | succ depth ih => exact Eval.step_confined ih session

end Lisp
