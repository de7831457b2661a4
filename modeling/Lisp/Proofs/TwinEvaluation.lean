import Lisp.Machine
import Lisp.Proofs.TwinRuns

namespace Lisp

structure Session.Twin (L : Link) (s₁ s₂ : Session) : Prop where
  left : s₁.symbols.id = L.left
  right : s₂.symbols.id = L.right
  names : s₂.symbols.names = s₁.symbols.names
  primitives : List.Forall₂ (fun b c => b.1.Twin L c.1 ∧ c.2 = b.2) s₁.primitives s₂.primitives
  global : L.scopes s₁.global s₂.global

namespace Session.Twin

variable {L L' : Link} {s₁ s₂ : Session} {x y : Symbol}

theorem mono (hL : L.Le L') (h : s₁.Twin L s₂) : s₁.Twin L' s₂ :=
  ⟨h.left.trans hL.left.symm, h.right.trans hL.right.symm, h.names,
    h.primitives.imp fun _ _ hb => ⟨hb.1.mono hL, hb.2⟩, hL.scopes h.global⟩

theorem keyword (h : s₁.Twin L s₂) (k : Keyword) :
    (k.symbol s₁.symbols.id).Twin L (k.symbol s₂.symbols.id) := by
  rw [h.left, h.right]
  exact .keyword L k

theorem keyword? (h : s₁.Twin L s₂) (hx : x.Twin L y) : s₂.keyword? y = s₁.keyword? x := by
  have hk (k : Keyword) : decide (k.symbol s₂.symbols.id = y) = decide (k.symbol s₁.symbols.id = x) := by
    rw [decide_eq_decide]
    exact ((h.keyword k).eq_iff hx).symm
  simp only [Session.keyword?, SymbolTable.keyword?, hk]

theorem form (h : s₁.Twin L s₂) {e e' : Expr} (he : e.Twin L e') :
    e'.symbol?.bind s₂.keyword? = e.symbol?.bind s₁.keyword? := by
  rcases rel_cases he.symbol? with ⟨hx, hy⟩ | ⟨x, y, hx, hy, hxy⟩
  · rw [hx, hy]
    rfl
  · rw [hx, hy]
    exact h.keyword? hxy

theorem primitive? (h : s₁.Twin L s₂) (hx : x.Twin L y) : s₂.primitive? y = s₁.primitive? x := by
  have hps := h.primitives
  rw [Session.primitive?, Session.primitive?]
  generalize s₁.primitives = ps at hps
  generalize s₂.primitives = qs at hps
  induction hps with
  | nil => rfl
  | @cons b c _ _ hb _ ih =>
    obtain ⟨z, p⟩ := b
    obtain ⟨z', p'⟩ := c
    obtain ⟨hz, rfl⟩ := hb
    have hkey : (y == z') = (x == z) := by
      rw [Bool.eq_iff_iff, beq_iff_eq, beq_iff_eq]
      exact (hx.eq_iff hz).symm
    rw [List.lookup_cons, List.lookup_cons, hkey, ih]

theorem nil (h : s₁.Twin L s₂) : s₁.nil.Twin L s₂.nil :=
  .symbol (h.keyword .nil)

end Session.Twin

namespace Eval

open World (Abreast)

variable {R : ScopeId → Prop} {base : Nat} {L : Link} {w₁ w₂ : World} {s₁ s₂ : Session} {ev ev' : Evaluator}
  {i j : ScopeId} {e e' : Expr}

def Matching (R : ScopeId → Prop) (base : Nat) (s₁ s₂ : Session) (ev ev' : Evaluator) : Prop :=
  ∀ L w₁ w₂ i j e e', s₁.Twin L s₂ → World.Twin R base L w₁ w₂ → L.scopes i j → e.Twin L e' →
    Abreast R base L Expr.Twin (ev i e) (ev' j e') w₁ w₂

theorem operands_agree (form : Keyword) (n : Nat) (he : e.Twin L e') :
    Agree (fun vs us : Vector Expr n => ∀ k, (vs.get k).Twin L (us.get k)) (operands form n e)
      (operands form n e') := by
  rw [operands, operands, he.print]
  rcases rel_cases he.toList? with ⟨h, h'⟩ | ⟨vs, us, h, h', hvs⟩
  · rw [h, h']
    exact .error _
  · rw [h, h']
    have hlen := hvs.length_eq
    dsimp only
    by_cases hn : vs.length = n
    · rw [dif_pos hn, dif_pos (hlen ▸ hn)]
      apply Agree.ok
      intro k
      exact hvs.get _ _
    · rw [dif_neg hn, dif_neg (hlen ▸ hn)]
      exact .error _

theorem quote_abreast (h : World.Twin R base L w₁ w₂) (he : e.Twin L e') :
    Abreast R base L Expr.Twin (quote e) (quote e') w₁ w₂ := by
  apply Abreast.agree_bind h (operands_agree .quote 1 he)
  intro vs us hvs
  exact .pure h (hvs _)

theorem set_abreast (hev : Matching R base s₁ s₂ ev ev') (hs : s₁.Twin L s₂) (h : World.Twin R base L w₁ w₂)
    (hi : L.scopes i j) (he : e.Twin L e') : Abreast R base L Expr.Twin (set ev i e) (set ev' j e') w₁ w₂ := by
  apply Abreast.agree_bind h (operands_agree .set 2 he)
  intro vs us hvs
  have target := hvs ⟨0, by decide⟩
  have value := hvs ⟨1, by decide⟩
  have hstop := Abreast.refuse h .setTarget target
  generalize vs.get ⟨0, by decide⟩ = a at target hstop
  generalize us.get ⟨0, by decide⟩ = b at target hstop
  cases target with
  | symbol hx =>
    apply (hev L w₁ w₂ i j _ _ hs h hi value).bind
    intro L' v u w₁' w₂' hL h' hv
    apply (Abreast.set h' (hL.scopes hi) (hx.mono hL) hv).bind
    intro L'' _ _ w₁'' w₂'' hL' h'' _
    exact .pure h'' (hv.mono hL')
  | _ => exact hstop

theorem defun_abreast (h : World.Twin R base L w₁ w₂) (hi : L.scopes i j) (he : e.Twin L e') :
    Abreast R base L Expr.Twin (defun i e) (defun j e') w₁ w₂ := by
  apply Abreast.agree_bind h (operands_agree .defun 2 he)
  intro vs us hvs
  have header := hvs ⟨0, by decide⟩
  have body := hvs ⟨1, by decide⟩
  have hstop := Abreast.refuse h .defunHeader header
  generalize vs.get ⟨0, by decide⟩ = a at header hstop
  generalize us.get ⟨0, by decide⟩ = b at header hstop
  cases header with
  | pair hp hname hparams =>
    have hstop := Abreast.refuse h .defunName hname
    cases hname with
    | symbol hf =>
      have hmake (L' : Link) (n m : Ident) (hL : L.Le L') (hn : L'.idents n m) :=
        Expr.Twin.function hn (hparams.mono hL) (body.mono hL) (hL.scopes hi)
      apply (Abreast.fresh h hmake).bind
      intro L' v u w₁' w₂' hL h' hv
      apply (Abreast.define h' (hL.scopes hi) (hf.mono hL) hv).bind
      intro L'' _ _ w₁'' w₂'' hL' h'' _
      exact .pure h'' (.symbol (hf.mono (hL.trans hL')))
    | _ => exact hstop
  | _ => exact hstop

theorem arguments_abreast (hev : Matching R base s₁ s₂ ev ev') (hs : s₁.Twin L s₂) (h : World.Twin R base L w₁ w₂)
    (hi : L.scopes i j) {es es' : List Expr} (hes : List.Forall₂ (Expr.Twin L) es es') :
    Abreast R base L (fun L => List.Forall₂ (Expr.Twin L)) (arguments ev i es) (arguments ev' j es') w₁ w₂ := by
  induction es generalizing es' L w₁ w₂ with
  | nil =>
    cases hes
    exact .pure h .nil
  | cons e es ih =>
    cases hes with
    | cons he hes =>
      apply (hev L w₁ w₂ i j _ _ hs h hi he).bind
      intro L' v u w₁' w₂' hL h' hv
      apply (ih (hs.mono hL) h' (hL.scopes hi) (hes.imp fun _ _ he => he.mono hL)).bind
      intro L'' vs us w₁'' w₂'' hL' h'' hvs
      exact .pure h'' (.cons (hv.mono hL') hvs)

theorem apply_abreast (hev : Matching R base s₁ s₂ ev ev') (hs : s₁.Twin L s₂) (h : World.Twin R base L w₁ w₂)
    {f f' : Expr} (hf : f.Twin L f') {vs us : List Expr} (hvs : List.Forall₂ (Expr.Twin L) vs us) :
    Abreast R base L Expr.Twin (apply s₁ ev f vs) (apply s₂ ev' f' us) w₁ w₂ := by
  have hstop := Abreast.refuse h .notApplicable hf
  cases hf with
  | function _ hp hb hscope =>
    apply (Abreast.chain h hvs hs.nil).bind
    intro L' a a' w₁' w₂' hL h' ha
    apply (Abreast.extend h' (hL.scopes hscope) (hp.mono hL) ha).bind
    intro L'' inner inner' w₁'' w₂'' hL' h'' hinner
    exact hev L'' w₁'' w₂'' inner inner' _ _ (hs.mono (hL.trans hL')) h'' hinner (hb.mono (hL.trans hL'))
  | symbol hx =>
    rw [apply, apply, hs.primitive? hx, hx.name]
    split
    · rw [hs.left, hs.right]
      exact Primitive.apply_abreast h hvs _
    · exact .throw h _
  | _ => exact hstop

theorem call_abreast (hev : Matching R base s₁ s₂ ev ev') (hs : s₁.Twin L s₂) (h : World.Twin R base L w₁ w₂)
    (hi : L.scopes i j) {head head' tail tail' : Expr} (hh : head.Twin L head') (ht : tail.Twin L tail') :
    Abreast R base L Expr.Twin (call s₁ ev i head tail) (call s₂ ev' j head' tail') w₁ w₂ := by
  apply (hev L w₁ w₂ i j _ _ hs h hi hh).bind
  intro L' f f' w₁' w₂' hL h' hf
  rcases rel_cases (ht.mono hL).toList? with ⟨ht₁, ht₂⟩ | ⟨es, es', ht₁, ht₂, hes⟩
  · rw [ht₁, ht₂]
    exact .refuse h' .argumentList (ht.mono hL)
  · rw [ht₁, ht₂]
    apply (arguments_abreast hev (hs.mono hL) h' (hL.scopes hi) hes).bind
    intro L'' vs us w₁'' w₂'' hL' h'' hvs
    exact apply_abreast hev (hs.mono (hL.trans hL')) h'' (hf.mono hL') hvs

theorem cond_abreast (hev : Matching R base s₁ s₂ ev ev') (hs : s₁.Twin L s₂) (h : World.Twin R base L w₁ w₂)
    (hi : L.scopes i j) (he : e.Twin L e') :
    Abreast R base L Expr.Twin (cond s₁ ev i e) (cond s₂ ev' j e') w₁ w₂ := by
  have stop {L : Link} {w₁ w₂ : World} (hs : s₁.Twin L s₂) (h : World.Twin R base L w₁ w₂) {e e' : Expr}
      (he : e.Twin L e') : Abreast R base L Expr.Twin
        (if e.isNil then pure s₁.nil else Run.throw (.condEnd e.print))
        (if e'.isNil then pure s₂.nil else Run.throw (.condEnd e'.print)) w₁ w₂ := by
    rw [he.isNil]
    split
    · exact .pure h hs.nil
    · exact .refuse h .condEnd he
  induction e generalizing e' L w₁ w₂ with
  | pair n clause clauses _ ih =>
    cases he with
    | pair hn hclause hclauses =>
      have hstop := Abreast.refuse h .condClause hclause
      rcases rel_cases hclause.toList? with ⟨hc, hc'⟩ | ⟨es, es', hc, hc', hes⟩
      · rw [cond, cond, hc, hc']
        exact hstop
      · rw [cond, cond, hc, hc']
        rcases hes with _ | ⟨hcondition, _ | ⟨hresult, _ | ⟨hthird, hmore⟩⟩⟩
        · exact hstop
        · exact hstop
        · -- T is known by identity, so both sides take the shortcut or neither does.
          have ht := hcondition.symbol?_eq_some_iff (hs.keyword .t)
          dsimp only
          split_ifs with h₁ h₂ h₂
          · exact hev L w₁ w₂ i j _ _ hs h hi hresult
          · exact absurd (ht.mp h₁) h₂
          · exact absurd (ht.mpr h₂) h₁
          · apply (hev L w₁ w₂ i j _ _ hs h hi hcondition).bind
            intro L' v u w₁' w₂' hL h' hv
            rw [hv.isNil]
            split
            · exact ih (hs.mono hL) h' (hL.scopes hi) (hclauses.mono hL)
            · exact hev L' w₁' w₂' i j _ _ (hs.mono hL) h' (hL.scopes hi) (hresult.mono hL)
        · exact hstop
  | _ =>
    have hstop := stop hs h he
    cases he
    exact hstop

theorem step_abreast (hev : Matching R base s₁ s₂ ev ev') : Matching R base s₁ s₂ (step s₁ ev) (step s₂ ev') := by
  intro L w₁ w₂ i j e e' hs h hi he
  cases he with
  | symbol hx => exact .resolve h hi hx
  | pair hp hh ht =>
    rw [step, step, hs.form hh]
    split
    · exact quote_abreast h ht
    · exact set_abreast hev hs h hi ht
    · exact defun_abreast h hi ht
    · exact cond_abreast hev hs h hi ht
    · exact call_abreast hev hs h hi hh ht
  | number n => exact .pure h (.number n)
  | string hn text => exact .pure h (.string hn text)
  | function hn hp hb hscope => exact .pure h (.function hn hp hb hscope)

end Eval

theorem eval_matching (R : ScopeId → Prop) (base : Nat) (s₁ s₂ : Session) (depth : Nat) :
    Eval.Matching R base s₁ s₂ (eval s₁ depth) (eval s₂ depth) := by
  induction depth with
  | zero => exact fun _ _ _ _ _ _ _ _ _ _ _ => .exhausted rfl rfl
  | succ depth ih => exact Eval.step_abreast ih

end Lisp
