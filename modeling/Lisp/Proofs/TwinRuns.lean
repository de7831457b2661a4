import Lisp.Proofs.ParallelRuns
import Lisp.Proofs.PrimitiveRuns
import Lisp.Proofs.TwinScopes

namespace Lisp

namespace World

variable {R : ScopeId → Prop} {base : Nat} {L L' : Link} {w₁ w₂ w₁' w₂' : World} {α β γ δ : Type}

/-- Two worlds with corresponding contents. In the first of them all that corresponds lies in the
region. -/
structure Twin (R : ScopeId → Prop) (base : Nat) (L : Link) (w₁ w₂ : World) : Prop where
  scopes : w₁.scopes.Twin L w₂.scopes
  unique : Relator.BiUnique L.idents
  bounded : ∀ {i j}, L.idents i j → i < w₁.next ∧ j < w₂.next
  base_le : base ≤ w₁.scopes.all.size
  region : ∀ {i j}, L.scopes i j → R i ∨ base ≤ i

structure Advance (R : ScopeId → Prop) (base : Nat) (L : Link) (w₁ w₂ : World) (L' : Link) (w₁' w₂' : World) :
    Prop where
  le : L.Le L'
  twin : Twin R base L' w₁' w₂'
  spared : w₁.scopes.Spared R base w₁'.scopes
  next : w₁.next ≤ w₁'.next
  printed : ∃ text, w₁'.sink = w₁.sink.push text ∧ w₂'.sink = w₂.sink.push text

def Abreast (R : ScopeId → Prop) (base : Nat) (L : Link) (P : Link → α → β → Prop) (x : Run Error World α)
    (y : Run Error World β) (w₁ w₂ : World) : Prop :=
  Run.Abreast (Advance R base L w₁ w₂) P x y w₁ w₂

theorem Advance.trans {L'' : Link} {w₁'' w₂'' : World} (h : Advance R base L w₁ w₂ L' w₁' w₂')
    (h' : Advance R base L' w₁' w₂' L'' w₁'' w₂'') : Advance R base L w₁ w₂ L'' w₁'' w₂'' := by
  obtain ⟨s, hs₁, hs₂⟩ := h.printed
  obtain ⟨t, ht₁, ht₂⟩ := h'.printed
  refine ⟨h.le.trans h'.le, h'.twin, h.spared.trans h'.spared, Nat.le_trans h.next h'.next, s ++ t, ?_, ?_⟩
  · rw [ht₁, hs₁, Sink.push_push]
  · rw [ht₂, hs₂, Sink.push_push]

namespace Twin

theorem silent (h : Twin R base L' w₁' w₂') (hL : L.Le L') (hs : w₁.scopes.Spared R base w₁'.scopes)
    (hn : w₁.next ≤ w₁'.next) (hk₁ : w₁'.sink = w₁.sink) (hk₂ : w₂'.sink = w₂.sink) :
    Advance R base L w₁ w₂ L' w₁' w₂' :=
  ⟨hL, h, hs, hn, "", by rw [hk₁, Sink.push_empty], by rw [hk₂, Sink.push_empty]⟩

theorem advance (h : Twin R base L w₁ w₂) : Advance R base L w₁ w₂ L w₁ w₂ :=
  h.silent (.refl L) (.refl _) (Nat.le_refl _) rfl rfl

theorem inRegion (h : Twin R base L w₁ w₂) {i j : ScopeId} (hi : L.scopes i j) : w₁.scopes.Region R base i :=
  (h.region hi).imp id fun hb => ⟨hb, (h.scopes.lt hi).1⟩

theorem allot (h : Twin R base L w₁ w₂) (n : Nat) :
    Twin R base (L.withIdents n w₁.next w₂.next) { w₁ with next := w₁.next + n } { w₂ with next := w₂.next + n } := by
  have hle := L.le_withIdents n w₁.next w₂.next
  refine ⟨⟨h.scopes.unique, ?_⟩, Link.upward_unique h.unique h.bounded n, ?_, h.base_le, h.region⟩
  · intro i j hi
    obtain ⟨f, g, hf, hg, hfg⟩ := h.scopes.linked hi
    exact ⟨f, g, hf, hg, hfg.mono hle⟩
  · rintro i j (hi | ⟨k, hk, rfl, rfl⟩)
    · exact (h.bounded hi).imp (fun hi => Nat.lt_add_right n hi) (fun hj => Nat.lt_add_right n hj)
    · exact ⟨Nat.add_lt_add_left hk _, Nat.add_lt_add_left hk _⟩

end Twin

namespace Abreast

variable {P : Link → α → β → Prop} {Q : Link → γ → δ → Prop}

theorem pure {a : α} {b : β} (h : Twin R base L w₁ w₂) (hab : P L a b) :
    Abreast R base L P (Pure.pure a) (Pure.pure b) w₁ w₂ :=
  .value rfl rfl h.advance hab

theorem throw (h : Twin R base L w₁ w₂) (e : Error) : Abreast R base L P (Run.throw e) (Run.throw e) w₁ w₂ :=
  .error rfl rfl h.advance

theorem bind {x : Run Error World α} {y : Run Error World β} {f : α → Run Error World γ} {g : β → Run Error World δ}
    (hx : Abreast R base L P x y w₁ w₂)
    (hf : ∀ L' a b w₁' w₂', L.Le L' → Twin R base L' w₁' w₂' → P L' a b → Abreast R base L' Q (f a) (g b) w₁' w₂') :
    Abreast R base L Q (x >>= f) (y >>= g) w₁ w₂ := by
  apply Run.Abreast.bind hx
  intro L' a b w₁' w₂' h hab
  exact (hf L' a b w₁' w₂' h.le h.twin hab).mono fun _ _ _ => h.trans

theorem agree_bind {S : α → β → Prop} {r : Except Error α} {r' : Except Error β} {f : α → Run Error World γ}
    {g : β → Run Error World δ} (h : Twin R base L w₁ w₂) (hr : Agree S r r')
    (hf : ∀ a b, S a b → Abreast R base L Q (f a) (g b) w₁ w₂) :
    Abreast R base L Q (Run.ofExcept r >>= f) (Run.ofExcept r' >>= g) w₁ w₂ := by
  cases hr with
  | ok hab => exact hf _ _ hab
  | error e => exact .error rfl rfl h.advance

theorem of_concur (h : Twin R base L w₁ w₂) {x y : Run Error World Expr}
    (hx : Run.Concur (fun n => Expr.Twin (L.withIdents n w₁.next w₂.next)) x y w₁ w₂) :
    Abreast R base L Expr.Twin x y w₁ w₂ := by
  cases hx with
  | error e h₁ h₂ => exact .error h₁ h₂ h.advance
  | value n text hvu h₁ h₂ =>
    obtain ⟨hscopes, hunique, hbounded, hbase, hregion⟩ := h.allot n
    exact .value h₁ h₂ ⟨L.le_withIdents n _ _, ⟨hscopes, hunique, hbounded, hbase, hregion⟩, .refl _,
      Nat.le_add_right _ _, text, rfl, rfl⟩ hvu

theorem fresh (h : Twin R base L w₁ w₂) {make make' : Ident → Expr}
    (hm : ∀ L' i j, L.Le L' → L'.idents i j → (make i).Twin L' (make' j)) :
    Abreast R base L Expr.Twin (World.fresh make) (World.fresh make') w₁ w₂ :=
  .of_concur h (.silent 1 (hm _ _ _ (L.le_withIdents 1 _ _) (L.withIdents_new _ _)) rfl rfl)

theorem chain (h : Twin R base L w₁ w₂) {vs us : List Expr} {tail tail' : Expr}
    (hvs : List.Forall₂ (Expr.Twin L) vs us) (ht : tail.Twin L tail') :
    Abreast R base L Expr.Twin (World.chain vs tail) (World.chain us tail') w₁ w₂ := by
  have hle := L.le_withIdents vs.length w₁.next w₂.next
  apply of_concur h
  apply Run.Concur.chain hvs.length_eq
  exact Expr.Twin.chain (hvs.imp fun _ _ hv => hv.mono hle) (ht.mono hle) fun n hn => .inr ⟨n, hn, rfl, rfl⟩

theorem refuse (h : Twin R base L w₁ w₂) (message : String → Error) {a b : Expr} (hab : a.Twin L b) :
    Abreast R base L Expr.Twin (Run.throw (message a.print)) (Run.throw (message b.print)) w₁ w₂ := by
  rw [hab.print]
  exact throw h _

section Scope

variable {i j : ScopeId} {x y : Symbol} {v u : Expr}

theorem resolve (h : Twin R base L w₁ w₂) (hi : L.scopes i j) (hx : x.Twin L y) :
    Abreast R base L Expr.Twin (World.resolve i x) (World.resolve j y) w₁ w₂ := by
  rcases rel_cases (h.scopes.probe hi hx) with ⟨hv, hu⟩ | ⟨v, u, hv, hu, hvu⟩
  · refine .error (by rw [World.resolve, Scopes.resolve, hv]) ?_ h.advance
    rw [World.resolve, Scopes.resolve, hu, hx.name]
  · refine .value (by rw [World.resolve, Scopes.resolve, hv]) ?_ h.advance hvu
    rw [World.resolve, Scopes.resolve, hu]

theorem define (h : Twin R base L w₁ w₂) (hi : L.scopes i j) (hx : x.Twin L y) (hv : v.Twin L u) :
    Abreast R base L (fun _ _ _ => True) (World.define i x v) (World.define j y u) w₁ w₂ := by
  have htwin : Twin R base L { w₁ with scopes := w₁.scopes.define i x v }
      { w₂ with scopes := w₂.scopes.define j y u } :=
    ⟨h.scopes.define hi hx hv, h.unique, h.bounded, by simpa [Scopes.define] using h.base_le, h.region⟩
  have hspared : w₁.scopes.Spared R base (w₁.scopes.define i x v) := .define (h.inRegion hi) x v
  exact .value rfl rfl (htwin.silent (.refl L) hspared (Nat.le_refl _) rfl rfl) trivial

theorem set (h : Twin R base L w₁ w₂) (hi : L.scopes i j) (hx : x.Twin L y) (hv : v.Twin L u) :
    Abreast R base L (fun _ _ _ => True) (World.set i x v) (World.set j y u) w₁ w₂ :=
  (define h (h.scopes.holder hi hx) hx hv).congr rfl rfl

theorem extend (h : Twin R base L w₁ w₂) (hi : L.scopes i j) {formals formals' arguments arguments' : Expr}
    (hf : formals.Twin L formals') (ha : arguments.Twin L arguments') :
    Abreast R base L Link.scopes (World.extend i formals arguments) (World.extend j formals' arguments') w₁ w₂ := by
  rcases (Scopes.matchUp_agree hf ha).cases with ⟨e, hm, hm'⟩ | ⟨bs, cs, hm, hm', hbs⟩
  · exact .error (by rw [World.extend, hm]) (by rw [World.extend, hm']) h.advance
  · have hle := L.le_withScope w₁.scopes.all.size w₂.scopes.all.size
    have hspared : w₁.scopes.Spared R base (w₁.scopes.enter i bs).2 := .enter h.base_le i bs
    have htwin : Twin R base (L.withScope w₁.scopes.all.size w₂.scopes.all.size)
        { w₁ with scopes := (w₁.scopes.enter i bs).2 } { w₂ with scopes := (w₂.scopes.enter j cs).2 } := by
      refine ⟨h.scopes.enter hi hbs, h.unique, h.bounded, Nat.le_trans h.base_le hspared.grows, ?_⟩
      intro a b hab
      rcases Link.withScope_cases hab with hab | ⟨rfl, rfl⟩
      · exact h.region hab
      · exact .inr h.base_le
    refine .value ?_ ?_ (htwin.silent hle hspared (Nat.le_refl _) rfl rfl) (L.withScope_new _ _)
    · rw [World.extend, hm]
      rfl
    · rw [World.extend, hm']
      rfl

end Scope

end Abreast

end World

namespace Primitive

variable {R : ScopeId → Prop} {base : Nat} {L : Link} {w₁ w₂ : World} {vs us : List Expr}

theorem twin_renews (L : Link) (i j : Ident) :
    Renews (Expr.Twin L) (fun n => Expr.Twin (L.withIdents n i j)) L.left L.right i j where
  argument hv := hv.mono (L.le_withIdents 0 i j)
  keyword k := (Expr.Twin.keyword L k).mono (L.le_withIdents 0 i j)
  number n := .number n
  string text := .string (L.withIdents_new i j) text
  pair hh ht := .pair (L.withIdents_new i j) (hh.mono (L.le_withIdents 1 i j)) (ht.mono (L.le_withIdents 1 i j))
  list {vs us} hvs := by
    have hle := L.le_withIdents vs.length i j
    apply Expr.Twin.chain (hvs.imp fun _ _ hv => hv.mono hle) ((Expr.Twin.keyword L .nil).mono hle)
    exact fun n hn => .inr ⟨n, hn, rfl, rfl⟩

theorem apply_abreast (h : World.Twin R base L w₁ w₂) (hvs : List.Forall₂ (Expr.Twin L) vs us) (p : Primitive) :
    World.Abreast R base L Expr.Twin (p.apply L.left vs) (p.apply L.right us) w₁ w₂ := by
  have heq : Steady Expr.identical vs us := .of_forall₂ hvs (Expr.Twin.identical h.unique)
  have hequal : Steady Expr.equal vs us := .of_forall₂ hvs (Expr.Twin.equal h.unique)
  have hrenews := twin_renews L w₁.next w₂.next
  exact .of_concur h (apply_concur (Expr.Twin.likeness L) hrenews hvs p (fun _ => heq) (fun _ => hequal))

end Primitive

end Lisp
