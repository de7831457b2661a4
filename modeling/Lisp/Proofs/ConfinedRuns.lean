import Lisp.Proofs.Runs
import Lisp.Proofs.ScopeFrames
import Lisp.World

namespace Lisp

namespace Sink

def push (k : Sink) (text : String) : Sink :=
  (k.write? text).getD k

theorem push_empty (k : Sink) : k.push "" = k := by
  cases k <;> simp [push, write?]

theorem push_push (k : Sink) (s t : String) : (k.push s).push t = k.push (s ++ t) := by
  cases k <;> simp [push, write?, String.append_assoc]

end Sink

namespace World

variable {R : ScopeId → Prop} {base : Nat} {w₁ w₂ w₁' w₂' : World}

structure Alike (R : ScopeId → Prop) (base : Nat) (w₁ w₂ : World) : Prop where
  scopes : w₁.scopes.Alike R base w₂.scopes
  next : w₂.next = w₁.next

structure Parallel (R : ScopeId → Prop) (base : Nat) (w₁ w₂ w₁' w₂' : World) : Prop where
  alike : Alike R base w₁' w₂'
  left : w₁.scopes.Spared R base w₁'.scopes
  right : w₂.scopes.Spared R base w₂'.scopes
  printed : ∃ text, w₁'.sink = w₁.sink.push text ∧ w₂'.sink = w₂.sink.push text

theorem Alike.silent (h : Alike R base w₁' w₂') (h₁ : w₁.scopes.Spared R base w₁'.scopes)
    (h₂ : w₂.scopes.Spared R base w₂'.scopes) (hk₁ : w₁'.sink = w₁.sink) (hk₂ : w₂'.sink = w₂.sink) :
    Parallel R base w₁ w₂ w₁' w₂' :=
  ⟨h, h₁, h₂, "", by rw [hk₁, Sink.push_empty], by rw [hk₂, Sink.push_empty]⟩

theorem Alike.parallel (h : Alike R base w₁ w₂) : Parallel R base w₁ w₂ w₁ w₂ :=
  h.silent (.refl _) (.refl _) rfl rfl

theorem Parallel.trans {w₁'' w₂'' : World} (h : Parallel R base w₁ w₂ w₁' w₂')
    (h' : Parallel R base w₁' w₂' w₁'' w₂'') : Parallel R base w₁ w₂ w₁'' w₂'' := by
  obtain ⟨s, hs₁, hs₂⟩ := h.printed
  obtain ⟨t, ht₁, ht₂⟩ := h'.printed
  refine ⟨h'.alike, h.left.trans h'.left, h.right.trans h'.right, s ++ t, ?_, ?_⟩
  · rw [ht₁, hs₁, Sink.push_push]
  · rw [ht₂, hs₂, Sink.push_push]

end World

namespace Run

open World (Alike Parallel)

variable {R : ScopeId → Prop} {base : Nat} {w₁ w₂ w₁' w₂' : World} {α β : Type}

/-- From both worlds the run ends in the same way, with a value that fits the scopes it leaves. -/
inductive Confined (R : ScopeId → Prop) (base : Nat) (P : α → Scopes → Prop) (x : Run Error World α)
    (w₁ w₂ : World) : Prop where
  | value {a : α} {w₁' w₂' : World} (h₁ : x w₁ = .value a w₁') (h₂ : x w₂ = .value a w₂')
    (h : Parallel R base w₁ w₂ w₁' w₂') (ha : P a w₁'.scopes)
  | error {e : Error} {w₁' w₂' : World} (h₁ : x w₁ = .error e w₁') (h₂ : x w₂ = .error e w₂')
    (h : Parallel R base w₁ w₂ w₁' w₂')
  | exhausted (h₁ : x w₁ = .exhausted) (h₂ : x w₂ = .exhausted)

namespace Confined

variable {P : α → Scopes → Prop} {Q : β → Scopes → Prop}

theorem pure {a : α} (h : Alike R base w₁ w₂) (ha : P a w₁.scopes) : Confined R base P (Pure.pure a) w₁ w₂ :=
  .value rfl rfl h.parallel ha

theorem throw (h : Alike R base w₁ w₂) (e : Error) : Confined R base P (Run.throw e) w₁ w₂ :=
  .error rfl rfl h.parallel

theorem bind {x : Run Error World α} {f : α → Run Error World β} (hx : Confined R base P x w₁ w₂)
    (hf : ∀ a w₁' w₂', Parallel R base w₁ w₂ w₁' w₂' → P a w₁'.scopes → Confined R base Q (f a) w₁' w₂') :
    Confined R base Q (x >>= f) w₁ w₂ := by
  cases hx with
  | value h₁ h₂ h ha =>
    cases hf _ _ _ h ha with
    | value h₁' h₂' h' hb =>
      exact .value ((bind_value h₁ f).trans h₁') ((bind_value h₂ f).trans h₂') (h.trans h') hb
    | error h₁' h₂' h' => exact .error ((bind_value h₁ f).trans h₁') ((bind_value h₂ f).trans h₂') (h.trans h')
    | exhausted h₁' h₂' => exact .exhausted ((bind_value h₁ f).trans h₁') ((bind_value h₂ f).trans h₂')
  | error h₁ h₂ h => exact .error (bind_error h₁ f) (bind_error h₂ f) h
  | exhausted h₁ h₂ => exact .exhausted (bind_exhausted h₁ f) (bind_exhausted h₂ f)

theorem congr {x y : Run Error World α} (h : Confined R base P y w₁ w₂) (h₁ : x w₁ = y w₁) (h₂ : x w₂ = y w₂) :
    Confined R base P x w₁ w₂ := by
  cases h with
  | value hy₁ hy₂ h ha => exact .value (h₁.trans hy₁) (h₂.trans hy₂) h ha
  | error hy₁ hy₂ h => exact .error (h₁.trans hy₁) (h₂.trans hy₂) h
  | exhausted hy₁ hy₂ => exact .exhausted (h₁.trans hy₁) (h₂.trans hy₂)

theorem ofExcept_bind (h : Alike R base w₁ w₂) (r : Except Error α) {f : α → Run Error World β}
    (hf : ∀ a, r = .ok a → Confined R base Q (f a) w₁ w₂) : Confined R base Q (Run.ofExcept r >>= f) w₁ w₂ := by
  cases r with
  | ok a => exact hf a rfl
  | error e => exact .error rfl rfl h.parallel

end Confined

end Run

namespace World

open Run (Confined)

variable {R : ScopeId → Prop} {base : Nat} {w₁ w₂ : World}

abbrev Kept (R : ScopeId → Prop) (base : Nat) (v : Expr) (r : Scopes) : Prop :=
  v.Inside (r.Region R base)

theorem Parallel.region {w₁' w₂' : World} (h : Parallel R base w₁ w₂ w₁' w₂') {i : ScopeId}
    (hi : w₁.scopes.Region R base i) : w₁'.scopes.Region R base i :=
  hi.mono h.left.grows

theorem Parallel.kept {w₁' w₂' : World} (h : Parallel R base w₁ w₂ w₁' w₂') {v : Expr}
    (hv : Kept R base v w₁.scopes) : Kept R base v w₁'.scopes :=
  hv.mono (fun _ hj => h.region hj)

theorem fresh_confined (h : Alike R base w₁ w₂) {make : Ident → Expr} (hm : ∀ i, Kept R base (make i) w₁.scopes) :
    Confined R base (Kept R base) (fresh make) w₁ w₂ := by
  have hw : Alike R base { w₁ with next := w₁.next + 1 } { w₂ with next := w₁.next + 1 } := ⟨h.scopes, rfl⟩
  exact .value rfl (by rw [fresh, h.next]) (hw.silent (.refl _) (.refl _) rfl rfl) (hm w₁.next)

theorem chain_confined (h : Alike R base w₁ w₂) {vs : List Expr} {tail : Expr}
    (hvs : ∀ v ∈ vs, Kept R base v w₁.scopes) (ht : Kept R base tail w₁.scopes) :
    Confined R base (Kept R base) (chain vs tail) w₁ w₂ := by
  have hw : Alike R base { w₁ with next := w₁.next + vs.length } { w₂ with next := w₁.next + vs.length } :=
    ⟨h.scopes, rfl⟩
  exact .value rfl (by rw [chain, h.next]) (hw.silent (.refl _) (.refl _) rfl rfl) (Expr.inside_chain hvs ht _)

theorem emit_apply (text : String) (w : World) : emit text w = .value () { w with sink := w.sink.push text } := by
  rw [emit, Sink.push]
  cases w.sink.write? text <;> rfl

theorem resolve_confined (h : Alike R base w₁ w₂) {i : ScopeId} (hi : w₁.scopes.Region R base i) (x : Symbol) :
    Confined R base (Kept R base) (resolve i x) w₁ w₂ := by
  have hp := h.scopes.probe hi x
  cases hv : w₁.scopes.probe i x with
  | none =>
    rw [hv] at hp
    exact .error (by rw [resolve, Scopes.resolve, hv]) (by rw [resolve, Scopes.resolve, hp]) h.parallel
  | some v =>
    rw [hv] at hp
    exact .value (by rw [resolve, Scopes.resolve, hv]) (by rw [resolve, Scopes.resolve, hp]) h.parallel
      (h.scopes.closed.probe hi hv)

theorem define_confined (h : Alike R base w₁ w₂) {i : ScopeId} (hi : w₁.scopes.Region R base i) (x : Symbol)
    {v : Expr} (hv : Kept R base v w₁.scopes) : Confined R base (fun _ _ => True) (define i x v) w₁ w₂ := by
  refine .value rfl rfl (Alike.silent ⟨h.scopes.define hv i x, h.next⟩ ?_ ?_ rfl rfl) trivial
  · exact .define hi x v
  · exact .define (h.scopes.region.mpr hi) x v

theorem set_confined (h : Alike R base w₁ w₂) {i : ScopeId} (hi : w₁.scopes.Region R base i) (x : Symbol)
    {v : Expr} (hv : Kept R base v w₁.scopes) : Confined R base (fun _ _ => True) (set i x v) w₁ w₂ := by
  let j := (w₁.scopes.holder? i x).getD i
  have hset (w : World) (hw : w.scopes.holder? i x = w₁.scopes.holder? i x) : set i x v w = define j x v w := by
    rw [set, Scopes.set, hw]
    rfl
  have hj : w₁.scopes.Region R base j := h.scopes.closed.holder hi x
  exact (define_confined h hj x hv).congr (hset w₁ rfl) (hset w₂ (h.scopes.holder hi x))

theorem extend_confined (h : Alike R base w₁ w₂) {i : ScopeId} (hi : w₁.scopes.Region R base i) (formals : Expr)
    {arguments : Expr} (ha : Kept R base arguments w₁.scopes) :
    Confined R base (fun j r => r.Region R base j) (extend i formals arguments) w₁ w₂ := by
  cases hm : Scopes.matchUp formals arguments formals arguments with
  | error e => exact .error (by rw [extend, hm]) (by rw [extend, hm]) h.parallel
  | ok bs =>
    have hbs := Scopes.matchUp_inside ha hm
    have hsize : (w₂.scopes.enter i bs).1 = (w₁.scopes.enter i bs).1 := h.scopes.size
    have hext (w : World) : extend i formals arguments w =
        .value (w.scopes.enter i bs).1 { w with scopes := (w.scopes.enter i bs).2 } := by
      rw [extend, hm]
    have hext₂ := hext w₂
    rw [hsize] at hext₂
    refine .value (hext w₁) hext₂ (Alike.silent ⟨h.scopes.enter hi hbs, h.next⟩ ?_ ?_ rfl rfl) ?_
    · exact .enter h.scopes.base_le i bs
    · exact .enter (h.scopes.size ▸ h.scopes.base_le) i bs
    · exact Scopes.enter_region h.scopes.base_le i bs

end World

end Lisp
