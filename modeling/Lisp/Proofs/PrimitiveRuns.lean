import Lisp.Proofs.ConfinedRuns
import Lisp.Proofs.Likeness

namespace Lisp

namespace Run

/-- Two runs that have nothing to do with scopes. They fail alike and change nothing, or they write
the same text and take as many identities; what values they give then is up to `F`. -/
inductive Concur (F : Nat → Expr → Expr → Prop) (x y : Run Error World Expr) (w w' : World) : Prop where
  | error (e : Error) (h : x w = .error e w) (h' : y w' = .error e w')
  | value {v u : Expr} (n : Nat) (text : String) (hvu : F n v u)
    (h : x w = .value v { w with next := w.next + n, sink := w.sink.push text })
    (h' : y w' = .value u { w' with next := w'.next + n, sink := w'.sink.push text })

namespace Concur

variable {F : Nat → Expr → Expr → Prop} {w w' : World} {α β : Type}

theorem silent {x y : Run Error World Expr} {v u : Expr} (n : Nat) (hvu : F n v u)
    (h : x w = .value v { w with next := w.next + n }) (h' : y w' = .value u { w' with next := w'.next + n }) :
    Concur F x y w w' := by
  refine .value n "" hvu ?_ ?_
  · rw [Sink.push_empty, h]
  · rw [Sink.push_empty, h']

theorem pure {v u : Expr} (hvu : F 0 v u) : Concur F (Pure.pure v) (Pure.pure u) w w' :=
  .silent 0 hvu rfl rfl

theorem chain {vs us : List Expr} {tail tail' : Expr} (hlen : vs.length = us.length)
    (h : F vs.length (.chain w.next vs tail) (.chain w'.next us tail')) :
    Concur F (World.chain vs tail) (World.chain us tail') w w' :=
  .silent vs.length h rfl (by rw [World.chain, hlen])

theorem agree_bind {S : α → β → Prop} {r : Except Error α} {r' : Except Error β} {f : α → Run Error World Expr}
    {g : β → Run Error World Expr} (hr : Agree S r r') (hf : ∀ a b, S a b → Concur F (f a) (g b) w w') :
    Concur F (Run.ofExcept r >>= f) (Run.ofExcept r' >>= g) w w' := by
  cases hr with
  | ok hab => exact hf _ _ hab
  | error e => exact .error e rfl rfl

theorem same_bind (r : Except Error α) {f g : α → Run Error World Expr} (hf : ∀ a, Concur F (f a) (g a) w w') :
    Concur F (Run.ofExcept r >>= f) (Run.ofExcept r >>= g) w w' := by
  apply agree_bind (.refl r)
  rintro a _ rfl
  exact hf a

end Concur

end Run

namespace Primitive

/-- What a primitive makes out of arguments related by `E` is related by `F`. The number that `F`
has is that of the identities it takes, from `i` on and from `j` on. -/
structure Renews (E : Expr → Expr → Prop) (F : Nat → Expr → Expr → Prop) (table table' i j : Nat) : Prop where
  argument : ∀ {v u : Expr}, E v u → F 0 v u
  keyword : ∀ k : Keyword, F 0 (.keyword k table) (.keyword k table')
  number : ∀ n : Int64, F 0 (.number n) (.number n)
  string : ∀ text : String, F 1 (.string i text) (.string j text)
  pair : ∀ {h h' t t' : Expr}, E h h' → E t t' → F 1 (.pair i h t) (.pair j h' t')
  list : ∀ {vs us : List Expr}, List.Forall₂ E vs us →
    F vs.length (.chain i vs (.nil table)) (.chain j us (.nil table'))

def Steady (test : Expr → Expr → Bool) (vs us : List Expr) : Prop :=
  ∀ a b a' b' : Expr, vs = [a, b] → us = [a', b'] → test a' b' = test a b

variable {E : Expr → Expr → Prop} {F : Nat → Expr → Expr → Prop} {table table' : Nat} {w w' : World}
  {vs us : List Expr}

theorem Steady.of_forall₂ {test : Expr → Expr → Bool} (hvs : List.Forall₂ E vs us)
    (h : ∀ {a b a' b'}, E a a' → E b b' → test a' b' = test a b) : Steady test vs us := by
  rintro a b a' b' rfl rfl
  obtain ⟨ha, hb⟩ := List.forall₂_cons.mp hvs
  exact h ha (List.forall₂_cons.mp hb).1

theorem apply_concur (hE : Expr.Likeness E) (hF : Renews E F table table' w.next w'.next)
    (hvs : List.Forall₂ E vs us) (p : Primitive) (heq : p = eq → Steady Expr.identical vs us)
    (hequal : p = equal → Steady Expr.equal vs us) :
    Run.Concur F (p.apply table vs) (p.apply table' us) w w' := by
  have truth {b b' : Bool} (hb : b' = b) :
      Run.Concur F (pure (.truth table b)) (pure (.truth table' b')) w w' := by
    subst hb
    exact .pure (hF.keyword _)
  have number (n : Int64) : Run.Concur F (pure (.number n)) (pure (.number n)) w w' := .pure (hF.number n)
  have refuse (message : String → Error) {a b : Expr} (hab : E a b) :
      Run.Concur F (Run.throw (message a.print)) (Run.throw (message b.print)) w w' := by
    rw [hE.print hab]
    exact .error _ rfl rfl
  have compare (q : Primitive) (test : Int64 → Int64 → Bool) {a a' b b' : Expr} (hab : E a b) (hab' : E a' b') :
      Run.Concur F
        (do pure (.truth table (test (← Run.ofExcept (q.number a)) (← Run.ofExcept (q.number a')))))
        (do pure (.truth table' (test (← Run.ofExcept (q.number b)) (← Run.ofExcept (q.number b'))))) w w' := by
    rw [q.number_eq hE hab, q.number_eq hE hab']
    exact .same_bind _ fun m => .same_bind _ fun n => truth rfl
  cases p with
  | car =>
    apply Run.Concur.agree_bind (one_agree _ hvs)
    intro a b hab
    have hstop := refuse (.noParts car.name) hab
    cases hE _ _ hab with
    | pair _ _ hh _ => exact .pure (hF.argument hh)
    | _ => exact hstop
  | cdr =>
    apply Run.Concur.agree_bind (one_agree _ hvs)
    intro a b hab
    have hstop := refuse (.noParts cdr.name) hab
    cases hE _ _ hab with
    | pair _ _ _ ht => exact .pure (hF.argument ht)
    | _ => exact hstop
  | cons =>
    apply Run.Concur.agree_bind (two_agree _ hvs)
    rintro a b ⟨-, hh, ht⟩
    exact .silent 1 (hF.pair hh ht) rfl rfl
  | list => exact .chain hvs.length_eq (hF.list hvs)
  | eq =>
    apply Run.Concur.agree_bind (two_agree _ hvs)
    rintro a b ⟨⟨ha, hb⟩, -⟩
    exact truth (heq rfl _ _ _ _ ha hb)
  | equal =>
    apply Run.Concur.agree_bind (two_agree _ hvs)
    rintro a b ⟨⟨ha, hb⟩, -⟩
    exact truth (hequal rfl _ _ _ _ ha hb)
  | atom =>
    apply Run.Concur.agree_bind (one_agree _ hvs)
    intro a b hab
    exact truth (hE.isAtom hab)
  | isList =>
    apply Run.Concur.agree_bind (one_agree _ hvs)
    intro a b hab
    exact truth (hE.isList hab)
  | concat =>
    rw [apply, apply, map_eq_of_forall₂ (plainText_eq hE) hvs]
    exact .silent 1 (hF.string _) rfl rfl
  | length =>
    apply Run.Concur.agree_bind (one_agree _ hvs)
    intro a b hab
    have hstop := refuse (.notString length.name) hab
    cases hE _ _ hab with
    | string _ _ text => exact number _
    | _ => exact hstop
  | add =>
    rw [apply, apply, numbers_eq hE _ hvs]
    exact .same_bind _ fun ns => number _
  | sub =>
    rw [apply, apply, numbers_eq hE _ hvs]
    exact .same_bind _ fun ns => .same_bind _ fun n => number n
  | mul =>
    rw [apply, apply, numbers_eq hE _ hvs]
    exact .same_bind _ fun ns => number _
  | div =>
    rw [apply, apply, numbers_eq hE _ hvs]
    exact .same_bind _ fun ns => .same_bind _ fun n => number n
  | less =>
    apply Run.Concur.agree_bind (two_agree _ hvs)
    rintro a b ⟨-, hab, hab'⟩
    exact compare less (· < ·) hab hab'
  | greater =>
    apply Run.Concur.agree_bind (two_agree _ hvs)
    rintro a b ⟨-, hab, hab'⟩
    exact compare greater (· > ·) hab hab'
  | print =>
    rw [apply, apply, line_eq hE hvs]
    refine .value 0 (line vs) (hF.keyword .nil) ?_ ?_
    · exact Run.bind_value (World.emit_apply (line vs) w) _
    · exact Run.bind_value (World.emit_apply (line vs) w') _

end Primitive

end Lisp
