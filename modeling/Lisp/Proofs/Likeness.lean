import Lisp.Primitive
import Mathlib.Data.List.Forall2
import Mathlib.Tactic.SplitIfs

namespace Lisp

theorem rel_cases {α β : Type} {R : α → β → Prop} {o : Option α} {o' : Option β} (h : Option.Rel R o o') :
    (o = none ∧ o' = none) ∨ ∃ a b, o = some a ∧ o' = some b ∧ R a b := by
  cases h with
  | none => exact .inl ⟨rfl, rfl⟩
  | some hab => exact .inr ⟨_, _, rfl, rfl, hab⟩

theorem map_eq_of_forall₂ {α β : Type} {R : α → α → Prop} {f : α → β} (hf : ∀ v u, R v u → f u = f v)
    {vs us : List α} (h : List.Forall₂ R vs us) : us.map f = vs.map f := by
  induction h with
  | nil => rfl
  | cons hv _ ih => rw [List.map_cons, List.map_cons, hf _ _ hv, ih]

inductive Agree {α β : Type} (R : α → β → Prop) : Except Error α → Except Error β → Prop where
  | ok {a : α} {b : β} (h : R a b) : Agree R (.ok a) (.ok b)
  | error (e : Error) : Agree R (.error e) (.error e)

theorem Agree.cases {α β : Type} {R : α → β → Prop} {x : Except Error α} {y : Except Error β} (h : Agree R x y) :
    (∃ e, x = .error e ∧ y = .error e) ∨ ∃ a b, x = .ok a ∧ y = .ok b ∧ R a b := by
  cases h with
  | ok hab => exact .inr ⟨_, _, rfl, rfl, hab⟩
  | error e => exact .inl ⟨e, rfl, rfl⟩

theorem Agree.refl {α : Type} (x : Except Error α) : Agree Eq x x := by
  cases x with
  | ok a => exact .ok rfl
  | error e => exact .error e

namespace Expr

inductive Like (E : Expr → Expr → Prop) : Expr → Expr → Prop where
  | symbol {x y : Symbol} (hxy : y.name = x.name) : Like E (symbol x) (symbol y)
  | number (n : Int64) : Like E (number n) (number n)
  | string (i j : Ident) (text : String) : Like E (string i text) (string j text)
  | pair {h h' t t' : Expr} (i j : Ident) (hh : E h h') (ht : E t t') : Like E (pair i h t) (pair j h' t')
  | function (i j : Ident) (p p' b b' : Expr) (s s' : ScopeId) : Like E (function i p b s) (function j p' b' s')

/-- A relation that holds only between expressions of one make, all the way down. -/
def Likeness (E : Expr → Expr → Prop) : Prop :=
  ∀ a b, E a b → Like E a b

theorem eq_likeness : Likeness Eq := by
  rintro a _ rfl
  cases a with
  | symbol x => exact .symbol rfl
  | number n => exact .number n
  | string i text => exact .string i i text
  | pair i h t => exact .pair i i rfl rfl
  | function i p b s => exact .function i i p p b b s s

namespace Likeness

variable {E : Expr → Expr → Prop} (hE : Likeness E) {a b : Expr}

include hE

theorem isNil (h : E a b) : b.isNil = a.isNil := by
  cases hE _ _ h with
  | symbol hxy => simp only [Expr.isNil, Symbol.isNil, hxy]
  | _ => rfl

theorem isAtom (h : E a b) : b.isAtom = a.isAtom := by
  cases hE _ _ h <;> rfl

theorem elements (h : E a b) : List.Forall₂ E a.elements b.elements := by
  induction a generalizing b with
  | pair i x t _ iht =>
    cases hE _ _ h with
    | pair _ _ hh ht => exact .cons hh (iht ht)
  | _ =>
    cases hE _ _ h
    exact .nil

theorem terminator (h : E a b) : E a.terminator b.terminator := by
  induction a generalizing b with
  | pair i x t _ iht =>
    cases hE _ _ h with
    | pair _ _ _ ht => simpa only [Expr.terminator] using iht ht
  | _ =>
    cases hE _ _ h
    exact h

theorem toList? (h : E a b) : Option.Rel (List.Forall₂ E) a.toList? b.toList? := by
  rw [Expr.toList?, Expr.toList?, hE.isNil (hE.terminator h)]
  split
  · exact .some (hE.elements h)
  · exact .none

theorem isList (h : E a b) : b.isList = a.isList := by
  induction a generalizing b with
  | pair i x t _ iht =>
    cases hE _ _ h with
    | pair _ _ _ ht => simpa only [Expr.isList] using iht ht
  | _ =>
    have hnil := hE.isNil h
    cases hE _ _ h
    exact hnil

theorem listLength? (h : E a b) : b.listLength? = a.listLength? := by
  induction a generalizing b with
  | pair i x t _ iht =>
    cases hE _ _ h with
    | pair _ _ _ ht => rw [Expr.listLength?, Expr.listLength?, iht ht]
  | _ =>
    have hnil := hE.isNil h
    cases hE _ _ h
    simp only [Expr.listLength?, hnil]

theorem write (h : E a b) (st : Style) (pos : Position) : b.write st pos = a.write st pos := by
  induction a generalizing b pos with
  | pair i x t ihh iht =>
    cases hE _ _ h with
    | pair _ _ hh ht => cases pos <;> simp only [Expr.write, ihh hh, iht ht]
  | symbol x =>
    have hnil := hE.isNil h
    cases hE _ _ h with
    | symbol hxy => cases pos <;> simp only [Expr.write, Style.atom, hnil, hxy]
  | _ =>
    cases hE _ _ h
    cases pos <;> rfl

theorem print (h : E a b) : b.print = a.print := by
  rw [Expr.print, Expr.print, hE.write h]

theorem equal (hid : ∀ {a a' b b' : Expr}, E a a' → E b b' → a'.identical b' = a.identical b) {a' b' : Expr}
    (h : E a a') (h' : E b b') : a'.equal b' = a.equal b := by
  induction a generalizing b a' b' with
  | pair i x t ihx iht =>
    have hab := hid h h'
    cases hE _ _ h with
    | pair _ j hx ht =>
      cases hE _ _ h' with
      | pair k l hy hu =>
        have hij : (j == l) = (i == k) := hab
        rw [Expr.equal, Expr.equal, hij, ihx hx hy, iht ht hu]
      | _ => exact hab
  | string i text =>
    have hab := hid h h'
    cases hE _ _ h with
    | string _ j _ =>
      cases hE _ _ h' with
      | string k l text' =>
        have hij : (j == l) = (i == k) := hab
        rw [Expr.equal, Expr.equal, hij]
      | _ => exact hab
  | _ =>
    have hab := hid h h'
    cases hE _ _ h
    cases hE _ _ h' <;> exact hab

end Likeness

end Expr

section Bindings

variable {S : Symbol → Symbol → Prop} {E F : Expr → Expr → Prop} {bs cs : List (Symbol × Expr)} {x y : Symbol}
  {v u : Expr}

def BoundAlike (S : Symbol → Symbol → Prop) (E : Expr → Expr → Prop) (b c : Symbol × Expr) : Prop :=
  S b.1 c.1 ∧ E b.2 c.2

theorem Scope.lookup_alike (hS : ∀ {x x' y y'}, S x y → S x' y' → (x = x' ↔ y = y'))
    (h : List.Forall₂ (BoundAlike S E) bs cs) (hx : S x y) : Option.Rel E (bs.lookup x) (cs.lookup y) := by
  induction h with
  | nil => exact .none
  | @cons b c bs cs hb _ ih =>
    obtain ⟨z, v⟩ := b
    obtain ⟨z', v'⟩ := c
    have hkey : (y == z') = (x == z) := by
      rw [Bool.eq_iff_iff, beq_iff_eq, beq_iff_eq]
      exact (hS hx hb.1).symm
    rw [List.lookup_cons, List.lookup_cons, hkey]
    split
    · exact .some hb.2
    · exact ih

theorem Scope.insert_alike (hS : ∀ {x x' y y'}, S x y → S x' y' → (x = x' ↔ y = y'))
    (h : List.Forall₂ (BoundAlike S E) bs cs) (hx : S x y) (hv : E v u) :
    List.Forall₂ (BoundAlike S E) (Scope.insert x v bs) (Scope.insert y u cs) := by
  induction h with
  | nil => exact .cons ⟨hx, hv⟩ .nil
  | @cons b c bs cs hb hbs ih =>
    obtain ⟨z, w⟩ := b
    obtain ⟨z', w'⟩ := c
    rw [Scope.insert, Scope.insert]
    by_cases hz : z = x
    · rw [if_pos hz, if_pos ((hS hb.1 hx).mp hz)]
      exact .cons ⟨hx, hv⟩ hbs
    · rw [if_neg hz, if_neg (mt (hS hb.1 hx).mpr hz)]
      exact .cons hb ih

theorem Scopes.matchUp_alike (hF : Expr.Likeness F) (hE : Expr.Likeness E)
    (hS : ∀ {x y}, F (.symbol x) (.symbol y) → S x y) {formals formals' arguments arguments' p p' a a' : Expr}
    (hf : F formals formals') (ha : E arguments arguments') (hp : F p p') (hv : E a a') :
    Agree (List.Forall₂ (BoundAlike S E)) (matchUp formals arguments p a) (matchUp formals' arguments' p' a') := by
  have hfl := (hF.elements hf).length_eq
  have hal := (hE.elements ha).length_eq
  have bad {p p' : Expr} (hp : F p p') :
      Agree (List.Forall₂ (BoundAlike S E)) (.error (.parameter p.print)) (.error (.parameter p'.print)) := by
    rw [hF.print hp]
    exact .error _
  induction p generalizing p' a a' with
  | symbol x =>
    have hnil := hF.isNil hp
    cases hF _ _ hp with
    | symbol hxy =>
      have hnil : Symbol.isNil _ = x.isNil := hnil
      rw [matchUp, matchUp, hnil, hE.isNil hv, hfl, hal]
      split_ifs
      · exact .ok (.cons ⟨hS hp, hv⟩ .nil)
      · exact .ok .nil
      · exact .error _
  | pair i q ps _ ih =>
    cases hF _ _ hp with
    | pair _ _ hq hps =>
      have hstop := bad hq
      cases hF _ _ hq with
      | symbol hxy =>
        have stop : Agree (List.Forall₂ (BoundAlike S E))
            (if a.isNil then .error (.tooFewArguments formals.elements.length arguments.elements.length)
              else .error (.argumentChain arguments.print))
            (if a'.isNil then .error (.tooFewArguments formals'.elements.length arguments'.elements.length)
              else .error (.argumentChain arguments'.print)) := by
          rw [hE.isNil hv, hfl, hal, hE.print ha]
          split_ifs
          · exact .error _
          · exact .error _
        cases hE _ _ hv with
        | pair _ _ hw hvs =>
          rw [matchUp, matchUp]
          rcases (ih hps hvs).cases with ⟨e, h, h'⟩ | ⟨bs, cs, h, h', hbs⟩
          · rw [h, h']
            exact .error e
          · rw [h, h']
            exact .ok (.cons ⟨hS hq, hw⟩ hbs)
        | _ => exact stop
      | _ => exact hstop
  | _ =>
    have hstop := bad hp
    cases hF _ _ hp
    exact hstop

end Bindings

namespace Primitive

variable {E : Expr → Expr → Prop} {vs us : List Expr}

theorem one_agree (p : Primitive) (h : List.Forall₂ E vs us) : Agree E (p.one vs) (p.one us) := by
  cases h with
  | nil => exact .error _
  | cons hv hvs =>
    cases hvs with
    | nil => exact .ok hv
    | cons _ hvs =>
      have hlen := hvs.length_eq
      simp only [one, List.length_cons, hlen]
      exact .error _

theorem two_agree (p : Primitive) (h : List.Forall₂ E vs us) :
    Agree (fun a b => (vs = [a.1, a.2] ∧ us = [b.1, b.2]) ∧ E a.1 b.1 ∧ E a.2 b.2) (p.two vs) (p.two us) := by
  cases h with
  | nil => exact .error _
  | cons hv hvs =>
    cases hvs with
    | nil => exact .error _
    | cons hu hus =>
      cases hus with
      | nil => exact .ok ⟨⟨rfl, rfl⟩, hv, hu⟩
      | cons _ hus =>
        have hlen := hus.length_eq
        simp only [two, List.length_cons, hlen]
        exact .error _

variable (hE : Expr.Likeness E)

include hE

theorem number_eq (p : Primitive) {v u : Expr} (h : E v u) : p.number u = p.number v := by
  have hprint := hE.print h
  cases hE _ _ h with
  | number n => rfl
  | _ => simp only [number, hprint]

theorem numbers_eq (p : Primitive) (h : List.Forall₂ E vs us) : p.numbers us = p.numbers vs := by
  rw [numbers, numbers]
  induction h with
  | nil => rfl
  | cons hv _ ih => rw [List.mapM_cons, List.mapM_cons, p.number_eq hE hv, ih]

theorem plainText_eq (v u : Expr) (h : E v u) : plainText u = plainText v := by
  have hprint := hE.print h
  cases hE _ _ h with
  | string i j text => rfl
  | _ => exact hprint

theorem line_eq (h : List.Forall₂ E vs us) : line us = line vs := by
  have htext (v u : Expr) (hv : E v u) : u.print ++ " " = v.print ++ " " := by rw [hE.print hv]
  rw [line, line, map_eq_of_forall₂ htext h]

end Primitive

end Lisp
