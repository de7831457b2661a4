import Lisp.Proofs.Likeness
import Mathlib.Logic.Relator

namespace Lisp

/-- How the things of one world correspond to those of another: the symbols of one table to those
of another table, and certain identities and scopes in pairs. -/
structure Link where
  left : Nat
  right : Nat
  idents : Ident → Ident → Prop
  scopes : ScopeId → ScopeId → Prop

structure Link.Le (L L' : Link) : Prop where
  left : L'.left = L.left
  right : L'.right = L.right
  idents : ∀ {i j}, L.idents i j → L'.idents i j
  scopes : ∀ {i j}, L.scopes i j → L'.scopes i j

theorem Link.Le.refl (L : Link) : L.Le L :=
  ⟨rfl, rfl, id, id⟩

theorem Link.Le.trans {L L' L'' : Link} (h : L.Le L') (h' : L'.Le L'') : L.Le L'' :=
  ⟨h'.left.trans h.left, h'.right.trans h.right, fun hi => h'.idents (h.idents hi), fun hi => h'.scopes (h.scopes hi)⟩

namespace Link

def Upward (R : Nat → Nat → Prop) (n i j : Nat) (a b : Nat) : Prop :=
  R a b ∨ ∃ k < n, a = i + k ∧ b = j + k

theorem upward_unique {R : Nat → Nat → Prop} {i j : Nat} (hR : Relator.BiUnique R)
    (hbound : ∀ {a b}, R a b → a < i ∧ b < j) (n : Nat) : Relator.BiUnique (Upward R n i j) := by
  constructor
  · rintro a b c (ha | ⟨k, -, rfl, rfl⟩) (hb | ⟨l, -, rfl, hl⟩)
    · exact hR.1 ha hb
    · have := hbound ha
      omega
    · have := hbound hb
      omega
    · omega
  · rintro a b c (hb | ⟨k, -, rfl, rfl⟩) (hc | ⟨l, -, hl, rfl⟩)
    · exact hR.2 hb hc
    · have := hbound hb
      omega
    · have := hbound hc
      omega
    · omega

def withIdents (L : Link) (n : Nat) (i j : Ident) : Link :=
  { L with idents := Upward L.idents n i j }

def withScope (L : Link) (i j : ScopeId) : Link :=
  { L with scopes := Upward L.scopes 1 i j }

theorem le_withIdents (L : Link) (n : Nat) (i j : Ident) : L.Le (L.withIdents n i j) :=
  ⟨rfl, rfl, .inl, id⟩

theorem le_withScope (L : Link) (i j : ScopeId) : L.Le (L.withScope i j) :=
  ⟨rfl, rfl, id, .inl⟩

theorem withIdents_new (L : Link) (i j : Ident) : (L.withIdents 1 i j).idents i j :=
  .inr ⟨0, Nat.one_pos, rfl, rfl⟩

theorem withScope_new (L : Link) (i j : ScopeId) : (L.withScope i j).scopes i j :=
  .inr ⟨0, Nat.one_pos, rfl, rfl⟩

theorem withScope_cases {L : Link} {i j a b : ScopeId} (h : (L.withScope i j).scopes a b) :
    L.scopes a b ∨ a = i ∧ b = j := by
  rcases h with h | ⟨k, hk, rfl, rfl⟩
  · exact .inl h
  · obtain rfl := Nat.lt_one_iff.mp hk
    exact .inr ⟨rfl, rfl⟩

end Link

structure Symbol.Twin (L : Link) (x y : Symbol) : Prop where
  left : x.table = L.left
  right : y.table = L.right
  index : y.index = x.index
  name : y.name = x.name

namespace Symbol.Twin

variable {L L' : Link} {x x' y y' : Symbol}

theorem mono (hL : L.Le L') (h : x.Twin L y) : x.Twin L' y :=
  ⟨h.left.trans hL.left.symm, h.right.trans hL.right.symm, h.index, h.name⟩

theorem eq_iff (h : x.Twin L y) (h' : x'.Twin L y') : x = x' ↔ y = y' := by
  obtain ⟨_, _, _⟩ := x
  obtain ⟨_, _, _⟩ := x'
  obtain ⟨_, _, _⟩ := y
  obtain ⟨_, _, _⟩ := y'
  obtain ⟨rfl, rfl, rfl, rfl⟩ := h
  obtain ⟨rfl, rfl, rfl, rfl⟩ := h'
  simp

theorem keyword (L : Link) (k : Keyword) : (k.symbol L.left).Twin L (k.symbol L.right) :=
  ⟨rfl, rfl, rfl, rfl⟩

end Symbol.Twin

inductive Expr.Twin (L : Link) : Expr → Expr → Prop where
  | symbol {x y : Symbol} (hx : x.Twin L y) : Twin L (.symbol x) (.symbol y)
  | number (n : Int64) : Twin L (.number n) (.number n)
  | string {i j : Ident} (hi : L.idents i j) (text : String) : Twin L (.string i text) (.string j text)
  | pair {i j : Ident} {h h' t t' : Expr} (hi : L.idents i j) (hh : Twin L h h') (ht : Twin L t t') :
    Twin L (.pair i h t) (.pair j h' t')
  | function {i j : Ident} {p p' b b' : Expr} {s s' : ScopeId} (hi : L.idents i j) (hp : Twin L p p')
    (hb : Twin L b b') (hs : L.scopes s s') : Twin L (.function i p b s) (.function j p' b' s')

namespace Expr.Twin

variable {L L' : Link} {e e' : Expr}

theorem mono (hL : L.Le L') (h : e.Twin L e') : e.Twin L' e' := by
  induction h with
  | symbol hx => exact .symbol (hx.mono hL)
  | number n => exact .number n
  | string hi text => exact .string (hL.idents hi) text
  | pair hi _ _ ihh iht => exact .pair (hL.idents hi) ihh iht
  | function hi _ _ hs ihp ihb => exact .function (hL.idents hi) ihp ihb (hL.scopes hs)

theorem keyword (L : Link) (k : Keyword) : (Expr.keyword k L.left).Twin L (.keyword k L.right) :=
  .symbol (.keyword L k)

theorem likeness (L : Link) : Likeness (Twin L) := by
  intro a b h
  cases h with
  | symbol hx => exact .symbol hx.name
  | number n => exact .number n
  | string _ text => exact .string _ _ text
  | pair _ hh ht => exact .pair _ _ hh ht
  | function _ _ _ _ => exact .function _ _ _ _ _ _ _ _

theorem isNil (h : e.Twin L e') : e'.isNil = e.isNil :=
  (likeness L).isNil h

theorem symbol? (h : e.Twin L e') : Option.Rel (Symbol.Twin L) e.symbol? e'.symbol? := by
  cases h with
  | symbol hx => exact .some hx
  | _ => exact .none

theorem symbol?_eq_some_iff (h : e.Twin L e') {x y : Symbol} (hx : x.Twin L y) :
    e.symbol? = some x ↔ e'.symbol? = some y := by
  rcases rel_cases h.symbol? with ⟨hz, hz'⟩ | ⟨z, z', hz, hz', hzz⟩
  · simp [hz, hz']
  · simp [hz, hz', hzz.eq_iff hx]

theorem toList? (h : e.Twin L e') : Option.Rel (List.Forall₂ (Twin L)) e.toList? e'.toList? :=
  (likeness L).toList? h

theorem print (h : e.Twin L e') : e'.print = e.print :=
  (likeness L).print h

theorem tagged (h : e.Twin L e') : e'.tagged = e.tagged := by
  rw [Expr.tagged, Expr.tagged, (likeness L).write h]

theorem chain {vs us : List Expr} {tail tail' : Expr} (hvs : List.Forall₂ (Twin L) vs us) (ht : tail.Twin L tail')
    {i j : Ident} (hi : ∀ n < vs.length, L.idents (i + n) (j + n)) :
    (Expr.chain i vs tail).Twin L (.chain j us tail') := by
  induction hvs generalizing i j with
  | nil => exact ht
  | cons hv _ ih =>
    apply Twin.pair (hi 0 (by simp)) hv
    apply ih
    intro n hn
    have hnext := hi (n + 1) (by simpa using hn)
    rwa [Nat.add_comm n 1, ← Nat.add_assoc, ← Nat.add_assoc] at hnext

section Identity

variable {a a' b b' : Expr} (hL : Relator.BiUnique L.idents)

include hL

theorem ident_beq {i i' j j' : Ident} (h : L.idents i i') (h' : L.idents j j') : (i' == j') = (i == j) := by
  rw [Bool.eq_iff_iff, beq_iff_eq, beq_iff_eq]
  exact (Relator.rel_eq hL h h').symm

theorem identical (h : a.Twin L a') (h' : b.Twin L b') : a'.identical b' = a.identical b := by
  cases h with
  | symbol hx =>
    cases h' with
    | symbol hy =>
      rw [Expr.identical, Expr.identical, Bool.eq_iff_iff, beq_iff_eq, beq_iff_eq]
      exact (hx.eq_iff hy).symm
    | _ => rfl
  | number n => cases h' <;> rfl
  | string hi text =>
    cases h' with
    | string hj _ => exact ident_beq hL hi hj
    | _ => rfl
  | pair hi _ _ =>
    cases h' with
    | pair hj _ _ => exact ident_beq hL hi hj
    | _ => rfl
  | function hi _ _ _ =>
    cases h' with
    | function hj _ _ _ => exact ident_beq hL hi hj
    | _ => rfl

theorem equal (h : a.Twin L a') (h' : b.Twin L b') : a'.equal b' = a.equal b :=
  (likeness L).equal (identical hL) h h'

end Identity

end Expr.Twin

end Lisp
