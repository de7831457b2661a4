import Lisp.Expr.Basic
import Mathlib.Tactic.SplitIfs

namespace Lisp.Expr

def rest : Nat → Expr → Expr
  | n + 1, pair _ _ t => t.rest n
  | _, e => e

theorem rest_zero (e : Expr) : e.rest 0 = e := by
  cases e <;> rfl

theorem elements_rest (n : Nat) (e : Expr) : (e.rest n).elements = e.elements.drop n := by
  induction e generalizing n with
  | pair i h t _ iht =>
    cases n with
    | zero => rfl
    | succ n => exact iht n
  | _ => cases n <;> rfl

theorem terminator_rest (n : Nat) (e : Expr) : (e.rest n).terminator = e.terminator := by
  induction e generalizing n with
  | pair i h t _ iht =>
    cases n with
    | zero => rfl
    | succ n => exact iht n
  | _ => cases n <;> rfl

theorem isAtom_terminator (e : Expr) : e.terminator.isAtom = true := by
  induction e with
  | pair i h t _ iht => exact iht
  | _ => rfl

theorem rest_length (e : Expr) : e.rest e.elements.length = e.terminator := by
  induction e with
  | pair i h t _ iht => exact iht
  | _ => rfl

theorem rest_eq_pair {e q : Expr} {n : Nat} (h : e.elements[n]? = some q) : ∃ i t, e.rest n = pair i q t := by
  induction e generalizing n with
  | pair i head t _ iht =>
    cases n with
    | zero =>
      obtain rfl := Option.some.inj h
      exact ⟨i, t, rfl⟩
    | succ n => exact iht h
  | _ => simp [elements] at h

theorem rest_isNil {e : Expr} {n : Nat} (h : n ≤ e.elements.length) :
    (e.rest n).isNil = true ↔ e.elements.length = n ∧ e.terminator.isNil = true := by
  by_cases hn : e.elements.length = n
  · subst hn
    simp [rest_length]
  · obtain ⟨i, t, ht⟩ := rest_eq_pair (List.getElem?_eq_getElem (show n < e.elements.length by omega))
    simp [ht, isNil, hn]

theorem isList_eq (e : Expr) : e.isList = e.terminator.isNil := by
  induction e with
  | pair i h t _ iht => exact iht
  | _ => rfl

theorem toList?_eq_some_iff {e : Expr} {vs : List Expr} :
    e.toList? = some vs ↔ e.elements = vs ∧ e.terminator.isNil = true := by
  rw [toList?]
  split_ifs with hnil <;> simp [hnil]

theorem listLength?_eq (e : Expr) :
    e.listLength? = if e.terminator.isNil then some e.elements.length else none := by
  induction e with
  | pair i h t _ iht =>
    rw [listLength?, iht, terminator, elements]
    split_ifs <;> rfl
  | _ => rfl

theorem isSome_toList? (e : Expr) : e.toList?.isSome = e.isList := by
  rw [isList_eq, toList?]
  split_ifs with hnil <;> simp [hnil]

theorem map_length_toList? (e : Expr) : e.toList?.map List.length = e.listLength? := by
  rw [listLength?_eq, toList?]
  split_ifs <;> rfl

theorem elements_chain (next : Ident) (vs : List Expr) (e : Expr) :
    (chain next vs e).elements = vs ++ e.elements := by
  induction vs generalizing next with
  | nil => rfl
  | cons v vs ih => simp only [chain, elements, ih, List.cons_append]

theorem terminator_chain (next : Ident) (vs : List Expr) (e : Expr) :
    (chain next vs e).terminator = e.terminator := by
  induction vs generalizing next with
  | nil => rfl
  | cons v vs ih => simp only [chain, terminator, ih]

end Lisp.Expr
