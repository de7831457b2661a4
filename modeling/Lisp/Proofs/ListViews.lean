import Lisp.Proofs.Chains
import Lisp.Proofs.StructuralEquality
import Lisp.Proofs.SymbolOwnership

namespace Lisp

namespace Expr

def advance? : Expr → Option (Expr × Expr)
  | pair _ h t => some (h, t)
  | _ => none

/-- Moving along the chain for as long as there is a move passes the elements and stops at `z`. -/
inductive Traverses : Expr → List Expr → Expr → Prop where
  | stop {z : Expr} (h : z.advance? = none) : Traverses z [] z
  | move {e v rest z : Expr} {vs : List Expr} (h : e.advance? = some (v, rest)) (hrest : Traverses rest vs z) :
    Traverses e (v :: vs) z

theorem advance?_eq_none {z : Expr} (h : z.advance? = none) : z.elements = [] ∧ z.terminator = z := by
  cases z with
  | pair i head tail => cases h
  | _ => exact ⟨rfl, rfl⟩

theorem advance?_eq_some {e v rest : Expr} (h : e.advance? = some (v, rest)) :
    e.elements = v :: rest.elements ∧ e.terminator = rest.terminator := by
  cases e with
  | pair i head tail =>
    cases h
    exact ⟨rfl, rfl⟩
  | _ => cases h

theorem traverses_iff {e z : Expr} {vs : List Expr} :
    e.Traverses vs z ↔ e.elements = vs ∧ e.terminator = z := by
  constructor
  · intro h
    induction h with
    | stop h => exact advance?_eq_none h
    | move h _ ih =>
      obtain ⟨helements, hterminator⟩ := advance?_eq_some h
      rw [helements, hterminator, ih.1, ih.2]
      exact ⟨rfl, rfl⟩
  · rintro ⟨rfl, rfl⟩
    induction e with
    | pair i head tail _ iht => exact .move rfl iht
    | _ => exact .stop rfl

theorem Owned.terminator {t : SymbolTable} {e : Expr} (he : e.Owned t) : e.terminator.Owned t := by
  induction e with
  | pair i head tail _ iht => exact iht (Owned.pair.mp he).2
  | _ => exact he

theorem Owned.eq_nil {t : SymbolTable} (ht : t.Reachable) {e : Expr} (he : e.Owned t) (hnil : e.isNil = true) :
    e = .nil t.id := by
  cases e with
  | symbol x => exact congrArg Expr.symbol (((Owned.symbol.mp he).isNil_iff ht).mp hnil)
  | _ => cases hnil

theorem toList?_chain_nil (next : Ident) (vs : List Expr) (table : Nat) :
    (chain next vs (.nil table)).toList? = some vs := by
  rw [toList?_eq_some_iff, elements_chain, terminator_chain]
  exact ⟨List.append_nil vs, rfl⟩

theorem chain_same_of_toList? {t : SymbolTable} (ht : t.Reachable) {e : Expr} (he : e.Owned t) {vs : List Expr}
    (h : e.toList? = some vs) (next : Ident) : (chain next vs (.nil t.id)).Same e := by
  obtain ⟨rfl, hnil⟩ := toList?_eq_some_iff.mp h
  rw [same_iff_elements, elements_chain, terminator_chain, he.terminator.eq_nil ht hnil]
  constructor
  · rw [show (Expr.nil t.id).elements = [] from rfl, List.append_nil, List.forall₂_same]
    exact fun v _ => .refl v
  · exact .refl _

/-- The views of a chain agree. The way along it passes its elements and stops at its terminator, and
every test takes it for a list exactly if that is a NIL. A list is put together again from its
elements, and these are the operands of any form that takes so many. -/
theorem list_views_agree (e : Expr) (vs : List Expr) (w : World) :
    (∀ us z, e.Traverses us z ↔ e.elements = us ∧ e.terminator = z) ∧
    (e.isList = true ↔ ∃ us z, e.Traverses us z ∧ z.isNil = true) ∧
    e.listLength?.isSome = e.isList ∧ e.toList?.isSome = e.isList ∧
    e.listLength? = e.toList?.map List.length ∧ (∀ us, e.toList? = some us → us = e.elements) ∧
    (∃ c, World.chain vs e w = .value c { w with next := w.next + vs.length } ∧
      c.elements = vs ++ e.elements ∧ c.terminator = e.terminator) ∧
    (∀ table, ∃ c, World.chain vs (.nil table) w = .value c { w with next := w.next + vs.length } ∧
      c.toList? = some vs) ∧
    (∀ t : SymbolTable, t.Reachable → e.Owned t → e.toList? = some vs →
      ∃ c, World.chain vs (.nil t.id) w = .value c { w with next := w.next + vs.length } ∧
        c.Same e ∧ c.equal e = true) ∧
    ∀ form n,
      ((∃ us, Eval.operands form n e = .ok us ∧ us.toList = vs) ↔ e.toList? = some vs ∧ vs.length = n) ∧
      ((∃ us, Eval.operands form n e = .ok us) ∨ Eval.operands form n e = .error (.operands form n e.print)) := by
  refine ⟨fun us z => traverses_iff, ?_, ?_, e.isSome_toList?, e.map_length_toList?.symm, ?_, ?_, ?_, ?_, ?_⟩
  · simp [traverses_iff, isList_eq]
  · rw [← map_length_toList?, Option.isSome_map, isSome_toList?]
  · intro us h
    exact (toList?_eq_some_iff.mp h).1.symm
  · exact ⟨_, rfl, elements_chain _ vs e, terminator_chain _ vs e⟩
  · intro table
    exact ⟨_, rfl, toList?_chain_nil _ vs table⟩
  · intro t ht he h
    have hsame := chain_same_of_toList? ht he h w.next
    exact ⟨_, rfl, hsame, hsame.equal⟩
  · intro form n
    refine ⟨?_, Eval.operands_cases form n e⟩
    constructor
    · rintro ⟨us, hus, rfl⟩
      exact ⟨Eval.operands_eq_ok_iff.mp hus, us.length_toList⟩
    · rintro ⟨h, hlen⟩
      exact ⟨⟨vs.toArray, by simp [hlen]⟩, Eval.operands_eq_ok_iff.mpr h, rfl⟩

theorem list_views_agree_nested :
    ∃ (t : SymbolTable) (e d : Expr) (vs : List Expr) (w : World), t.Reachable ∧ e.Owned t ∧
      e.toList? = some vs ∧ vs.length = 3 ∧ e.isList = true ∧ d.isList = false ∧
      (∃ c, World.chain vs d w = .value c { w with next := w.next + vs.length } ∧
        c.elements = vs ++ [.nil t.id] ∧ c.terminator = .number 2 ∧ c.isList = false) ∧
      (∃ c, World.chain vs (.nil t.id) w = .value c { w with next := w.next + vs.length } ∧
        c.identical e = false ∧ c.Same e ∧ c.equal e = true) ∧
      (∃ us, Eval.operands .set 3 e = .ok us ∧ us.toList = vs) ∧
      Eval.operands .set 2 e = .error (.operands .set 2 e.print) := by
  let t := SymbolTable.initial 0
  let d : Expr := .pair 0 (.nil 0) (.number 2)
  let e : Expr := .pair 1 (.nil 0) (.pair 2 d (.pair 3 (.string 4 "x") (.nil 0)))
  let vs : List Expr := [.nil 0, d, .string 4 "x"]
  let w : World := ⟨.empty, 5, .closed⟩
  have ht : t.Reachable := .initial 0
  have hnil : (Expr.nil 0).Owned t := Owned.symbol.mpr ht.holds_nil
  have he : e.Owned t := by
    simp only [e, d, Owned.pair]
    exact ⟨hnil, ⟨hnil, .number 2⟩, .string 4 "x", hnil⟩
  obtain ⟨-, -, -, -, -, -, -, -, hcopy, hoperands⟩ := list_views_agree e vs w
  obtain ⟨c, hc, hsame, hequal⟩ := hcopy t ht he rfl
  obtain ⟨-, -, -, -, -, -, ⟨c', hc', helements, hterminator⟩, -⟩ := list_views_agree d vs w
  refine ⟨t, e, d, vs, w, ht, he, rfl, rfl, rfl, rfl, ⟨c', hc', helements, hterminator, ?_⟩, ⟨c, hc, ?_, hsame, hequal⟩,
    (hoperands .set 3).1.mpr ⟨rfl, rfl⟩, rfl⟩
  · rw [isList_eq, hterminator]
    rfl
  · cases hc
    rfl

-- The NIL of another table ends a list too, but is not the NIL that the list is put together with.
example : (pair 0 (.number 1) (.nil 1)).toList? = some [.number 1] ∧
    (chain 1 [.number 1] (.nil 0)).equal (.pair 0 (.number 1) (.nil 1)) = false :=
  ⟨rfl, rfl⟩

end Expr

end Lisp
