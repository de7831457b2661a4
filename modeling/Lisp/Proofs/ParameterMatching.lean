import Lisp.Proofs.Chains
import Lisp.Proofs.ScopeFrames
import Lisp.Proofs.ScopeWrites

namespace Lisp

namespace Scopes

variable {r : Scopes} {formals arguments : Expr}

section Walk

variable {p a : Expr} {xs : List Symbol}

theorem matchUp_walk (hp : xs.map Expr.symbol <+: p.elements) (ha : xs.length ≤ a.elements.length) :
    matchUp formals arguments p a =
      (matchUp formals arguments (p.rest xs.length) (a.rest xs.length)).map (xs.zip a.elements ++ ·) := by
  induction xs generalizing p a with
  | nil =>
    rw [List.length_nil, Expr.rest_zero, Expr.rest_zero]
    cases matchUp formals arguments p a <;> rfl
  | cons x xs ih =>
    cases p with
    | pair i q ps =>
      rw [List.map_cons, Expr.elements, List.cons_prefix_cons] at hp
      obtain ⟨rfl, hp⟩ := hp
      cases a with
      | pair k v vs =>
        rw [matchUp, ih hp (Nat.le_of_succ_le_succ ha), List.length_cons, Expr.rest, Expr.rest]
        cases matchUp formals arguments (ps.rest xs.length) (vs.rest xs.length) <;> rfl
      | _ => cases ha
    | _ => simp [Expr.elements] at hp

theorem matchUp_parameter {i : Ident} {q ps : Expr} (hq : q.symbol? = none) :
    matchUp formals arguments (.pair i q ps) a = .error (.parameter q.print) := by
  cases q with
  | symbol x => cases hq
  | _ => rfl

theorem matchUp_short {i : Ident} {x : Symbol} {ps : Expr} (ha : a.elements = []) :
    matchUp formals arguments (.pair i (.symbol x) ps) a = .error
      (if a.isNil then .tooFewArguments formals.elements.length arguments.elements.length
      else .argumentChain arguments.print) := by
  cases a with
  | pair k v vs => cases ha
  | _ =>
    rw [matchUp]
    · split <;> rfl
    · simp

theorem matchUp_nil {t : Symbol} (ht : t.isNil = true) :
    matchUp formals arguments (.symbol t) a = if a.isNil then .ok []
      else .error (.tooManyArguments formals.elements.length arguments.elements.length) := by
  rw [matchUp, ht]
  rfl

theorem matchUp_rest {t : Symbol} (ht : t.isNil = false) :
    matchUp formals arguments (.symbol t) a = .ok [(t, a)] := by
  rw [matchUp, ht]
  rfl

theorem matchUp_end {e : Expr} (ha : e.isAtom = true) (hs : e.symbol? = none) :
    matchUp formals arguments e a = .error (.parameter e.print) := by
  cases e with
  | symbol t => cases hs
  | pair i h t => cases ha
  | _ => rfl

end Walk

def Faulty (formals arguments : Expr) (i : Nat) : Prop :=
  ∃ p, formals.elements[i]? = some p ∧ (p.symbol? = none ∨ arguments.elements.length ≤ i)

theorem sound_names {n : Nat} (hn : n ≤ formals.elements.length) (h : ∀ j < n, ¬ Faulty formals arguments j) :
    ∃ xs : List Symbol, xs.length = n ∧ xs.map Expr.symbol <+: formals.elements ∧ n ≤ arguments.elements.length := by
  induction n with
  | zero => exact ⟨[], rfl, List.nil_prefix, Nat.zero_le _⟩
  | succ n ih =>
    obtain ⟨xs, hlen, hxs, -⟩ := ih (by omega) (fun j hj => h j (by omega))
    have hget := List.getElem?_eq_getElem (show n < formals.elements.length by omega)
    have hsound := h n (by omega)
    generalize formals.elements[n] = p at hget
    simp only [Faulty, hget, Option.some.injEq, exists_eq_left', not_or, not_le] at hsound
    cases p with
    | symbol x =>
      have htake : (xs ++ [x]).map Expr.symbol = formals.elements.take (n + 1) := by
        rw [List.take_add_one, hget, List.map_append, List.prefix_iff_eq_take.mp hxs, List.length_map, hlen]
        rfl
      refine ⟨xs ++ [x], by simp [hlen], ?_, hsound.2⟩
      rw [htake]
      exact List.take_prefix _ _
    | _ => exact absurd rfl hsound.1

theorem matchUp_faulty {i : Nat} {p : Expr} (hp : formals.elements[i]? = some p) (hi : Faulty formals arguments i)
    (h : ∀ j < i, ¬ Faulty formals arguments j) :
    matchUp formals arguments formals arguments = .error
      (if p.symbol? = none then .parameter p.print
      else if arguments.terminator.isNil then
        .tooFewArguments formals.elements.length arguments.elements.length
      else .argumentChain arguments.print) := by
  have hlt := (List.getElem?_eq_some_iff.mp hp).1
  obtain ⟨xs, rfl, hxs, ha⟩ := sound_names (Nat.le_of_lt hlt) h
  obtain ⟨k, t, ht⟩ := Expr.rest_eq_pair hp
  rw [matchUp_walk hxs ha, ht]
  cases hs : p.symbol? with
  | none => rw [matchUp_parameter hs]; rfl
  | some x =>
    obtain rfl : p = .symbol x := by
      cases p with
      | symbol y => rw [Option.some.inj hs]
      | _ => cases hs
    have hshort : arguments.elements.length ≤ xs.length := by
      obtain ⟨q, hq, hfault⟩ := hi
      obtain rfl := Option.some.inj (hp.symm.trans hq)
      exact hfault.resolve_left (by simp [hs])
    have hnone : (arguments.rest xs.length).elements = [] := by
      rw [Expr.elements_rest, List.drop_eq_nil_iff]
      exact hshort
    have hend : arguments.rest xs.length = arguments.terminator := by
      rw [← Expr.rest_length arguments, Nat.le_antisymm hshort ha]
    rw [matchUp_short hnone, hend]
    rfl

theorem matchUp_sound (h : ∀ i, ¬ Faulty formals arguments i) :
    ∃ xs : List Symbol, formals.elements = xs.map Expr.symbol ∧ xs.length ≤ arguments.elements.length ∧
      matchUp formals arguments formals arguments =
        (matchUp formals arguments formals.terminator (arguments.rest formals.elements.length)).map
          (xs.zip arguments.elements ++ ·) := by
  obtain ⟨xs, hlen, hxs, ha⟩ := sound_names (Nat.le_refl _) (fun j _ => h j)
  refine ⟨xs, ?_, by omega, ?_⟩
  · exact (hxs.eq_of_length (by simp [hlen])).symm
  · rw [matchUp_walk hxs (by omega), hlen, Expr.rest_length]

section Enter

variable {i j : ScopeId} {x : Symbol} {v : Expr} {bs : List (Symbol × Expr)}

theorem size_define (r : Scopes) (i : ScopeId) (x : Symbol) (v : Expr) :
    (r.define i x v).all.size = r.all.size := by
  simp [define]

theorem size_defineAll (r : Scopes) (j : ScopeId) (bs : List (Symbol × Expr)) :
    (bs.foldl (fun r b => r.define j b.1 b.2) r).all.size = r.all.size := by
  induction bs generalizing r with
  | nil => rfl
  | cons b bs ih => rw [List.foldl_cons, ih, size_define]

theorem parent?_defineAll (r : Scopes) (j : ScopeId) (bs : List (Symbol × Expr)) (k : ScopeId) :
    (bs.foldl (fun r b => r.define j b.1 b.2) r).parent? k = r.parent? k := by
  induction bs generalizing r with
  | nil => rfl
  | cons b bs ih => rw [List.foldl_cons, ih, parent?_define]

theorem own?_defineAll_of_notMem (hj : j < r.all.size) (hx : x ∉ bs.map Prod.fst) :
    (bs.foldl (fun r b => r.define j b.1 b.2) r).own? j x = r.own? j x := by
  induction bs generalizing r with
  | nil => rfl
  | cons b bs ih =>
    rw [List.map_cons, List.mem_cons, not_or] at hx
    rw [List.foldl_cons, ih (by rwa [size_define]) hx.2, own?_define hj, if_neg (fun h => hx.1 h.2)]

theorem own?_defineAll_last (hj : j < r.all.size) {before after : List (Symbol × Expr)}
    (hbs : bs = before ++ (x, v) :: after) (hx : x ∉ after.map Prod.fst) :
    (bs.foldl (fun r b => r.define j b.1 b.2) r).own? j x = some v := by
  have hbefore : j < (before.foldl (fun r b => r.define j b.1 b.2) r).all.size := by rwa [size_defineAll]
  rw [hbs, List.foldl_append, List.foldl_cons, own?_defineAll_of_notMem (by rwa [size_define]) hx,
    own?_define hbefore, if_pos ⟨rfl, rfl⟩]

theorem size_create (r : Scopes) (i : ScopeId) : (r.create (some i)).2.all.size = r.all.size + 1 := by
  simp [create]

theorem lt_size_create (r : Scopes) (i : ScopeId) : r.all.size < (r.create (some i)).2.all.size := by
  rw [size_create]
  omega

theorem enter_size (r : Scopes) (i : ScopeId) (bs : List (Symbol × Expr)) :
    (r.enter i bs).2.all.size = r.all.size + 1 :=
  (size_defineAll _ _ _).trans (size_create r i)

theorem enter_parent (r : Scopes) (i : ScopeId) (bs : List (Symbol × Expr)) :
    (r.enter i bs).2.parent? r.all.size = some i := by
  have hnew : (r.create (some i)).2.parent? r.all.size = some i := by simp [create, parent?]
  exact (parent?_defineAll _ _ _ _).trans hnew

theorem enter_kept (r : Scopes) (i : ScopeId) (bs : List (Symbol × Expr)) (hj : j < r.all.size) :
    (r.enter i bs).2.all[j]? = r.all[j]? :=
  (Spared.enter (R := fun _ => False) (Nat.le_refl _) i bs).same j hj id

theorem enter_own_last {before after : List (Symbol × Expr)} (hbs : bs = before ++ (x, v) :: after)
    (hx : x ∉ after.map Prod.fst) : (r.enter i bs).2.own? r.all.size x = some v :=
  own?_defineAll_last (lt_size_create r i) hbs hx

theorem enter_own_of_notMem (hx : x ∉ bs.map Prod.fst) : (r.enter i bs).2.own? r.all.size x = none := by
  have hnew : (r.create (some i)).2.own? r.all.size x = none := by simp [create, own?, Scope.get?]
  exact (own?_defineAll_of_notMem (lt_size_create r i) hx).trans hnew

end Enter

/-- Each parameter is bound to the argument in the last place where it stands. A symbol at the end of the
parameters, NIL apart, is bound to the arguments that are left, whatever stands before it. -/
structure Binds (formals arguments : Expr) (own : Symbol → Option Expr) : Prop where
  rest : ∀ t, formals.terminator = .symbol t → t.isNil = false →
    own t = some (arguments.rest formals.elements.length)
  parameter : ∀ (i : Nat) (x : Symbol) (v : Expr), formals.elements[i]? = some (.symbol x) →
    arguments.elements[i]? = some v → (∀ j : Nat, i < j → formals.elements[j]? ≠ some (.symbol x)) →
    (formals.terminator = .symbol x → x.isNil = true) → own x = some v
  nothing : ∀ x, Expr.symbol x ∉ formals.elements → (formals.terminator = .symbol x → x.isNil = true) → own x = none

structure EndBound (formals arguments : Expr) (last : List (Symbol × Expr)) : Prop where
  named : ∀ b ∈ last, formals.terminator = .symbol b.1 ∧ b.1.isNil = false
  rest : ∀ t, formals.terminator = .symbol t → t.isNil = false →
    last = [(t, arguments.rest formals.elements.length)]

theorem enter_binds {xs : List Symbol} {last : List (Symbol × Expr)} (hxs : formals.elements = xs.map Expr.symbol)
    (ha : xs.length ≤ arguments.elements.length) (hlast : EndBound formals arguments last) (scope : ScopeId) :
    Binds formals arguments ((r.enter scope (xs.zip arguments.elements ++ last)).2.own? r.all.size) := by
  have names : (xs.zip arguments.elements).map Prod.fst = xs := List.map_fst_zip ha
  have notLast {x : Symbol} (hx : formals.terminator = .symbol x → x.isNil = true) : x ∉ last.map Prod.fst := by
    intro hmem
    obtain ⟨b, hb, rfl⟩ := List.mem_map.mp hmem
    obtain ⟨hend, hnil⟩ := hlast.named b hb
    rw [hx hend] at hnil
    cases hnil
  constructor
  · intro t ht hnil
    rw [hlast.rest t ht hnil]
    exact enter_own_last rfl (by simp)
  · intro i x v hx hv hlater hend
    have hxi : xs[i]? = some x := by
      rw [hxs, List.getElem?_map, Option.map_eq_some_iff] at hx
      obtain ⟨y, hy, he⟩ := hx
      cases he
      exact hy
    have hzip : (xs.zip arguments.elements)[i]? = some (x, v) := by
      rw [List.getElem?_zip_eq_some]
      exact ⟨hxi, hv⟩
    obtain ⟨hlt, hget⟩ := List.getElem?_eq_some_iff.mp hzip
    have hsplit : xs.zip arguments.elements ++ last = (xs.zip arguments.elements).take i ++
        (x, v) :: ((xs.zip arguments.elements).drop (i + 1) ++ last) := by
      rw [← List.cons_append, ← List.append_assoc, ← hget, ← List.drop_eq_getElem_cons hlt, List.take_append_drop]
    apply enter_own_last hsplit
    rw [List.map_append, List.mem_append, not_or, List.map_drop, names]
    refine ⟨?_, notLast hend⟩
    intro hmem
    obtain ⟨j, hj⟩ := List.mem_iff_getElem?.mp hmem
    rw [List.getElem?_drop] at hj
    apply hlater (i + 1 + j) (by omega)
    rw [hxs, List.getElem?_map, hj]
    rfl
  · intro x hx hend
    apply enter_own_of_notMem
    rw [List.map_append, List.mem_append, not_or, names]
    refine ⟨?_, notLast hend⟩
    intro hmem
    rw [hxs] at hx
    exact hx (List.mem_map_of_mem hmem)

end Scopes

namespace World

open Scopes (Faulty Binds EndBound)

structure Entered (w : World) (scope : ScopeId) (formals arguments : Expr) (w' : World) : Prop where
  size : w'.scopes.all.size = w.scopes.all.size + 1
  kept : ∀ i, i < w.scopes.all.size → w'.scopes.all[i]? = w.scopes.all[i]?
  parent : w'.scopes.parent? w.scopes.all.size = some scope
  binds : Binds formals arguments (w'.scopes.own? w.scopes.all.size)
  next : w'.next = w.next
  sink : w'.sink = w.sink

variable {w : World} {scope : ScopeId} {formals arguments : Expr}

theorem extend_error {e : Error} (h : Scopes.matchUp formals arguments formals arguments = .error e) :
    extend scope formals arguments w = .error e w := by
  rw [extend, h]

theorem extend_entered {xs : List Symbol} {last : List (Symbol × Expr)}
    (hxs : formals.elements = xs.map Expr.symbol) (ha : xs.length ≤ arguments.elements.length)
    (hlast : EndBound formals arguments last)
    (h : Scopes.matchUp formals arguments formals arguments = .ok (xs.zip arguments.elements ++ last)) :
    ∃ w', extend scope formals arguments w = .value w.scopes.all.size w' ∧ w.Entered scope formals arguments w' := by
  refine ⟨{ w with scopes := (w.scopes.enter scope (xs.zip arguments.elements ++ last)).2 }, ?_, ?_⟩
  · rw [extend, h]
    rfl
  · exact ⟨Scopes.enter_size _ _ _, fun i => Scopes.enter_kept _ _ _, Scopes.enter_parent _ _ _,
      Scopes.enter_binds hxs ha hlast scope, rfl, rfl⟩

theorem extend_nil {t : Symbol} (h : ∀ i, ¬ Faulty formals arguments i) (ht : formals.terminator = .symbol t)
    (hnil : t.isNil = true) :
    (arguments.elements.length = formals.elements.length ∧ arguments.terminator.isNil = true →
      ∃ w', extend scope formals arguments w = .value w.scopes.all.size w' ∧ w.Entered scope formals arguments w') ∧
    (¬ (arguments.elements.length = formals.elements.length ∧ arguments.terminator.isNil = true) →
      extend scope formals arguments w =
        .error (.tooManyArguments formals.elements.length arguments.elements.length) w) := by
  obtain ⟨xs, hxs, ha, hm⟩ := Scopes.matchUp_sound h
  have hle : formals.elements.length ≤ arguments.elements.length := by
    rw [hxs, List.length_map]
    exact ha
  rw [ht, Scopes.matchUp_nil hnil] at hm
  rw [← Expr.rest_isNil hle]
  constructor
  · intro hend
    rw [if_pos hend] at hm
    refine extend_entered hxs ha ⟨by simp, ?_⟩ hm
    intro t' ht' hnil'
    cases ht.symm.trans ht'
    rw [hnil] at hnil'
    cases hnil'
  · intro hend
    rw [if_neg hend] at hm
    exact extend_error hm

theorem extend_rest {t : Symbol} (h : ∀ i, ¬ Faulty formals arguments i) (ht : formals.terminator = .symbol t)
    (hnil : t.isNil = false) :
    ∃ w', extend scope formals arguments w = .value w.scopes.all.size w' ∧ w.Entered scope formals arguments w' := by
  obtain ⟨xs, hxs, ha, hm⟩ := Scopes.matchUp_sound h
  rw [ht, Scopes.matchUp_rest hnil] at hm
  refine extend_entered hxs ha ⟨by simp [ht, hnil], ?_⟩ hm
  intro t' ht' _
  cases ht.symm.trans ht'
  rfl

/-- Matching fails at the first parameter that is no symbol or for which there is no argument. If there is
none, the end of the parameters decides: NIL asks for as many arguments as there are parameters, another
symbol takes what is left, and nothing else may stand there. A failure changes nothing, and success adds
one scope with the bindings of the parameters. -/
theorem extend_matches (scope : ScopeId) (formals arguments : Expr) (w : World) :
    (∀ (i : Nat) (p : Expr), formals.elements[i]? = some p → Faulty formals arguments i →
      (∀ j < i, ¬ Faulty formals arguments j) →
      extend scope formals arguments w = .error
        (if p.symbol? = none then .parameter p.print
        else if arguments.terminator.isNil then
          .tooFewArguments formals.elements.length arguments.elements.length
        else .argumentChain arguments.print) w) ∧
    ((∀ i, ¬ Faulty formals arguments i) →
      (formals.terminator.isNil = true →
        (arguments.elements.length = formals.elements.length ∧ arguments.terminator.isNil = true →
          ∃ w', extend scope formals arguments w = .value w.scopes.all.size w' ∧
            w.Entered scope formals arguments w') ∧
        (¬ (arguments.elements.length = formals.elements.length ∧ arguments.terminator.isNil = true) →
          extend scope formals arguments w =
            .error (.tooManyArguments formals.elements.length arguments.elements.length) w)) ∧
      (∀ t, formals.terminator = .symbol t → t.isNil = false →
        ∃ w', extend scope formals arguments w = .value w.scopes.all.size w' ∧
          w.Entered scope formals arguments w' ∧
          (arguments.rest formals.elements.length).elements = arguments.elements.drop formals.elements.length ∧
          (arguments.rest formals.elements.length).terminator = arguments.terminator) ∧
      (formals.terminator.symbol? = none →
        extend scope formals arguments w = .error (.parameter formals.terminator.print) w)) := by
  refine ⟨fun i p hp hi hbefore => extend_error (Scopes.matchUp_faulty hp hi hbefore), ?_⟩
  intro h
  refine ⟨?_, ?_, ?_⟩
  · intro hnil
    cases ht : formals.terminator with
    | symbol t =>
      rw [ht] at hnil
      exact extend_nil h ht hnil
    | _ => simp [ht, Expr.isNil] at hnil
  · intro t ht hnil
    obtain ⟨w', hw', hentered⟩ := extend_rest h ht hnil
    exact ⟨w', hw', hentered, Expr.elements_rest _ _, Expr.terminator_rest _ _⟩
  · intro hs
    obtain ⟨xs, -, -, hm⟩ := Scopes.matchUp_sound h
    rw [Scopes.matchUp_end formals.isAtom_terminator hs] at hm
    exact extend_error hm

theorem extend_matches_repeated :
    ∃ (w w' : World) (a b r : Symbol) (formals arguments : Expr),
      formals.print = "(A A . R)" ∧ arguments.print = "(1 2 3)" ∧ (∀ i, ¬ Faulty formals arguments i) ∧
      extend 0 formals arguments w = .value 1 w' ∧ w'.scopes.all[0]? = w.scopes.all[0]? ∧
      w'.scopes.parent? 1 = some 0 ∧ w'.scopes.own? 1 a = some (.number 2) ∧
      ((w'.scopes.own? 1 r).map Expr.print) = some "(3)" ∧ w'.scopes.own? 1 b = none ∧
      extend 0 (.chain 0 [.symbol a, .number 5] (.nil 0)) (.nil 0) w = .error (.tooFewArguments 2 0) w := by
  let a : Symbol := ⟨0, 6, "A"⟩
  let b : Symbol := ⟨0, 7, "B"⟩
  let r : Symbol := ⟨0, 8, "R"⟩
  let w : World := ⟨⟨#[⟨none, [(a, .number 0), (b, .number 0)]⟩]⟩, 9, .closed⟩
  let formals : Expr := .chain 0 [.symbol a, .symbol a] (.symbol r)
  let arguments : Expr := .chain 2 [.number 1, .number 2, .number 3] (.nil 0)
  have hsound : ∀ i, ¬ Faulty formals arguments i := by
    rintro i ⟨p, hp, h⟩
    match i, hp, h with
    | 0, rfl, h => exact absurd h (by decide)
    | 1, rfl, h => exact absurd h (by decide)
  obtain ⟨-, hends⟩ := extend_matches 0 formals arguments w
  obtain ⟨-, hrest, -⟩ := hends hsound
  obtain ⟨w', hw', hentered, -⟩ := hrest r rfl (by decide)
  have hfault : Faulty (.chain 0 [.symbol a, .number 5] (.nil 0)) (.nil 0) 0 := ⟨_, rfl, .inr (Nat.le_refl 0)⟩
  obtain ⟨hfails, -⟩ := extend_matches 0 (.chain 0 [.symbol a, .number 5] (.nil 0)) (.nil 0) w
  have hrest : w'.scopes.own? 1 r = some (arguments.rest 2) := hentered.binds.rest r rfl (by decide)
  refine ⟨w, w', a, b, r, formals, arguments, by decide +kernel, by decide +kernel, hsound, hw',
    hentered.kept 0 (by decide), hentered.parent, ?_, ?_, ?_, ?_⟩
  · apply hentered.binds.parameter 1 a _ rfl rfl
    · intro j hj
      match j, hj with
      | j + 2, _ => simp [formals, Expr.chain, Expr.elements]
    · intro h
      exact absurd h (by decide)
  · rw [hrest]
    decide +kernel
  · apply hentered.binds.nothing b
    · decide
    · intro h
      exact absurd h (by decide)
  · exact hfails 0 _ rfl hfault (fun j hj => absurd hj (Nat.not_lt_zero j))

end World

end Lisp
