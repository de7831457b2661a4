import Lisp.Proofs.ParallelRuns
import Lisp.Proofs.PrimitiveRuns
import Lisp.Proofs.ScopeWrites
import Lisp.Proofs.StructuralEquality

namespace Lisp

/-- An evaluation that is done twice. What it can get at is old: of the scopes those in `reach`, of
the strings and pairs those numbered below `idents`. What it makes has other numbers the second time,
by `moreScopes` and `moreIdents` higher ones. -/
structure Rerun where
  table : Nat
  scopes : Nat
  idents : Nat
  reach : ScopeId → Prop
  reach_lt : ∀ i, reach i → i < scopes
  moreScopes : Nat
  moreIdents : Nat

namespace Rerun

def raise (start more n : Nat) : Nat :=
  if n < start then n else n + more

theorem raise_old {start n : Nat} (more : Nat) (h : n < start) : raise start more n = n :=
  if_pos h

theorem raise_new {start n : Nat} (more : Nat) (h : start ≤ n) : raise start more n = n + more :=
  if_neg (Nat.not_lt.mpr h)

theorem raise_injective (start more : Nat) : Function.Injective (raise start more) := by
  intro m n h
  unfold raise at h
  split_ifs at h <;> omega

def scope (ρ : Rerun) : ScopeId → ScopeId :=
  raise ρ.scopes ρ.moreScopes

def ident (ρ : Rerun) : Ident → Ident :=
  raise ρ.idents ρ.moreIdents

def Place (ρ : Rerun) (i : ScopeId) : Prop :=
  ρ.reach i ∨ ρ.scopes ≤ i

variable {ρ : Rerun}

theorem scope_reach {i : ScopeId} (h : ρ.reach i) : ρ.scope i = i :=
  raise_old _ (ρ.reach_lt i h)

theorem ident_old {i : Ident} (h : i < ρ.idents) : ρ.ident i = i :=
  raise_old _ h

theorem ident_new {i : Ident} (h : ρ.idents ≤ i) : ρ.ident i = i + ρ.moreIdents :=
  raise_new _ h

end Rerun

namespace Expr

/-- All of the expression is old and can be evaluated without SET and DEFUN, and so can what is in
the functions that it has in it. -/
def ReadOnly (ρ : Rerun) : Expr → Prop
  | symbol x => x ≠ Keyword.set.symbol ρ.table ∧ x ≠ Keyword.defun.symbol ρ.table
  | number _ => True
  | string i _ => i < ρ.idents
  | pair i h t => i < ρ.idents ∧ h.ReadOnly ρ ∧ t.ReadOnly ρ
  | function _ _ body scope => ρ.reach scope ∧ body.ReadOnly ρ

/-- A value of the first time and the value of the second time that corresponds to it. There are no
new functions. -/
inductive Echo (ρ : Rerun) : Expr → Expr → Prop where
  | symbol (x : Symbol) : Echo ρ (symbol x) (symbol x)
  | number (n : Int64) : Echo ρ (number n) (number n)
  | string {i j : Ident} (hi : ρ.ident i = j) (text : String) : Echo ρ (string i text) (string j text)
  | pair {i j : Ident} {h h' t t' : Expr} (hi : ρ.ident i = j) (hh : Echo ρ h h') (ht : Echo ρ t t') :
    Echo ρ (pair i h t) (pair j h' t')
  | function (i : Ident) (params : Expr) {body : Expr} {scope : ScopeId} (hs : ρ.reach scope)
    (hb : body.ReadOnly ρ) : Echo ρ (function i params body scope) (function i params body scope)

variable {ρ : Rerun} {a a' b b' e : Expr}

theorem echo_likeness (ρ : Rerun) : Likeness (Echo ρ) := by
  intro a b h
  cases h with
  | symbol x => exact .symbol rfl
  | number n => exact .number n
  | string _ text => exact .string _ _ text
  | pair _ hh ht => exact .pair _ _ hh ht
  | function i params _ _ => exact .function _ _ _ _ _ _ _ _

namespace Echo

theorem same (h : a.Echo ρ a') : a.Same a' := by
  induction h with
  | symbol x => exact .symbol x
  | number n => exact .number n
  | string _ text => exact .string _ _ text
  | pair _ _ _ ihh iht => exact .pair _ _ ihh iht
  | function i params _ _ => exact .function _ _ _ _

theorem chain {i : Ident} (hi : ρ.idents ≤ i) {vs us : List Expr} (hvs : List.Forall₂ (Echo ρ) vs us)
    {tail tail' : Expr} (ht : tail.Echo ρ tail') :
    (Expr.chain i vs tail).Echo ρ (.chain (i + ρ.moreIdents) us tail') := by
  induction hvs generalizing i with
  | nil => exact ht
  | cons hv _ ih =>
    apply Echo.pair (ρ.ident_new hi) hv
    rw [Nat.add_right_comm]
    exact ih (Nat.le_succ_of_le hi)

theorem identical (h : a.Echo ρ a') (h' : b.Echo ρ b') : a'.identical b' = a.identical b := by
  have moved {i i' j j' : Ident} (hi : ρ.ident i = i') (hj : ρ.ident j = j') : (i' == j') = (i == j) := by
    rw [← hi, ← hj, Bool.eq_iff_iff, beq_iff_eq, beq_iff_eq]
    exact (Rerun.raise_injective _ _).eq_iff
  cases h with
  | string hi _ =>
    cases h' with
    | string hj _ => exact moved hi hj
    | _ => rfl
  | pair hi _ _ =>
    cases h' with
    | pair hj _ _ => exact moved hi hj
    | _ => rfl
  | _ => cases h' <;> rfl

theorem equal (h : a.Echo ρ a') (h' : b.Echo ρ b') : a'.equal b' = a.equal b :=
  (echo_likeness ρ).equal identical h h'

end Echo

namespace ReadOnly

theorem echo (h : e.ReadOnly ρ) : e.Echo ρ e := by
  induction e with
  | symbol x => exact .symbol x
  | number n => exact .number n
  | string i text => exact .string (ρ.ident_old h) text
  | pair i x t ihx iht => exact .pair (ρ.ident_old h.1) (ihx h.2.1) (iht h.2.2)
  | function i params body scope _ _ => exact .function i params h.1 h.2

theorem elements (h : e.ReadOnly ρ) : ∀ v ∈ e.elements, v.ReadOnly ρ := by
  induction e with
  | pair i x t _ iht => exact List.forall_mem_cons.mpr ⟨h.2.1, iht h.2.2⟩
  | _ => exact fun v hv => absurd hv List.not_mem_nil

end ReadOnly

end Expr

abbrev EchoBinding (ρ : Rerun) : Symbol × Expr → Symbol × Expr → Prop :=
  BoundAlike Eq (Expr.Echo ρ)

structure Scope.Echo (ρ : Rerun) (f g : Scope) : Prop where
  parent : Option.Rel (fun p q => ρ.Place p ∧ q = ρ.scope p) f.parent g.parent
  bindings : List.Forall₂ (EchoBinding ρ) f.bindings g.bindings

theorem Scope.Echo.put {ρ : Rerun} {f g : Scope} (h : f.Echo ρ g) (x : Symbol) {v u : Expr} (hv : v.Echo ρ u) :
    (f.put x v).Echo ρ (g.put x u) :=
  ⟨h.parent, Scope.insert_alike Eq.congr h.bindings rfl hv⟩

structure Scopes.Echo (ρ : Rerun) (r r' : Scopes) : Prop where
  scopes_le : ρ.scopes ≤ r.all.size
  size : r'.all.size = r.all.size + ρ.moreScopes
  linked : ∀ {i}, ρ.Place i → Option.Rel (Scope.Echo ρ) r.all[i]? r'.all[ρ.scope i]?

namespace Scopes.Echo

variable {ρ : Rerun} {r r' : Scopes} {i : ScopeId}

theorem scope_size (h : r.Echo ρ r') : ρ.scope r.all.size = r'.all.size := by
  rw [Rerun.scope, Rerun.raise_new _ h.scopes_le, h.size]

theorem own (h : r.Echo ρ r') (hi : ρ.Place i) (x : Symbol) :
    Option.Rel (Expr.Echo ρ) (r.own? i x) (r'.own? (ρ.scope i) x) := by
  rw [own?, own?]
  rcases rel_cases (h.linked hi) with ⟨hf, hg⟩ | ⟨f, g, hf, hg, hfg⟩
  · rw [hf, hg]
    exact .none
  · rw [hf, hg]
    exact Scope.lookup_alike Eq.congr hfg.bindings rfl

theorem parent (h : r.Echo ρ r') (hi : ρ.Place i) :
    Option.Rel (fun p q => ρ.Place p ∧ q = ρ.scope p) (r.parent? i) (r'.parent? (ρ.scope i)) := by
  rw [parent?, parent?]
  rcases rel_cases (h.linked hi) with ⟨hf, hg⟩ | ⟨f, g, hf, hg, hfg⟩
  · rw [hf, hg]
    exact .none
  · rw [hf, hg]
    exact hfg.parent

theorem outer (h : r.Echo ρ r') (hi : ρ.Place i) (n : Nat) :
    Option.Rel (fun p q => ρ.Place p ∧ q = ρ.scope p) (r.outer n i) (r'.outer n (ρ.scope i)) := by
  induction n generalizing i with
  | zero => exact .some ⟨hi, rfl⟩
  | succ n ih =>
    rw [Scopes.outer, Scopes.outer]
    rcases rel_cases (h.parent hi) with ⟨hp, hq⟩ | ⟨p, _, hp, hq, hplace, rfl⟩
    · rw [hp, hq]
      exact .none
    · rw [hp, hq]
      exact ih hplace

theorem holder (h : r.Echo ρ r') (hi : ρ.Place i) (x : Symbol) :
    Option.Rel (fun p q => ρ.Place p ∧ q = ρ.scope p) (r.holder? i x) (r'.holder? (ρ.scope i) x) := by
  have unbound {m : Nat} {k' : ScopeId} (hk' : r'.outer m (ρ.scope i) = some k')
      (hnone : ∀ k, r.outer m i = some k → r.own? k x = none) : r'.own? k' x = none := by
    rcases rel_cases (h.outer hi m) with ⟨-, hq⟩ | ⟨k, _, hk, hq, hplace, rfl⟩
    · rw [hq] at hk'
      cases hk'
    · rw [hq] at hk'
      obtain rfl := Option.some.inj hk'
      rcases rel_cases (h.own hplace x) with ⟨-, hu⟩ | ⟨v, u, hv, -, -⟩
      · exact hu
      · rw [hnone k hk] at hv
        cases hv
  cases hd : r.holder? i x with
  | none =>
    have hnone := holder?_eq_none_iff.mp hd
    have hnone' : r'.holder? (ρ.scope i) x = none :=
      holder?_eq_none_iff.mpr fun n d hn => unbound hn fun k hk => hnone n k hk
    rw [hnone']
    exact .none
  | some d =>
    obtain ⟨⟨n, hn, hbefore⟩, hown⟩ := holder?_eq_some_iff.mp hd
    rcases rel_cases (h.outer hi n) with ⟨hp, -⟩ | ⟨d', _, hp, hq, hplace, rfl⟩
    · rw [hn] at hp
      cases hp
    · obtain rfl := Option.some.inj (hp.symm.trans hn)
      have hown' : (r'.own? (ρ.scope d') x).isSome := by
        rcases rel_cases (h.own hplace x) with ⟨hv, -⟩ | ⟨v, u, -, hu, -⟩
        · rw [hv] at hown
          cases hown
        · rw [hu]
          rfl
      rw [holder?_eq_some_iff.mpr ⟨⟨n, hq, fun m hm k hk => unbound hk (hbefore m hm)⟩, hown'⟩]
      exact .some ⟨hplace, rfl⟩

theorem probe (h : r.Echo ρ r') (hi : ρ.Place i) (x : Symbol) :
    Option.Rel (Expr.Echo ρ) (r.probe i x) (r'.probe (ρ.scope i) x) := by
  rw [probe_eq_holder, probe_eq_holder]
  rcases rel_cases (h.holder hi x) with ⟨hd, hd'⟩ | ⟨d, _, hd, hd', hplace, rfl⟩
  · rw [hd, hd']
    exact .none
  · rw [hd, hd']
    exact h.own hplace x

theorem define (h : r.Echo ρ r') (i : ScopeId) (x : Symbol) {v u : Expr} (hv : v.Echo ρ u) :
    (r.define i x v).Echo ρ (r'.define (ρ.scope i) x u) := by
  refine ⟨by simpa [Scopes.define] using h.scopes_le, by simpa [Scopes.define] using h.size, ?_⟩
  intro j hj
  have hmoved : ρ.scope i = ρ.scope j ↔ i = j := (Rerun.raise_injective _ _).eq_iff
  simp only [Scopes.define, Array.getElem?_modify, hmoved]
  rcases rel_cases (h.linked hj) with ⟨hf, hg⟩ | ⟨f, g, hf, hg, hfg⟩
  · simp only [hf, hg, Option.map_none, ite_self]
    exact .none
  · rw [hf, hg]
    split
    · exact .some (hfg.put x hv)
    · exact .some hfg

theorem create (h : r.Echo ρ r') (hi : ρ.Place i) : (r.create (some i)).2.Echo ρ (r'.create (some (ρ.scope i))).2 := by
  have hsize (r : Scopes) (p : Option ScopeId) : (r.create p).2.all.size = r.all.size + 1 := by simp [Scopes.create]
  refine ⟨?_, ?_, ?_⟩
  · rw [hsize]
    exact Nat.le_succ_of_le h.scopes_le
  · rw [hsize, hsize, h.size, Nat.add_right_comm]
  · intro j hj
    have hmoved : ρ.scope j = r'.all.size ↔ j = r.all.size := by
      rw [← h.scope_size]
      exact (Rerun.raise_injective _ _).eq_iff
    simp only [Scopes.create, Array.getElem?_push, hmoved]
    split
    · exact .some ⟨.some ⟨hi, rfl⟩, .nil⟩
    · exact h.linked hj

theorem enter (h : r.Echo ρ r') (hi : ρ.Place i) {bs cs : List (Symbol × Expr)}
    (hbs : List.Forall₂ (EchoBinding ρ) bs cs) : (r.enter i bs).2.Echo ρ (r'.enter (ρ.scope i) cs).2 := by
  have key {r r' : Scopes} (h : r.Echo ρ r') (j : ScopeId) :
      (bs.foldl (fun r b => r.define j b.1 b.2) r).Echo ρ (cs.foldl (fun r b => r.define (ρ.scope j) b.1 b.2) r') := by
    induction hbs generalizing r r' with
    | nil => exact h
    | @cons b c _ _ hb _ ih =>
      obtain ⟨hx, hv⟩ := hb
      rw [List.foldl_cons, List.foldl_cons, ← hx]
      exact ih (h.define j b.1 hv)
  have hnew := key (h.create hi) r.all.size
  rw [h.scope_size] at hnew
  exact hnew

end Scopes.Echo

namespace World

variable {ρ : Rerun} {w w' : World} {α β γ δ : Type}

structure Echo (ρ : Rerun) (w w' : World) : Prop where
  scopes : w.scopes.Echo ρ w'.scopes
  idents_le : ρ.idents ≤ w.next
  next : w'.next = w.next + ρ.moreIdents

structure Onward (ρ : Rerun) (w w' w₁ w₁' : World) : Prop where
  echo : Echo ρ w₁ w₁'
  spared : w.scopes.Spared (fun _ => False) ρ.scopes w₁.scopes
  printed : ∃ text, w₁.sink = w.sink.push text ∧ w₁'.sink = w'.sink.push text

theorem Echo.onward (h : Echo ρ w w') : Onward ρ w w' w w' :=
  ⟨h, .refl _, "", (Sink.push_empty _).symm, (Sink.push_empty _).symm⟩

theorem Onward.trans {w₁ w₁' w₂ w₂' : World} (h : Onward ρ w w' w₁ w₁') (h' : Onward ρ w₁ w₁' w₂ w₂') :
    Onward ρ w w' w₂ w₂' := by
  obtain ⟨s, hs, hs'⟩ := h.printed
  obtain ⟨t, ht, ht'⟩ := h'.printed
  refine ⟨h'.echo, h.spared.trans h'.spared, s ++ t, ?_, ?_⟩
  · rw [ht, hs, Sink.push_push]
  · rw [ht', hs', Sink.push_push]

def Repeats (ρ : Rerun) (P : α → β → Prop) (x : Run Error World α) (y : Run Error World β) (w w' : World) : Prop :=
  Run.Abreast (fun _ : Unit => Onward ρ w w') (fun _ => P) x y w w'

namespace Repeats

variable {P : α → β → Prop} {Q : γ → δ → Prop}

theorem pure {a : α} {b : β} (h : Echo ρ w w') (hab : P a b) : Repeats ρ P (Pure.pure a) (Pure.pure b) w w' :=
  .value (L := ()) rfl rfl h.onward hab

theorem throw (h : Echo ρ w w') (e : Error) : Repeats ρ P (Run.throw e) (Run.throw e) w w' :=
  .error (L := ()) rfl rfl h.onward

theorem bind {x : Run Error World α} {y : Run Error World β} {f : α → Run Error World γ} {g : β → Run Error World δ}
    (hx : Repeats ρ P x y w w')
    (hf : ∀ a b w₁ w₁', Echo ρ w₁ w₁' → P a b → Repeats ρ Q (f a) (g b) w₁ w₁') :
    Repeats ρ Q (x >>= f) (y >>= g) w w' := by
  apply Run.Abreast.bind hx
  intro _ a b w₁ w₁' h hab
  exact (hf a b w₁ w₁' h.echo hab).mono fun _ _ _ => h.trans

theorem ofExcept_bind (h : Echo ρ w w') (r : Except Error α) {f : α → Run Error World γ} {g : α → Run Error World δ}
    (hf : ∀ a, r = .ok a → Repeats ρ Q (f a) (g a) w w') :
    Repeats ρ Q (Run.ofExcept r >>= f) (Run.ofExcept r >>= g) w w' := by
  cases r with
  | ok a => exact hf a rfl
  | error e => exact .error (L := ()) rfl rfl h.onward

theorem of_concur {x y : Run Error World Expr} (h : Echo ρ w w') (hx : Run.Concur (fun _ => Expr.Echo ρ) x y w w') :
    Repeats ρ (Expr.Echo ρ) x y w w' := by
  cases hx with
  | error e h₁ h₂ => exact .error (L := ()) h₁ h₂ h.onward
  | value n text hvu h₁ h₂ =>
    have hecho : Echo ρ { w with next := w.next + n, sink := w.sink.push text }
        { w' with next := w'.next + n, sink := w'.sink.push text } := by
      refine ⟨h.scopes, Nat.le_add_right_of_le h.idents_le, ?_⟩
      rw [h.next, Nat.add_right_comm]
    exact .value (L := ()) h₁ h₂ ⟨hecho, .refl _, text, rfl, rfl⟩ hvu

theorem resolve (h : Echo ρ w w') {i : ScopeId} (hi : ρ.Place i) (x : Symbol) :
    Repeats ρ (Expr.Echo ρ) (World.resolve i x) (World.resolve (ρ.scope i) x) w w' := by
  rcases rel_cases (h.scopes.probe hi x) with ⟨hv, hu⟩ | ⟨v, u, hv, hu, hvu⟩
  · exact .error (L := ()) (resolve_none hv) (resolve_none hu) h.onward
  · exact .value (L := ()) (resolve_some hv) (resolve_some hu) h.onward hvu

theorem extend (h : Echo ρ w w') {i : ScopeId} (hi : ρ.Place i) (formals : Expr) {arguments arguments' : Expr}
    (ha : arguments.Echo ρ arguments') :
    Repeats ρ (fun j j' => ρ.Place j ∧ j' = ρ.scope j) (World.extend i formals arguments)
      (World.extend (ρ.scope i) formals arguments') w w' := by
  have hmatch := Scopes.matchUp_alike Expr.eq_likeness (Expr.echo_likeness ρ) (fun h => Expr.symbol.inj h)
    (rfl : formals = formals) ha (rfl : formals = formals) ha
  rcases hmatch.cases with ⟨e, hm, hm'⟩ | ⟨bs, cs, hm, hm', hbs⟩
  · exact .error (L := ()) (by rw [World.extend, hm]) (by rw [World.extend, hm']) h.onward
  · have hecho : Echo ρ { w with scopes := (w.scopes.enter i bs).2 }
        { w' with scopes := (w'.scopes.enter (ρ.scope i) cs).2 } :=
      ⟨h.scopes.enter hi hbs, h.idents_le, h.next⟩
    have honward : Onward ρ w w' _ _ :=
      ⟨hecho, .enter h.scopes.scopes_le i bs, "", (Sink.push_empty _).symm, (Sink.push_empty _).symm⟩
    refine .value (L := ()) ?_ ?_ honward ⟨.inr h.scopes.scopes_le, h.scopes.scope_size.symm⟩
    · rw [World.extend, hm]
      rfl
    · rw [World.extend, hm']
      rfl

end Repeats

end World

namespace Primitive

variable {ρ : Rerun} {w w' : World} {vs us : List Expr}

theorem echo_renews (h : World.Echo ρ w w') (table : Nat) :
    Renews (Expr.Echo ρ) (fun _ => Expr.Echo ρ) table table w.next w'.next where
  argument hv := hv
  keyword _ := .symbol _
  number n := .number n
  string text := .string (h.next ▸ ρ.ident_new h.idents_le) text
  pair hh ht := .pair (h.next ▸ ρ.ident_new h.idents_le) hh ht
  list hvs := h.next ▸ .chain h.idents_le hvs (.symbol _)

theorem apply_repeats (h : World.Echo ρ w w') (table : Nat) (hvs : List.Forall₂ (Expr.Echo ρ) vs us) (p : Primitive) :
    World.Repeats ρ (Expr.Echo ρ) (p.apply table vs) (p.apply table us) w w' := by
  have heq : Steady Expr.identical vs us := .of_forall₂ hvs Expr.Echo.identical
  have hequal : Steady Expr.equal vs us := .of_forall₂ hvs Expr.Echo.equal
  have hrenews := echo_renews h table
  exact .of_concur h (apply_concur (Expr.echo_likeness ρ) hrenews hvs p (fun _ => heq) (fun _ => hequal))

end Primitive

end Lisp
