import Lisp.Scope
import Mathlib.Tactic.SplitIfs

namespace Lisp

namespace Expr

def Keeps (j : ScopeId) : Expr → Prop
  | pair _ h t => h.Keeps j ∨ t.Keeps j
  | function _ params body scope => scope = j ∨ params.Keeps j ∨ body.Keeps j
  | _ => False

def Inside (S : ScopeId → Prop) (e : Expr) : Prop :=
  ∀ j, e.Keeps j → S j

theorem Inside.mono {S S' : ScopeId → Prop} (h : ∀ j, S j → S' j) {e : Expr} (he : e.Inside S) : e.Inside S' :=
  fun j hj => h j (he j hj)

theorem inside_symbol {S : ScopeId → Prop} (x : Symbol) : (symbol x).Inside S :=
  fun _ => False.elim

theorem inside_number {S : ScopeId → Prop} (n : Int64) : (number n).Inside S :=
  fun _ => False.elim

theorem inside_string {S : ScopeId → Prop} (i : Ident) (text : String) : (string i text).Inside S :=
  fun _ => False.elim

theorem inside_pair {S : ScopeId → Prop} {i : Ident} {h t : Expr} :
    (pair i h t).Inside S ↔ h.Inside S ∧ t.Inside S := by
  constructor
  · intro hp
    exact ⟨fun j hj => hp j (.inl hj), fun j hj => hp j (.inr hj)⟩
  · rintro ⟨hh, ht⟩ j (hj | hj)
    · exact hh j hj
    · exact ht j hj

theorem inside_function {S : ScopeId → Prop} {i : Ident} {params body : Expr} {scope : ScopeId} :
    (function i params body scope).Inside S ↔ S scope ∧ params.Inside S ∧ body.Inside S := by
  constructor
  · intro hf
    exact ⟨hf scope (.inl rfl), fun j hj => hf j (.inr (.inl hj)), fun j hj => hf j (.inr (.inr hj))⟩
  · rintro ⟨hs, hp, hb⟩ j (rfl | hj | hj)
    · exact hs
    · exact hp j hj
    · exact hb j hj

inductive Sub (e : Expr) : Expr → Prop where
  | refl : Sub e e
  | head {i : Ident} {h t : Expr} : Sub e h → Sub e (pair i h t)
  | tail {i : Ident} {h t : Expr} : Sub e t → Sub e (pair i h t)

theorem Sub.trans {e e' e'' : Expr} (h : e.Sub e') (h' : e'.Sub e'') : e.Sub e'' := by
  induction h' with
  | refl => exact h
  | head _ ih => exact ih.head
  | tail _ ih => exact ih.tail

theorem Inside.sub {S : ScopeId → Prop} {e e' : Expr} (he : e'.Inside S) (h : e.Sub e') : e.Inside S := by
  induction h with
  | refl => exact he
  | head _ ih => exact ih (inside_pair.mp he).1
  | tail _ ih => exact ih (inside_pair.mp he).2

theorem sub_elements {e v : Expr} (hv : v ∈ e.elements) : v.Sub e := by
  induction e with
  | pair i h t _ iht =>
    rcases List.mem_cons.mp hv with rfl | hv
    · exact .head .refl
    · exact .tail (iht hv)
  | _ => exact absurd hv List.not_mem_nil

theorem Inside.elements {S : ScopeId → Prop} {e : Expr} (he : e.Inside S) : ∀ v ∈ e.elements, v.Inside S :=
  fun _ hv => he.sub (sub_elements hv)

theorem inside_chain {S : ScopeId → Prop} {vs : List Expr} {tail : Expr} (hvs : ∀ v ∈ vs, v.Inside S)
    (ht : tail.Inside S) (next : Ident) : (chain next vs tail).Inside S := by
  induction vs generalizing next with
  | nil => exact ht
  | cons v vs ih => exact inside_pair.mpr ⟨hvs v (by simp), ih (fun u hu => hvs u (by simp [hu])) (next + 1)⟩

end Expr

def Scope.Mentions (f : Scope) (j : ScopeId) : Prop :=
  f.parent = some j ∨ ∃ b ∈ f.bindings, b.2.Keeps j

theorem Scope.mem_insert {x : Symbol} {v : Expr} {bs : List (Symbol × Expr)} {b : Symbol × Expr}
    (h : b ∈ insert x v bs) : b = (x, v) ∨ b ∈ bs := by
  induction bs with
  | nil => exact .inl (List.mem_singleton.mp h)
  | cons c bs ih =>
    obtain ⟨y, w⟩ := c
    rw [insert] at h
    split at h
    · rcases List.mem_cons.mp h with rfl | h
      · exact .inl rfl
      · exact .inr (List.mem_cons_of_mem _ h)
    · rcases List.mem_cons.mp h with rfl | h
      · exact .inr List.mem_cons_self
      · exact (ih h).imp id (List.mem_cons_of_mem _)

theorem Scope.mentions_put {f : Scope} {x : Symbol} {v : Expr} {j : ScopeId} (h : (f.put x v).Mentions j) :
    f.Mentions j ∨ v.Keeps j := by
  rcases h with h | ⟨b, hb, hj⟩
  · exact .inl (.inl h)
  · rcases mem_insert hb with rfl | hb
    · exact .inr hj
    · exact .inl (.inr ⟨b, hb, hj⟩)

namespace Scopes

inductive Reach (r : Scopes) (roots : ScopeId → Prop) : ScopeId → Prop where
  | root {i : ScopeId} (h : roots i) : Reach r roots i
  | step {i j : ScopeId} {f : Scope} (h : Reach r roots i) (hf : r.all[i]? = some f) (hj : f.Mentions j) :
    Reach r roots j

def Closed (S : ScopeId → Prop) (r : Scopes) : Prop :=
  ∀ i f, S i → r.all[i]? = some f → ∀ j, f.Mentions j → S j

theorem closed_reach (r : Scopes) (roots : ScopeId → Prop) : Closed (r.Reach roots) r :=
  fun _ _ hi hf _ hj => hi.step hf hj

theorem Closed.reach {S roots : ScopeId → Prop} {r : Scopes} (hc : Closed S r) (h : ∀ i, roots i → S i)
    {j : ScopeId} (hj : r.Reach roots j) : S j := by
  induction hj with
  | root hi => exact h _ hi
  | step _ hf hj ih => exact hc _ _ ih hf _ hj

theorem Closed.parent {S : ScopeId → Prop} {r : Scopes} (hc : Closed S r) {i p : ScopeId} (hi : S i)
    (hp : r.parent? i = some p) : S p := by
  obtain ⟨f, hf, hp⟩ := Option.bind_eq_some_iff.mp hp
  exact hc i f hi hf p (.inl hp)

theorem Closed.own {S : ScopeId → Prop} {r : Scopes} (hc : Closed S r) {i : ScopeId} (hi : S i) {x : Symbol}
    {v : Expr} (hv : r.own? i x = some v) : v.Inside S := by
  obtain ⟨f, hf, hv⟩ := Option.bind_eq_some_iff.mp hv
  obtain ⟨k, _, hl⟩ := List.lookup_eq_some_iff.mp hv
  intro j hj
  refine hc i f hi hf j (.inr ⟨(x, v), ?_, hj⟩)
  simp [hl]

theorem Closed.chainUpTo {S : ScopeId → Prop} {r : Scopes} (hc : Closed S r) (n : Nat) {i : ScopeId} (hi : S i) :
    ∀ j ∈ r.chainUpTo n i, S j := by
  induction n generalizing i with
  | zero => exact fun j hj => absurd hj List.not_mem_nil
  | succ n ih =>
    intro j hj
    rw [Scopes.chainUpTo] at hj
    rcases List.mem_cons.mp hj with rfl | hj
    · exact hi
    · cases hp : r.parent? i with
      | none => simp [hp] at hj
      | some p =>
        rw [hp] at hj
        exact ih (hc.parent hi hp) j hj

theorem Closed.chain {S : ScopeId → Prop} {r : Scopes} (hc : Closed S r) {i : ScopeId} (hi : S i) :
    ∀ j ∈ r.chain i, S j :=
  hc.chainUpTo r.all.size hi

theorem Closed.probe {S : ScopeId → Prop} {r : Scopes} (hc : Closed S r) {i : ScopeId} (hi : S i) {x : Symbol}
    {v : Expr} (hv : r.probe i x = some v) : v.Inside S := by
  obtain ⟨j, hj, hv⟩ := List.exists_of_findSome?_eq_some hv
  exact hc.own (hc.chain hi j hj) hv

theorem Closed.holder {S : ScopeId → Prop} {r : Scopes} (hc : Closed S r) {i : ScopeId} (hi : S i) (x : Symbol) :
    S ((r.holder? i x).getD i) := by
  cases hj : r.holder? i x with
  | none => exact hi
  | some j => exact hc.chain hi j (List.mem_of_find?_eq_some hj)

theorem matchUp_sub {formals arguments p a : Expr} {bs : List (Symbol × Expr)}
    (h : matchUp formals arguments p a = .ok bs) : ∀ b ∈ bs, (Expr.symbol b.1).Sub p ∧ b.2.Sub a := by
  induction p generalizing a bs with
  | symbol x =>
    rw [matchUp] at h
    split_ifs at h
    · obtain rfl := Except.ok.inj h
      simpa using ⟨.refl, .refl⟩
    · obtain rfl := Except.ok.inj h
      simp
  | pair i q ps _ ih =>
    cases q with
    | symbol x =>
      cases a with
      | pair k v vs =>
        rw [matchUp] at h
        cases hm : matchUp formals arguments ps vs with
        | error e => simp [hm] at h
        | ok bs' =>
          obtain rfl : (x, v) :: bs' = bs := by simpa [hm] using h
          refine List.forall_mem_cons.mpr ⟨⟨.head .refl, .head .refl⟩, ?_⟩
          intro b hb
          exact ⟨(ih hm b hb).1.tail, (ih hm b hb).2.tail⟩
      | _ =>
        simp only [matchUp] at h
        split_ifs at h
    | _ => cases h
  | _ => cases h

theorem matchUp_inside {S : ScopeId → Prop} {formals arguments p a : Expr} {bs : List (Symbol × Expr)}
    (ha : a.Inside S) (h : matchUp formals arguments p a = .ok bs) : ∀ b ∈ bs, b.2.Inside S :=
  fun b hb => ha.sub (matchUp_sub h b hb).2

def Every (P : Symbol × Expr → Prop) (r : Scopes) : Prop :=
  ∀ (i : ScopeId) (f : Scope), r.all[i]? = some f → ∀ b ∈ f.bindings, P b

namespace Every

variable {P Q : Symbol × Expr → Prop} {r : Scopes}

theorem empty : Scopes.empty.Every P := by
  intro i f hf
  simp [Scopes.empty] at hf

theorem mono (h : ∀ b, P b → Q b) (hr : r.Every P) : r.Every Q :=
  fun i f hf b hb => h b (hr i f hf b hb)

theorem define (hr : r.Every P) {x : Symbol} {v : Expr} (hx : P (x, v)) (i : ScopeId) : (r.define i x v).Every P := by
  intro j f hf b hb
  simp only [Scopes.define, Array.getElem?_modify] at hf
  split at hf
  · obtain ⟨g, hg, rfl⟩ := Option.map_eq_some_iff.mp hf
    rcases Scope.mem_insert hb with rfl | hb
    · exact hx
    · exact hr j g hg b hb
  · exact hr j f hf b hb

theorem create (hr : r.Every P) (parent : Option ScopeId) : (r.create parent).2.Every P := by
  intro j f hf b hb
  simp only [Scopes.create, Array.getElem?_push] at hf
  split at hf
  · obtain rfl := Option.some.inj hf
    cases hb
  · exact hr j f hf b hb

theorem defineAll (hr : r.Every P) {bs : List (Symbol × Expr)} (hbs : ∀ b ∈ bs, P b) (i : ScopeId) :
    (bs.foldl (fun r b => r.define i b.1 b.2) r).Every P := by
  induction bs generalizing r with
  | nil => exact hr
  | cons b bs ih => exact ih (hr.define (hbs b (by simp)) i) (fun c hc => hbs c (by simp [hc]))

theorem probe (hr : r.Every P) {i : ScopeId} {x : Symbol} {v : Expr} (hv : r.probe i x = some v) : P (x, v) := by
  obtain ⟨j, -, hv⟩ := List.exists_of_findSome?_eq_some hv
  obtain ⟨f, hf, hv⟩ := Option.bind_eq_some_iff.mp hv
  obtain ⟨bs, bs', hl, -⟩ := List.lookup_eq_some_iff.mp hv
  exact hr j f hf (x, v) (by simp [hl])

end Every

end Scopes

end Lisp
