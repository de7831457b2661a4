import Lisp.Host
import Lisp.Proofs.EvaluationInvariants
import Mathlib.Logic.Relation

namespace Lisp

theorem Scope.lookup_insert (x y : Symbol) (v : Expr) (bs : List (Symbol × Expr)) :
    (insert x v bs).lookup y = if y = x then some v else bs.lookup y := by
  have head (z : Symbol) (u : Expr) (cs : List (Symbol × Expr)) :
      ((z, u) :: cs).lookup y = if y = z then some u else cs.lookup y := by
    by_cases hy : y = z
    · simp [hy]
    · simp [List.lookup_cons, beq_eq_false_iff_ne.mpr hy, hy]
  induction bs with
  | nil => exact head x v []
  | cons b bs ih =>
    obtain ⟨z, u⟩ := b
    rw [insert]
    by_cases hz : z = x
    · rw [if_pos hz, head, head, hz]
      split <;> rfl
    · rw [if_neg hz, head, head, ih]
      by_cases hy : y = z
      · rw [if_pos hy, if_pos hy, if_neg (hy ▸ hz)]
      · rw [if_neg hy, if_neg hy]

theorem Scope.get?_put (f : Scope) (x y : Symbol) (v : Expr) :
    (f.put x v).get? y = if y = x then some v else f.get? y :=
  lookup_insert x y v f.bindings

namespace Scopes

variable {r r' : Scopes}

structure Grounded (r : Scopes) : Prop where
  parent : ∀ (i : ScopeId) (f : Scope) (p : ScopeId), r.all[i]? = some f → f.parent = some p → p < i
  kept : ∀ (i : ScopeId) (f : Scope), r.all[i]? = some f → ∀ b ∈ f.bindings, b.2.Inside (fun j => j < r.all.size)

def Grows (r r' : Scopes) : Prop :=
  ∀ (i : ScopeId) (f : Scope), r.all[i]? = some f → ∃ f' : Scope, r'.all[i]? = some f' ∧ f'.parent = f.parent ∧
    ∀ x, (f.get? x).isSome → (f'.get? x).isSome

namespace Grows

theorem refl (r : Scopes) : Grows r r :=
  fun _ f hf => ⟨f, hf, rfl, fun _ => id⟩

theorem trans {r'' : Scopes} (h : Grows r r') (h' : Grows r' r'') : Grows r r'' := by
  intro i f hf
  obtain ⟨f', hf', hp, hb⟩ := h i f hf
  obtain ⟨f'', hf'', hp', hb'⟩ := h' i f' hf'
  exact ⟨f'', hf'', hp'.trans hp, fun x hx => hb' x (hb x hx)⟩

theorem lt (h : Grows r r') {i : ScopeId} (hi : i < r.all.size) : i < r'.all.size := by
  obtain ⟨f', hf', -⟩ := h i r.all[i] (Array.getElem?_eq_getElem hi)
  exact (Array.getElem?_eq_some_iff.mp hf').1

theorem inside (h : Grows r r') {e : Expr} (he : e.Inside (fun j => j < r.all.size)) :
    e.Inside (fun j => j < r'.all.size) :=
  he.mono fun _ hj => h.lt hj

theorem define (r : Scopes) (i : ScopeId) (x : Symbol) (v : Expr) : Grows r (r.define i x v) := by
  intro j f hf
  by_cases hj : i = j
  · subst hj
    refine ⟨f.put x v, by simp [Scopes.define, Array.getElem?_modify, hf], rfl, ?_⟩
    intro y hy
    rw [Scope.get?_put]
    split
    · rfl
    · exact hy
  · exact ⟨f, by simp [Scopes.define, Array.getElem?_modify, hj, hf], rfl, fun _ => id⟩

theorem create (r : Scopes) (parent : Option ScopeId) : Grows r (r.create parent).2 := by
  intro j f hf
  have hne : j ≠ r.all.size := Nat.ne_of_lt (Array.getElem?_eq_some_iff.mp hf).1
  exact ⟨f, by simp [Scopes.create, Array.getElem?_push, hne, hf], rfl, fun _ => id⟩

theorem parent? (h : Grows r r') {i : ScopeId} (hi : i < r.all.size) : r'.parent? i = r.parent? i := by
  have hf := Array.getElem?_eq_getElem hi
  obtain ⟨f', hf', hp, -⟩ := h i _ hf
  simp [Scopes.parent?, hf, hf', hp]

theorem own (h : Grows r r') {i : ScopeId} {x : Symbol} (hx : (r.own? i x).isSome) : (r'.own? i x).isSome := by
  cases hf : r.all[i]? with
  | none => simp [own?, hf] at hx
  | some f =>
    obtain ⟨f', hf', -, hb⟩ := h i f hf
    simp only [own?, hf, hf', Option.bind_some] at hx ⊢
    exact hb x hx

end Grows

namespace Grounded

theorem parent_lt (h : r.Grounded) {i p : Nat} (hp : r.parent? i = some p) : p < i := by
  obtain ⟨f, hf, hp⟩ := Option.bind_eq_some_iff.mp hp
  exact h.parent i f p hf hp

theorem chainUpTo_eq (h : r.Grounded) {i m n : Nat} (hm : i < m) (hn : i < n) :
    r.chainUpTo m i = r.chainUpTo n i := by
  induction m generalizing i n with
  | zero => omega
  | succ m ih =>
    cases n with
    | zero => omega
    | succ n =>
      rw [chainUpTo, chainUpTo]
      cases hp : r.parent? i with
      | none => rfl
      | some p =>
        have hlt := h.parent_lt hp
        dsimp only
        rw [ih (n := n) (by omega) (by omega)]

theorem chain_ends (h : r.Grounded) {i : ScopeId} (hi : i < r.all.size) :
    ∃ root, (r.chain i).getLast? = some root ∧ r.parent? root = none := by
  have key (n i : Nat) (hn : i < n) : ∃ root, (r.chainUpTo n i).getLast? = some root ∧ r.parent? root = none := by
    induction n generalizing i with
    | zero => omega
    | succ n ih =>
      rw [chainUpTo]
      cases hp : r.parent? i with
      | none => exact ⟨i, rfl, hp⟩
      | some p =>
        have hlt := h.parent_lt hp
        obtain ⟨root, hroot, hend⟩ := ih p (by omega)
        exact ⟨root, by simp [List.getLast?_cons, hroot], hend⟩
  exact key _ i hi

theorem chain_eq (h : r.Grounded) (h' : r'.Grounded) (hg : Grows r r') {i : ScopeId} (hi : i < r.all.size) :
    r'.chain i = r.chain i := by
  have key (n i : Nat) (hi : i < r.all.size) : r'.chainUpTo n i = r.chainUpTo n i := by
    induction n generalizing i with
    | zero => rfl
    | succ n ih =>
      rw [chainUpTo, chainUpTo, hg.parent? hi]
      cases hp : r.parent? i with
      | none => rfl
      | some p =>
        have hlt := h.parent_lt hp
        dsimp only
        rw [ih p (by omega)]
  -- There may be more scopes now, and with them the bound on the length has grown.
  rw [chain, chain, h'.chainUpTo_eq (hg.lt hi) hi, key _ i hi]

theorem probe (h : r.Grounded) (h' : r'.Grounded) (hg : Grows r r') {i : ScopeId} (hi : i < r.all.size) {x : Symbol}
    (hx : (r.probe i x).isSome) : (r'.probe i x).isSome := by
  rw [Scopes.probe, List.findSome?_isSome_iff] at hx ⊢
  obtain ⟨j, hj, hv⟩ := hx
  rw [h.chain_eq h' hg hi]
  exact ⟨j, hj, hg.own hv⟩

theorem empty : Grounded .empty := by
  constructor
  · intro i f p hf
    simp [Scopes.empty] at hf
  · intro i f hf
    simp [Scopes.empty] at hf

theorem define (h : r.Grounded) {v : Expr} (hv : v.Inside (fun j => j < r.all.size)) (i : ScopeId) (x : Symbol) :
    (r.define i x v).Grounded := by
  have key (j : ScopeId) (f : Scope) (hf : (r.define i x v).all[j]? = some f) :
      ∃ g, r.all[j]? = some g ∧ (f = g ∨ f = g.put x v) := by
    simp only [Scopes.define, Array.getElem?_modify] at hf
    split at hf
    · obtain ⟨g, hg, rfl⟩ := Option.map_eq_some_iff.mp hf
      exact ⟨g, hg, .inr rfl⟩
    · exact ⟨f, hf, .inl rfl⟩
  have hsize : (r.define i x v).all.size = r.all.size := by simp [Scopes.define]
  constructor
  · intro j f p hf hp
    obtain ⟨g, hg, rfl | rfl⟩ := key j f hf
    · exact h.parent j f p hg hp
    · exact h.parent j g p hg hp
  · intro j f hf b hb
    rw [hsize]
    obtain ⟨g, hg, rfl | rfl⟩ := key j f hf
    · exact h.kept j f hg b hb
    · rcases Scope.mem_insert hb with rfl | hb
      · exact hv
      · exact h.kept j g hg b hb

theorem create (h : r.Grounded) {parent : Option ScopeId} (hp : ∀ p ∈ parent, p < r.all.size) :
    (r.create parent).2.Grounded := by
  have key (j : ScopeId) (f : Scope) (hf : (r.create parent).2.all[j]? = some f) :
      j = r.all.size ∧ f = ⟨parent, []⟩ ∨ r.all[j]? = some f := by
    simp only [Scopes.create, Array.getElem?_push] at hf
    split at hf
    · rename_i hj
      exact .inl ⟨hj, (Option.some.inj hf).symm⟩
    · exact .inr hf
  constructor
  · intro j f p hf hpar
    rcases key j f hf with ⟨rfl, rfl⟩ | hf
    · exact hp p hpar
    · exact h.parent j f p hf hpar
  · intro j f hf b hb
    rcases key j f hf with ⟨rfl, rfl⟩ | hf
    · cases hb
    · exact (Grows.create r parent).inside (h.kept j f hf b hb)

end Grounded

end Scopes

def Invariant.grounded (table : Nat) : Invariant table where
  State := Scopes.Grounded
  Later := Scopes.Grows
  Place r i := i < r.all.size
  Code r e := e.Inside (fun j => j < r.all.size)
  Data r e := e.Inside (fun j => j < r.all.size)
  later_refl := .refl
  later_trans := .trans
  later_place h := h.lt
  later_code h := h.inside
  later_data h := h.inside
  code_data := id
  code_pair := Expr.inside_pair.mp
  data_pair := Expr.inside_pair
  data_function := Expr.inside_function
  data_keyword _ _ := Expr.inside_symbol _
  data_number _ := Expr.inside_number
  data_string _ := Expr.inside_string
  probe := by
    intro r i x v hr _ hv
    obtain ⟨j, -, hv⟩ := List.exists_of_findSome?_eq_some hv
    obtain ⟨f, hf, hv⟩ := Option.bind_eq_some_iff.mp hv
    obtain ⟨bs, bs', hl, -⟩ := List.lookup_eq_some_iff.mp hv
    exact hr.kept j f hf (x, v) (by simp [hl])
  holder := by
    intro r i x hr hi
    cases hj : r.holder? i x with
    | none => exact hi
    | some j =>
      have hown : (r.own? j x).isSome = true := List.find?_some (p := fun j => (r.own? j x).isSome) hj
      obtain ⟨v, hv⟩ := Option.isSome_iff_exists.mp hown
      obtain ⟨f, hf, -⟩ := Option.bind_eq_some_iff.mp hv
      exact (Array.getElem?_eq_some_iff.mp hf).1
  define hr _ _ hv := ⟨hr.define hv _ _, .define _ _ _ _⟩
  create := by
    intro r i hr hi
    refine ⟨hr.create (by simpa using hi), .create _ _, ?_⟩
    simp [Scopes.create]

def Invariant.growing (table : Nat) : Invariant table where
  State _ := True
  Later := Scopes.Grows
  Place _ _ := True
  Code _ _ := True
  Data _ _ := True
  later_refl := .refl
  later_trans := .trans
  later_place _ _ := trivial
  later_code _ _ := trivial
  later_data _ _ := trivial
  code_data _ := trivial
  code_pair _ := ⟨trivial, trivial⟩
  data_pair := by simp
  data_function := by simp
  data_keyword _ _ := trivial
  data_number _ _ := trivial
  data_string _ _ _ := trivial
  probe _ _ _ := trivial
  holder _ _ _ := trivial
  define _ _ _ _ := ⟨trivial, .define _ _ _ _⟩
  create _ _ := ⟨trivial, .create _ _, trivial⟩

theorem eval_grows {session : Session} {depth : Nat} {scope : ScopeId} {e : Expr} {w w' : World}
    {result : Except Error Expr} (h : (eval session depth scope e w).ending? = some (result, w')) :
    w.scopes.Grows w'.scopes := by
  have hk := (Invariant.growing session.symbols.id).eval_keeps rfl depth w scope e trivial trivial trivial
  rcases hk.ending h with ⟨v, -, hv⟩ | ⟨err, -, hs⟩
  · exact hv.1.2
  · exact hs.2

theorem Machine.join_scopes (id : Nat) (w : World) :
    (join id w).world.scopes =
      ((Session.initial id w.scopes.all.size).constants.map (fun x => (x, Expr.symbol x))).foldl
        (fun r b => r.define w.scopes.all.size b.1 b.2) (w.scopes.create none).2 := by
  simp only [join, Scopes.create, List.foldl_map]

namespace Host

/-- What can be done to scopes from outside the language, on behalf of any of the sessions. -/
inductive Operation where
  | join
  | create (parent : Option ScopeId)
  | define (scope : ScopeId) (x : Symbol) (v : Expr)
  | assign (scope : ScopeId) (x : Symbol) (v : Expr)
  | extend (scope : ScopeId) (formals arguments : Expr)
  | evaluate (session depth : Nat) (e : Expr)
  | evaluateIn (session depth : Nat) (scope : ScopeId) (e : Expr)
  | apply (session depth : Nat) (f : Expr) (vs : List Expr)

variable {α : Type}

def afterWorld (x : Run Error World α) (h : Host) : Option Host :=
  (x h.world).ending?.map (fun p => { h with world := p.2 })

def afterSession (k : Nat) (x : Run Error Machine α) (h : Host) : Option Host :=
  (h.act k x).bind (fun o => o.ending?.map Prod.snd)

namespace Operation

def Hands : Operation → ScopeId → Prop
  | join, _ => False
  | create parent, j => parent = some j
  | define scope _ v, j => j = scope ∨ v.Keeps j
  | assign scope _ v, j => j = scope ∨ v.Keeps j
  | extend scope formals arguments, j => j = scope ∨ formals.Keeps j ∨ arguments.Keeps j
  | evaluate _ _ e, j => e.Keeps j
  | evaluateIn _ _ scope e, j => j = scope ∨ e.Keeps j
  | apply _ _ f vs, j => f.Keeps j ∨ ∃ v ∈ vs, v.Keeps j

def run : Operation → Host → Option Host
  | join, h => some h.join
  | create parent, h => h.afterWorld (World.create parent)
  | define scope x v, h => h.afterWorld (World.define scope x v)
  | assign scope x v, h => h.afterWorld (World.assign scope x v)
  | extend scope formals arguments, h => h.afterWorld (World.extend scope formals arguments)
  | evaluate k depth e, h => h.afterSession k (Machine.evaluate depth e)
  | evaluateIn k depth scope e, h => h.afterSession k (Machine.evaluateIn depth scope e)
  | apply k depth f vs, h => h.afterSession k (Machine.apply depth f vs)

end Operation

def Step (h h' : Host) : Prop :=
  ∃ op : Operation, (∀ j, op.Hands j → j < h.world.scopes.all.size) ∧ op.run h = some h'

structure Grounded (h : Host) : Prop where
  scopes : h.world.scopes.Grounded
  globals : ∀ s ∈ h.sessions, s.global < h.world.scopes.all.size

variable {h h' : Host}

theorem Grounded.later (hh : h.Grounded) (hs : h'.sessions = h.sessions) (hr : h'.world.scopes.Grounded)
    (hg : h.world.scopes.Grows h'.world.scopes) : h'.Grounded := by
  refine ⟨hr, ?_⟩
  intro s hmem
  rw [hs] at hmem
  exact hg.lt (hh.globals s hmem)

theorem afterWorld_grounded {table : Nat} {P : Scopes → α → Prop} {x : Run Error World α} (hh : h.Grounded)
    (hx : (Invariant.grounded table).Keeps P x h.world) (hrun : h.afterWorld x = some h') :
    h'.Grounded ∧ h.world.scopes.Grows h'.world.scopes := by
  obtain ⟨⟨result, w⟩, hend, rfl⟩ := Option.map_eq_some_iff.mp hrun
  have hw : (Invariant.grounded table).Since h.world w := by
    rcases hx.ending hend with ⟨_, -, hw, -⟩ | ⟨_, -, hw⟩
    · exact hw
    · exact hw
  exact ⟨hh.later rfl hw.1 hw.2, hw.2⟩

theorem afterSession_within {k : Nat} {act : Session → Run Error World α}
    (hrun : h.afterSession k (Machine.within act) = some h') :
    ∃ s ∈ h.sessions, h.afterWorld (act s) = some h' := by
  obtain ⟨o, ho, hend⟩ := Option.bind_eq_some_iff.mp hrun
  obtain ⟨s, hs, rfl⟩ := Option.map_eq_some_iff.mp ho
  have hset : h.sessions.set k s = h.sessions := by
    obtain ⟨hk, rfl⟩ := List.getElem?_eq_some_iff.mp hs
    exact List.set_getElem_self hk
  refine ⟨s, List.mem_of_getElem? hs, ?_⟩
  rw [← hend, afterWorld]
  simp only [Machine.within, Run.zoom]
  cases act s h.world <;> simp [Outcome.ending?, hset]

theorem join_grounded (hh : h.Grounded) : h.join.Grounded ∧ h.world.scopes.Grows h.join.world.scopes := by
  let I := Invariant.grounded 0
  have hr : (h.world.scopes.create none).2.Grounded := hh.scopes.create (by simp)
  have hg := Scopes.Grows.create h.world.scopes none
  have hnew : h.world.scopes.all.size < (h.world.scopes.create none).2.all.size := by simp [Scopes.create]
  have hconstants (xs : List Symbol) : ∀ b ∈ xs.map (fun x => (x, Expr.symbol x)),
      I.Code (h.world.scopes.create none).2 (.symbol b.1) ∧ I.Data (h.world.scopes.create none).2 b.2 := by
    intro b hb
    obtain ⟨x, -, rfl⟩ := List.mem_map.mp hb
    exact ⟨Expr.inside_symbol x, Expr.inside_symbol x⟩
  have hjoin : h.join.world.scopes = (Machine.join h.sessions.length h.world).world.scopes := rfl
  let session := Session.initial h.sessions.length h.world.scopes.all.size
  obtain ⟨hd, hl⟩ := I.defineAll hr hnew (hconstants session.constants)
  rw [← Machine.join_scopes, ← hjoin] at hd hl
  have hgrows : h.world.scopes.Grows h.join.world.scopes := hg.trans hl
  refine ⟨⟨hd, ?_⟩, hgrows⟩
  intro s hs
  rcases List.mem_append.mp hs with hs | hs
  · exact hgrows.lt (hh.globals s hs)
  · obtain rfl := List.mem_singleton.mp hs
    exact Scopes.Grows.lt hl hnew

theorem assign_keeps {w : World} (hw : w.scopes.Grounded) {scope : ScopeId} (hs : scope < w.scopes.all.size)
    {x : Symbol} {v : Expr} (hv : v.Inside (fun j => j < w.scopes.all.size)) :
    (Invariant.grounded 0).Keeps (fun _ _ => True) (World.assign scope x v) w := by
  cases hj : w.scopes.holder? scope x with
  | none => exact .error (by rw [World.assign, Scopes.assign, hj]) (.of_eq hw rfl)
  | some j =>
    have hset : World.assign scope x v w = World.set scope x v w := by
      rw [World.assign, Scopes.assign, hj, World.set, Scopes.set, hj]
      rfl
    exact .value hset ⟨(Invariant.grounded 0).define hw ((Invariant.grounded 0).holder x hw hs)
      (Expr.inside_symbol x) hv, trivial⟩

theorem Step.grounded (hstep : Step h h') (hh : h.Grounded) :
    h'.Grounded ∧ h.world.scopes.Grows h'.world.scopes := by
  obtain ⟨op, hands, hrun⟩ := hstep
  cases op with
  | join =>
    obtain rfl := Option.some.inj hrun
    exact join_grounded hh
  | create parent =>
    obtain rfl := Option.some.inj hrun
    have hr : (h.world.scopes.create parent).2.Grounded := hh.scopes.create (fun p hp => hands p hp)
    have hg := Scopes.Grows.create h.world.scopes parent
    exact ⟨hh.later rfl hr hg, hg⟩
  | define scope x v =>
    have hs := hands scope (.inl rfl)
    have hv : v.Inside _ := fun j hj => hands j (.inr hj)
    exact afterWorld_grounded hh (Invariant.define_keeps (I := .grounded 0) hh.scopes hs (Expr.inside_symbol x) hv) hrun
  | assign scope x v =>
    have hs := hands scope (.inl rfl)
    have hv : v.Inside _ := fun j hj => hands j (.inr hj)
    exact afterWorld_grounded hh (assign_keeps hh.scopes hs hv) hrun
  | extend scope formals arguments =>
    have hs := hands scope (.inl rfl)
    have hf : formals.Inside _ := fun j hj => hands j (.inr (.inl hj))
    have ha : arguments.Inside _ := fun j hj => hands j (.inr (.inr hj))
    exact afterWorld_grounded hh (Invariant.extend_keeps (I := .grounded 0) hh.scopes hs hf ha) hrun
  | evaluate k depth e =>
    obtain ⟨s, hs, hrun⟩ := afterSession_within hrun
    have hglobal := hh.globals s hs
    exact afterWorld_grounded hh ((Invariant.grounded _).eval_keeps rfl depth _ _ _ hh.scopes hglobal hands) hrun
  | evaluateIn k depth scope e =>
    obtain ⟨s, -, hrun⟩ := afterSession_within hrun
    have hs := hands scope (.inl rfl)
    have he : e.Inside _ := fun j hj => hands j (.inr hj)
    exact afterWorld_grounded hh ((Invariant.grounded _).eval_keeps rfl depth _ _ _ hh.scopes hs he) hrun
  | apply k depth f vs =>
    obtain ⟨s, -, hrun⟩ := afterSession_within hrun
    have hf : f.Inside _ := fun j hj => hands j (.inl hj)
    have hvs : ∀ v ∈ vs, v.Inside _ := fun v hv j hj => hands j (.inr ⟨v, hv, hj⟩)
    have hev := (Invariant.grounded s.symbols.id).eval_keeps rfl depth
    exact afterWorld_grounded hh (Invariant.apply_keeps hev rfl hh.scopes hf hvs) hrun

theorem steps_grounded (hh : h.Grounded) (hsteps : Relation.ReflTransGen Step h h') :
    h'.Grounded ∧ h.world.scopes.Grows h'.world.scopes := by
  induction hsteps with
  | refl => exact ⟨hh, .refl _⟩
  | tail _ hstep ih =>
    obtain ⟨hmid, hg⟩ := ih
    obtain ⟨hlast, hg'⟩ := hstep.grounded hmid
    exact ⟨hlast, hg.trans hg'⟩

/-- However sessions are opened and used, each scope lies in an earlier one, so that every walk
outwards ends, functions keep scopes that exist, and nothing that is bound is ever unbound. -/
theorem scopes_stay_grounded {sink : Sink} (hreach : Relation.ReflTransGen Step ⟨[], .initial sink⟩ h) :
    (∀ (i : ScopeId) (f : Scope) (p : ScopeId), h.world.scopes.all[i]? = some f → f.parent = some p → p < i) ∧
    (∀ i, i < h.world.scopes.all.size →
      ∃ root, (h.world.scopes.chain i).getLast? = some root ∧ h.world.scopes.parent? root = none) ∧
    (∀ (i : ScopeId) (f : Scope), h.world.scopes.all[i]? = some f → ∀ b ∈ f.bindings, ∀ j, b.2.Keeps j →
      j < h.world.scopes.all.size) ∧
    ∀ h', Relation.ReflTransGen Step h h' → ∀ (i : ScopeId) (f : Scope), h.world.scopes.all[i]? = some f →
      ∃ f' : Scope, h'.world.scopes.all[i]? = some f' ∧ f'.parent = f.parent ∧
        (∀ x, (f.get? x).isSome → (f'.get? x).isSome) ∧
        ∀ x, (h.world.scopes.probe i x).isSome → (h'.world.scopes.probe i x).isSome := by
  have hstart : Grounded ⟨[], .initial sink⟩ := ⟨Scopes.Grounded.empty, by simp⟩
  obtain ⟨hh, -⟩ := steps_grounded hstart hreach
  refine ⟨hh.scopes.parent, fun i => hh.scopes.chain_ends, hh.scopes.kept, ?_⟩
  intro h' hsteps i f hf
  obtain ⟨hh', hg⟩ := steps_grounded hh hsteps
  obtain ⟨f', hf', hp, hb⟩ := hg i f hf
  refine ⟨f', hf', hp, hb, ?_⟩
  intro x
  exact hh.scopes.probe hh'.scopes hg (Array.getElem?_eq_some_iff.mp hf).1

theorem scopes_stay_grounded_cycle :
    ∃ h h' : Host, Relation.ReflTransGen Step ⟨[], .initial .closed⟩ h ∧ Relation.ReflTransGen Step h h' ∧
      (∃ v, h.world.scopes.own? 1 ⟨0, 33, "F"⟩ = some v ∧ v.Keeps 1) ∧
      h'.world.scopes.own? 1 ⟨0, 33, "F"⟩ = some (.number 7) ∧
      (∃ root, (h.world.scopes.chain 1).getLast? = some root ∧ h.world.scopes.parent? root = none) ∧
      (h'.world.scopes.probe 1 ⟨0, 33, "F"⟩).isSome := by
  let f : Symbol := ⟨0, 33, "F"⟩
  let list (es : List Expr) : Expr := es.foldr (.pair 0) (.nil 0)
  let defun := list [.keyword .defun 0, list [.symbol f], .symbol f]
  let h₁ := Host.join ⟨[], .initial .closed⟩
  let h₂ : Host := { h₁ with world.scopes := (h₁.world.scopes.create (some 0)).2 }
  let h₃ := ((Operation.evaluateIn 0 2 1 defun).run h₂).get (by decide +kernel)
  let h₄ := ((Operation.assign 1 f (.number 7)).run h₃).get (by decide +kernel)
  have step₁ : Step ⟨[], .initial .closed⟩ h₁ := ⟨.join, fun _ => False.elim, rfl⟩
  have step₂ : Step h₁ h₂ := by
    refine ⟨.create (some 0), ?_, rfl⟩
    intro j hj
    obtain rfl := Option.some.inj hj
    decide +kernel
  have step₃ : Step h₂ h₃ := by
    refine ⟨.evaluateIn 0 2 1 defun, ?_, (Option.some_get _).symm⟩
    rintro j (rfl | hj)
    · decide +kernel
    · simp [defun, list, Expr.Keeps, Expr.keyword, Expr.nil] at hj
  have step₄ : Step h₃ h₄ := by
    refine ⟨.assign 1 f (.number 7), ?_, (Option.some_get _).symm⟩
    rintro j (rfl | hj)
    · decide +kernel
    · exact hj.elim
  have hreach : Relation.ReflTransGen Step ⟨[], .initial .closed⟩ h₃ :=
    ((Relation.ReflTransGen.single step₁).tail step₂).tail step₃
  have hown : h₃.world.scopes.own? 1 f = some (.function 0 (.nil 0) (.symbol f) 1) := by decide +kernel
  obtain ⟨-, hends, -, hstay⟩ := scopes_stay_grounded hreach
  obtain ⟨g, hg, -⟩ := Option.bind_eq_some_iff.mp hown
  obtain ⟨-, -, -, -, hprobe⟩ := hstay h₄ (.single step₄) 1 g hg
  refine ⟨h₃, h₄, hreach, .single step₄, ⟨_, hown, .inl rfl⟩, by decide +kernel, ?_, ?_⟩
  · exact hends 1 (by decide +kernel)
  · exact hprobe f (by decide +kernel)

end Host

end Lisp
