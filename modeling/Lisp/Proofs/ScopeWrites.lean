import Lisp.Proofs.ScopeStructure
import Mathlib.Data.Fintype.Card
import Mathlib.Data.Nat.Find

namespace Lisp

namespace Scopes

variable {r : Scopes} {i s d : ScopeId} {x y : Symbol} {v : Expr}

def outer (r : Scopes) : Nat → ScopeId → Option ScopeId
  | 0, i => some i
  | n + 1, i => (r.parent? i).bind (outer r n)

/-- Going outwards from `i` one comes to `s`, and on the way there to no scope that binds the symbol. -/
def Exposed (r : Scopes) (x : Symbol) (i s : ScopeId) : Prop :=
  ∃ n, r.outer n i = some s ∧ ∀ m < n, ∀ k, r.outer m i = some k → r.own? k x = none

def Nearest (r : Scopes) (x : Symbol) (i d : ScopeId) : Prop :=
  r.Exposed x i d ∧ (r.own? d x).isSome

theorem outer_add (r : Scopes) (m n : Nat) (i : ScopeId) : r.outer (m + n) i = (r.outer m i).bind (r.outer n) := by
  induction m generalizing i with
  | zero => rw [Nat.zero_add, outer, Option.bind_some]
  | succ m ih =>
    rw [Nat.succ_add, outer, outer, Option.bind_assoc]
    congr 1
    funext p
    exact ih p

theorem chainUpTo_getElem? (r : Scopes) (n m : Nat) (i : ScopeId) :
    (r.chainUpTo n i)[m]? = if m < n then r.outer m i else none := by
  induction n generalizing m i with
  | zero => simp [chainUpTo]
  | succ n ih =>
    rw [chainUpTo]
    cases m with
    | zero => simp [outer]
    | succ m =>
      rw [List.getElem?_cons_succ, outer]
      cases r.parent? i with
      | none => simp
      | some p => simp [ih]

theorem lt_of_own (h : (r.own? i x).isSome) : i < r.all.size := by
  obtain ⟨u, hu⟩ := Option.isSome_iff_exists.mp h
  obtain ⟨f, hf, -⟩ := Option.bind_eq_some_iff.mp hu
  exact (Array.getElem?_eq_some_iff.mp hf).1

theorem lt_of_parent {p : ScopeId} (h : r.parent? i = some p) : i < r.all.size := by
  obtain ⟨f, hf, -⟩ := Option.bind_eq_some_iff.mp h
  exact (Array.getElem?_eq_some_iff.mp hf).1

theorem outer_before {n m : Nat} (hs : s < r.all.size) (h : r.outer n i = some s) (hm : m ≤ n) :
    ∃ k, k < r.all.size ∧ r.outer m i = some k := by
  obtain ⟨l, rfl⟩ := Nat.exists_eq_add_of_le hm
  rw [outer_add] at h
  obtain ⟨k, hk, hl⟩ := Option.bind_eq_some_iff.mp h
  refine ⟨k, ?_, hk⟩
  cases l with
  | zero =>
    obtain rfl := Option.some.inj hl
    exact hs
  | succ l =>
    obtain ⟨p, hp, -⟩ := Option.bind_eq_some_iff.mp hl
    exact lt_of_parent hp

theorem outer_lt_size {n : Nat} (hs : s < r.all.size) (h : r.outer n i = some s)
    (hfirst : ∀ m < n, r.outer m i ≠ some s) : n < r.all.size := by
  have hway (m : Fin (n + 1)) : ∃ k : Fin r.all.size, r.outer m i = some k.val := by
    obtain ⟨k, hk, hm⟩ := outer_before hs h (Nat.le_of_lt_succ m.isLt)
    exact ⟨⟨k, hk⟩, hm⟩
  choose f hf using hway
  -- To come to one scope twice would be a detour, and without it one is at `s` earlier.
  have hlt (a b : Fin (n + 1)) (hab : a.val < b.val) : f a ≠ f b := by
    intro he
    have hb := b.isLt
    apply hfirst (a + (n - b)) (by omega)
    rw [outer_add, hf a, he, ← hf b, ← outer_add, show b.val + (n - b.val) = n by omega, h]
  have hinj : Function.Injective f := by
    intro a b he
    rcases Nat.lt_trichotomy a.val b.val with hab | hab | hab
    · exact absurd he (hlt a b hab)
    · exact Fin.ext hab
    · exact absurd he.symm (hlt b a hab)
  have hcard := Fintype.card_le_of_injective f hinj
  simp only [Fintype.card_fin] at hcard
  omega

theorem holder?_eq_some_iff : r.holder? i x = some d ↔ r.Nearest x i d := by
  rw [holder?, List.find?_eq_some_iff_getElem]
  constructor
  · rintro ⟨hd, n, hn, hget, hbefore⟩
    have hat {m : Nat} (hm : m < (r.chain i).length) : r.outer m i = some (r.chain i)[m] := by
      have hl := chainUpTo_getElem? r r.all.size m i
      rw [← chain, List.getElem?_eq_getElem hm] at hl
      split_ifs at hl
      exact hl.symm
    refine ⟨⟨n, by rw [hat hn, hget], ?_⟩, hd⟩
    intro m hm k hk
    have hm' : m < (r.chain i).length := by omega
    rw [hat hm'] at hk
    obtain rfl := Option.some.inj hk
    simpa using hbefore m hm
  · rintro ⟨⟨n, hn, hbefore⟩, hd⟩
    have hfirst : ∀ m < n, r.outer m i ≠ some d := by
      intro m hm he
      rw [hbefore m hm d he] at hd
      cases hd
    have hlt := outer_lt_size (lt_of_own hd) hn hfirst
    have hat {m k : Nat} (hm : m < r.all.size) (hk : (r.chain i)[m]? = some k) : r.outer m i = some k := by
      rwa [chain, chainUpTo_getElem?, if_pos hm] at hk
    have hchain : (r.chain i)[n]? = some d := by rw [chain, chainUpTo_getElem?, if_pos hlt, hn]
    obtain ⟨hlen, hget⟩ := List.getElem?_eq_some_iff.mp hchain
    refine ⟨hd, n, hlen, hget, ?_⟩
    intro m hm
    have hk := hbefore m hm _ (hat (by omega) (List.getElem?_eq_getElem (by omega)))
    simp [hk]

theorem exists_nearest {n : Nat} (h : r.outer n i = some d) (hd : (r.own? d x).isSome) : ∃ d, r.Nearest x i d := by
  have hex : ∃ n d, r.outer n i = some d ∧ (r.own? d x).isSome := ⟨n, d, h, hd⟩
  classical
  obtain ⟨d', hn, hd'⟩ := Nat.find_spec hex
  refine ⟨d', ⟨Nat.find hex, hn, ?_⟩, hd'⟩
  intro m hm k hk
  by_contra hne
  exact Nat.find_min hex hm ⟨k, hk, Option.isSome_iff_ne_none.mpr hne⟩

theorem holder?_eq_none_iff : r.holder? i x = none ↔ ∀ n d, r.outer n i = some d → r.own? d x = none := by
  constructor
  · intro h n d hn
    by_contra hd
    obtain ⟨d', hd'⟩ := exists_nearest hn (Option.isSome_iff_ne_none.mpr hd)
    rw [holder?_eq_some_iff.mpr hd'] at h
    cases h
  · intro h
    cases hd : r.holder? i x with
    | none => rfl
    | some d =>
      obtain ⟨⟨n, hn, -⟩, hown⟩ := holder?_eq_some_iff.mp hd
      rw [h n d hn] at hown
      cases hown

theorem probe_eq_holder (r : Scopes) (i : ScopeId) (x : Symbol) :
    r.probe i x = (r.holder? i x).bind (fun d => r.own? d x) := by
  rw [probe, holder?]
  induction r.chain i with
  | nil => rfl
  | cons j js ih =>
    rw [List.findSome?_cons, List.find?_cons]
    cases hj : r.own? j x with
    | none => simpa [hj] using ih
    | some u => simp [hj]

theorem probe_isSome : (r.probe i x).isSome = (r.holder? i x).isSome := by
  rw [probe_eq_holder]
  cases hd : r.holder? i x with
  | none => rfl
  | some d => exact (holder?_eq_some_iff.mp hd).2

theorem own?_define (hs : s < r.all.size) (x : Symbol) (v : Expr) (j : ScopeId) (y : Symbol) :
    (r.define s x v).own? j y = if j = s ∧ y = x then some v else r.own? j y := by
  simp only [own?, define, Array.getElem?_modify]
  by_cases hj : s = j
  · subst hj
    simp [Array.getElem?_eq_getElem hs, Scope.get?_put]
  · simp [hj, Ne.symm hj]

theorem parent?_define (r : Scopes) (s : ScopeId) (x : Symbol) (v : Expr) (j : ScopeId) :
    (r.define s x v).parent? j = r.parent? j := by
  simp only [parent?, define, Array.getElem?_modify]
  split
  · cases r.all[j]? <;> rfl
  · rfl

theorem outer_define (r : Scopes) (s : ScopeId) (x : Symbol) (v : Expr) (n : Nat) (i : ScopeId) :
    (r.define s x v).outer n i = r.outer n i := by
  induction n generalizing i with
  | zero => rfl
  | succ n ih =>
    rw [outer, outer, parent?_define]
    congr 1
    funext p
    exact ih p

theorem nearest_define_exposed (hs : s < r.all.size) (h : r.Exposed x i s) (v : Expr) :
    (r.define s x v).Nearest x i s := by
  obtain ⟨n, hn, hbefore⟩ := h
  have hex : ∃ n, r.outer n i = some s := ⟨n, hn⟩
  refine ⟨⟨Nat.find hex, ?_, ?_⟩, ?_⟩
  · rw [outer_define]
    exact Nat.find_spec hex
  · intro m hm k hk
    rw [outer_define] at hk
    have hne : k ≠ s := by
      rintro rfl
      exact Nat.find_min hex hm hk
    have hle := Nat.find_min' hex hn
    rw [own?_define hs, if_neg (fun h => hne h.1)]
    exact hbefore m (by omega) k hk
  · rw [own?_define hs, if_pos ⟨rfl, rfl⟩]
    rfl

theorem nearest_define_hidden (hs : s < r.all.size) (h : ¬ (y = x ∧ r.Exposed x i s)) (v : Expr) :
    (r.define s x v).Nearest y i d ↔ r.Nearest y i d := by
  constructor
  · rintro ⟨⟨n, hn, hbefore⟩, hd⟩
    rw [outer_define] at hn
    have hold : r.Exposed y i d := by
      refine ⟨n, hn, ?_⟩
      intro m hm k hk
      have hnone := hbefore m hm k (by rw [outer_define, hk])
      rw [own?_define hs] at hnone
      split_ifs at hnone
      exact hnone
    refine ⟨hold, ?_⟩
    rw [own?_define hs, if_neg] at hd
    · exact hd
    · rintro ⟨rfl, rfl⟩
      exact h ⟨rfl, hold⟩
  · rintro ⟨⟨n, hn, hbefore⟩, hd⟩
    -- The written binding cannot lie on the way, or it would be exposed there.
    have hsame (m : Nat) (hm : m ≤ n) (k : ScopeId) (hk : r.outer m i = some k) :
        (r.define s x v).own? k y = r.own? k y := by
      rw [own?_define hs, if_neg]
      rintro ⟨rfl, rfl⟩
      exact h ⟨rfl, m, hk, fun l hl => hbefore l (by omega)⟩
    refine ⟨⟨n, by rw [outer_define, hn], ?_⟩, by rwa [hsame n (Nat.le_refl n) d hn]⟩
    intro m hm k hk
    rw [outer_define] at hk
    rw [hsame m (Nat.le_of_lt hm) k hk]
    exact hbefore m hm k hk

theorem probe_define_exposed (hs : s < r.all.size) (h : r.Exposed x i s) (v : Expr) :
    (r.define s x v).probe i x = some v := by
  rw [probe_eq_holder, holder?_eq_some_iff.mpr (nearest_define_exposed hs h v), Option.bind_some, own?_define hs,
    if_pos ⟨rfl, rfl⟩]

theorem probe_define_hidden (hs : s < r.all.size) (h : ¬ (y = x ∧ r.Exposed x i s)) (v : Expr) :
    (r.define s x v).probe i y = r.probe i y := by
  have hholder : (r.define s x v).holder? i y = r.holder? i y := by
    apply Option.ext
    intro d
    rw [holder?_eq_some_iff, holder?_eq_some_iff, nearest_define_hidden hs h]
  rw [probe_eq_holder, probe_eq_holder, hholder]
  cases hd : r.holder? i y with
  | none => rfl
  | some d =>
    rw [Option.bind_some, Option.bind_some, own?_define hs, if_neg]
    rintro ⟨rfl, rfl⟩
    exact h ⟨rfl, (holder?_eq_some_iff.mp hd).1⟩

end Scopes

namespace World

theorem assign_nearest {w : World} {s d : ScopeId} {x : Symbol} (h : w.scopes.Nearest x s d) (v : Expr) :
    assign s x v w = define d x v w := by
  rw [assign, Scopes.assign, Scopes.holder?_eq_some_iff.mpr h]
  rfl

theorem assign_unbound {w : World} {s : ScopeId} {x : Symbol} (h : w.scopes.holder? s x = none) (v : Expr) :
    assign s x v w = .error (.unbound x.name) w := by
  rw [assign, Scopes.assign, h]

theorem resolve_some {w : World} {i : ScopeId} {y : Symbol} {u : Expr} (h : w.scopes.probe i y = some u) :
    resolve i y w = .value u w := by
  rw [resolve, Scopes.resolve, h]

theorem resolve_none {w : World} {i : ScopeId} {y : Symbol} (h : w.scopes.probe i y = none) :
    resolve i y w = .error (.unbound y.name) w := by
  rw [resolve, Scopes.resolve, h]

/-- A symbol defined in a scope is seen from just those scopes between which and it no other scope
binds the symbol, and every other lookup gives what it gave. Assignment is definition in the nearest
scope that binds the symbol; if there is none it fails. Failing and looking up change nothing. -/
theorem lookup_after_write (w : World) (i s : ScopeId) (hs : s < w.scopes.all.size) (x y : Symbol) (v : Expr) :
    (∃ w', define s x v w = .value () w' ∧
      (y = x ∧ w.scopes.Exposed x i s → w'.scopes.probe i y = some v) ∧
      (¬ (y = x ∧ w.scopes.Exposed x i s) → w'.scopes.probe i y = w.scopes.probe i y)) ∧
    (assign s x v w = .error (.unbound x.name) w ↔
      ∀ n d, w.scopes.outer n s = some d → w.scopes.own? d x = none) ∧
    ((∃ n d, w.scopes.outer n s = some d ∧ (w.scopes.own? d x).isSome) → ∃ d, w.scopes.Nearest x s d) ∧
    (∀ d, w.scopes.Nearest x s d → assign s x v w = define d x v w) ∧
    (∀ u, w.scopes.probe i y = some u → resolve i y w = .value u w) ∧
    (resolve i y w = .error (.unbound y.name) w ↔ w.scopes.probe i y = none) := by
  refine ⟨⟨_, rfl, ?_, ?_⟩, ?_, ?_, fun d hd => assign_nearest hd v, fun u => resolve_some, ?_⟩
  · rintro ⟨rfl, h⟩
    exact Scopes.probe_define_exposed hs h v
  · intro h
    exact Scopes.probe_define_hidden hs h v
  · rw [← Scopes.holder?_eq_none_iff]
    refine ⟨?_, fun h => assign_unbound h v⟩
    intro h
    cases hd : w.scopes.holder? s x with
    | none => rfl
    | some d =>
      rw [assign_nearest (Scopes.holder?_eq_some_iff.mp hd)] at h
      cases h
  · rintro ⟨n, d, hn, hd⟩
    exact Scopes.exists_nearest hn hd
  · refine ⟨?_, resolve_none⟩
    intro h
    cases hu : w.scopes.probe i y with
    | none => rfl
    | some u =>
      rw [resolve_some hu] at h
      cases h

theorem lookup_after_write_shadowed :
    ∃ (w w' : World) (x : Symbol), 0 < w.scopes.all.size ∧ define 0 x (.number 9) w = .value () w' ∧
      w.scopes.Exposed x 2 0 ∧ w'.scopes.probe 2 x = some (.number 9) ∧
      ¬ w.scopes.Exposed x 3 0 ∧ w'.scopes.probe 3 x = some (.number 2) ∧
      w.scopes.Nearest x 3 1 ∧ assign 3 x (.number 9) w = define 1 x (.number 9) w := by
  let x : Symbol := ⟨0, 6, "X"⟩
  let w : World := ⟨⟨#[⟨none, [(x, .number 1)]⟩, ⟨some 0, [(x, .number 2)]⟩, ⟨some 0, []⟩, ⟨some 1, []⟩]⟩, 0, .closed⟩
  have hseen : w.scopes.Exposed x 2 0 := by
    refine ⟨1, rfl, ?_⟩
    intro m hm k hk
    obtain rfl : m = 0 := by omega
    obtain rfl := Option.some.inj hk
    rfl
  have hhidden : ¬ w.scopes.Exposed x 3 0 := by
    rintro ⟨n, hn, hbefore⟩
    match n, hn, hbefore with
    | 2, _, hbefore => exact absurd (hbefore 1 (by decide) 1 rfl) (by decide)
    | 0, hn, _ => exact absurd hn (by decide)
    | 1, hn, _ => exact absurd hn (by decide)
    | n + 3, hn, _ => cases hn
  have hnearest : w.scopes.Nearest x 3 1 := by
    refine ⟨⟨1, rfl, ?_⟩, rfl⟩
    intro m hm k hk
    obtain rfl : m = 0 := by omega
    obtain rfl := Option.some.inj hk
    rfl
  have hs : 0 < w.scopes.all.size := by decide
  obtain ⟨⟨w', hw', hnew, -⟩, -⟩ := lookup_after_write w 2 0 hs x x (.number 9)
  obtain ⟨⟨w'', hw'', -, hold⟩, -⟩ := lookup_after_write w 3 0 hs x x (.number 9)
  obtain ⟨-, -, -, hassign, -⟩ := lookup_after_write w 3 3 (by decide) x x (.number 9)
  cases hw'
  cases hw''
  exact ⟨w, _, x, hs, rfl, hseen, hnew ⟨rfl, hseen⟩, hhidden, hold (fun h => hhidden h.2), hnearest,
    hassign 1 hnearest⟩

end World

end Lisp
