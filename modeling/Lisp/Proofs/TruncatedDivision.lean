import Lisp.Proofs.WordArithmetic

namespace Lisp

theorem tdiv_tdiv (a b c : Int) : (a.tdiv b).tdiv c = a.tdiv (b * c) := by
  obtain ⟨k, rfl | rfl⟩ := a.eq_nat_or_neg
  all_goals
    obtain ⟨m, rfl | rfl⟩ := b.eq_nat_or_neg
    all_goals
      obtain ⟨n, rfl | rfl⟩ := c.eq_nat_or_neg
      all_goals
        -- The signs come out on both sides, and what is left are naturals.
        simp only [Int.neg_tdiv, Int.tdiv_neg, Int.neg_mul, Int.mul_neg, Int.neg_neg, ← Int.natCast_mul,
          ← Int.ofNat_tdiv, Nat.div_div_eq_div_mul]

namespace Primitive

/-- On the way through the divisors, the least word is divided by minus one. Its quotient is the only
one that is no word. -/
def Overflows (n : Int64) (ds : List Int64) : Prop :=
  ∃ before after, ds = before ++ -1 :: after ∧ before.foldlM divide n = .ok Int64.minValue

theorem divide_eq_ok (n : Int64) {d : Int64} (hd : d ≠ 0) : divide n d = .ok (n / d) :=
  if_neg hd

theorem toInt_divide {n d : Int64} (h : ¬ (n = Int64.minValue ∧ d = -1)) : (n / d).toInt = n.toInt.tdiv d.toInt := by
  by_cases hn : n = Int64.minValue
  · exact Int64.toInt_div_of_ne_right n d fun hd => h ⟨hn, hd⟩
  · exact Int64.toInt_div_of_ne_left n d hn

theorem foldlM_divide_cons (n : Int64) {d : Int64} (hd : d ≠ 0) (ds : List Int64) :
    (d :: ds).foldlM divide n = ds.foldlM divide (n / d) := by
  rw [List.foldlM_cons, divide_eq_ok n hd]
  rfl

theorem foldlM_divide_zero {ds : List Int64} (h : 0 ∈ ds) (n : Int64) : ds.foldlM divide n = .error .divideByZero := by
  induction ds generalizing n with
  | nil => cases h
  | cons d ds ih =>
    by_cases hd : d = 0
    · rw [hd]
      rfl
    · rw [foldlM_divide_cons n hd]
      exact ih ((List.mem_cons.mp h).resolve_left (Ne.symm hd)) (n / d)

theorem not_overflows_nil (n : Int64) : ¬ Overflows n [] := by
  rintro ⟨before, after, h, -⟩
  simp at h

theorem overflows_cons (n : Int64) {d : Int64} (hd : d ≠ 0) (ds : List Int64) :
    Overflows n (d :: ds) ↔ (n = Int64.minValue ∧ d = -1) ∨ Overflows (n / d) ds := by
  constructor
  · rintro ⟨before, after, h, hmin⟩
    cases before with
    | nil =>
      obtain ⟨rfl, -⟩ := List.cons.inj h
      exact .inl ⟨Except.ok.inj hmin, rfl⟩
    | cons c before =>
      obtain ⟨rfl, rfl⟩ := List.cons.inj h
      rw [foldlM_divide_cons n hd] at hmin
      exact .inr ⟨before, after, rfl, hmin⟩
  · rintro (⟨rfl, rfl⟩ | ⟨before, after, rfl, hmin⟩)
    · exact ⟨[], ds, rfl, rfl⟩
    · refine ⟨d :: before, after, rfl, ?_⟩
      rw [foldlM_divide_cons n hd, hmin]

theorem foldlM_divide_exact {ds : List Int64} (h : 0 ∉ ds) (n : Int64) :
    ∃ q, ds.foldlM divide n = .ok q ∧
      (¬ Overflows n ds → q.toInt = n.toInt.tdiv (ds.map Int64.toInt).prod) := by
  induction ds generalizing n with
  | nil => exact ⟨n, rfl, fun _ => by simp⟩
  | cons d ds ih =>
    obtain ⟨hd, hds⟩ := not_or.mp (mt List.mem_cons.mpr h)
    obtain ⟨q, hq, hexact⟩ := ih hds (n / d)
    refine ⟨q, by rw [foldlM_divide_cons n (Ne.symm hd), hq], ?_⟩
    -- The product need not be a word: the quotients are exact, so it is only taken over integers.
    intro ho
    rw [overflows_cons n (Ne.symm hd), not_or] at ho
    rw [hexact ho.2, toInt_divide ho.1, tdiv_tdiv, List.map_cons, List.prod_cons]

theorem foldlM_divide_perm {ds es : List Int64} (h : ds.Perm es) {n : Int64} (hds : ¬ Overflows n ds)
    (hes : ¬ Overflows n es) : ds.foldlM divide n = es.foldlM divide n := by
  by_cases hz : 0 ∈ ds
  · rw [foldlM_divide_zero hz, foldlM_divide_zero (h.mem_iff.mp hz)]
  · obtain ⟨p, hp, hexact⟩ := foldlM_divide_exact hz n
    obtain ⟨q, hq, hexact'⟩ := foldlM_divide_exact (mt h.mem_iff.mpr hz) n
    have hpq : p.toInt = q.toInt := by rw [hexact hds, hexact' hes, (h.map Int64.toInt).prod_eq]
    rw [hp, hq, Int64.toInt_inj.mp hpq]

theorem foldlM_divide_overflow {n : Int64} {before : List Int64} (h : before.foldlM divide n = .ok Int64.minValue)
    (after : List Int64) : (before ++ -1 :: after).foldlM divide n = after.foldlM divide Int64.minValue := by
  have hstep := foldlM_divide_cons Int64.minValue (show (-1 : Int64) ≠ 0 by decide) after
  rw [Int64.minValue_div_neg_one] at hstep
  rw [List.foldlM_append, h]
  exact hstep

theorem div_apply (table : Nat) (ns : List Int64) (w : World) :
    div.apply table (ns.map .number) w = Run.ofExcept ((quotient ns).map Expr.number) w := by
  rw [apply, numbers_map]
  change (Run.ofExcept (quotient ns) >>= fun q => pure (.number q) : Run Error World Expr) w = _
  cases quotient ns <;> rfl

theorem quotient_more (n : Int64) {ds : List Int64} (h : ds ≠ []) : quotient (n :: ds) = ds.foldlM divide n := by
  cases ds with
  | nil => exact absurd rfl h
  | cons d ds => rfl

theorem div_more (table : Nat) (n : Int64) {ds : List Int64} (h : ds ≠ []) (w : World) :
    div.apply table ((n :: ds).map .number) w = Run.ofExcept ((ds.foldlM divide n).map Expr.number) w := by
  rw [div_apply, quotient_more n h]

theorem div_not_number (table : Nat) (ns : List Int64) {v : Expr} (hv : ∀ n, v ≠ .number n) (rest : List Expr)
    (w : World) :
    div.apply table (ns.map .number ++ v :: rest) w = .error (.notNumber div.name v.print) w := by
  rw [apply, numbers_error _ _ hv]
  rfl

/-- A division fails for a divisor that is zero, and for an argument that is no number even if a
divisor before it is zero. Otherwise it gives the exact quotient by the product of the divisors, in
whatever order they come, rounded toward zero. Only the least word divided by minus one stays as it
is. -/
theorem division_truncates (table : Nat) (w : World) :
    (∀ (n : Int64) (ds : List Int64), ds ≠ [] →
      (div.apply table ((n :: ds).map .number) w = .error .divideByZero w ↔ 0 ∈ ds) ∧
      (0 ∉ ds → ∃ q, div.apply table ((n :: ds).map .number) w = .value (.number q) w ∧
        (¬ Overflows n ds → q.toInt = n.toInt.tdiv (ds.map Int64.toInt).prod)) ∧
      ∀ es, ds.Perm es → ¬ Overflows n ds → ¬ Overflows n es →
        div.apply table ((n :: ds).map .number) w = div.apply table ((n :: es).map .number) w) ∧
    (∀ (n : Int64) (before after : List Int64), before.foldlM divide n = .ok Int64.minValue →
      (before ++ -1 :: after).foldlM divide n = after.foldlM divide Int64.minValue ∧
      div.apply table ((n :: (before ++ [-1])).map .number) w = .value (.number Int64.minValue) w) ∧
    (∀ n : Int64, (div.apply table [.number n] w = .error .divideByZero w ↔ n = 0) ∧
      (n ≠ 0 → ∃ q, div.apply table [.number n] w = .value (.number q) w ∧ q.toInt = Int.tdiv 1 n.toInt)) ∧
    ∀ vs : List Expr, (∃ v ∈ vs, ∀ n, v ≠ .number n) →
      ∃ (ns : List Int64) (v : Expr) (rest : List Expr) (e : Error), vs = ns.map .number ++ v :: rest ∧
        (∀ n, v ≠ .number n) ∧ div.apply table vs w = .error e w ∧ e.kind = .typeMismatch ∧
        e.message = "type mismatch: / expects numbers, got " ++ v.print := by
  refine ⟨?_, ?_, ?_, ?_⟩
  · intro n ds hne
    simp only [div_more table n hne]
    refine ⟨⟨?_, ?_⟩, ?_, ?_⟩
    · intro h
      by_contra hz
      obtain ⟨q, hq, -⟩ := foldlM_divide_exact hz n
      rw [hq] at h
      cases h
    · intro hz
      rw [foldlM_divide_zero hz]
      rfl
    · intro hz
      obtain ⟨q, hq, hexact⟩ := foldlM_divide_exact hz n
      exact ⟨q, by rw [hq]; rfl, hexact⟩
    · intro es hperm hds hes
      have hne' : es ≠ [] := fun h => hne (by simpa [h] using hperm)
      rw [div_more table n hne', foldlM_divide_perm hperm hds hes]
  · intro n before after h
    refine ⟨foldlM_divide_overflow h after, ?_⟩
    rw [div_more table n (by simp), foldlM_divide_overflow h]
    rfl
  · intro n
    have hone : div.apply table [.number n] w = Run.ofExcept ((divide 1 n).map Expr.number) w := div_apply table [n] w
    rw [hone]
    by_cases hz : n = 0
    · subst hz
      exact ⟨iff_of_true rfl rfl, fun h => absurd rfl h⟩
    · rw [divide_eq_ok 1 hz]
      have hexact : (1 / n).toInt = Int.tdiv 1 n.toInt := toInt_divide (fun h => absurd h.1 (by decide))
      exact ⟨iff_of_false nofun hz, fun _ => ⟨1 / n, rfl, hexact⟩⟩
  · intro vs h
    obtain ⟨ns, v, rest, rfl, hv⟩ := exists_first_not_number h
    exact ⟨ns, v, rest, _, rfl, hv, div_not_number table ns hv rest w, rfl, rfl⟩

theorem division_truncates_orders :
    ∃ (w : World) (ds es : List Int64) (vs : List Expr), ds = [3, -1, 4611686018427387904] ∧
      es = [4611686018427387904, 3, -1] ∧ ds.Perm es ∧ 0 ∉ ds ∧
      ¬ Overflows Int64.minValue ds ∧ ¬ Overflows Int64.minValue es ∧
      div.apply 0 ((Int64.minValue :: ds).map .number) w = div.apply 0 ((Int64.minValue :: es).map .number) w ∧
      div.apply 0 ((Int64.minValue :: ds).map .number) w = .value (.number 0) w ∧
      [1].foldlM divide Int64.minValue = .ok Int64.minValue ∧
      div.apply 0 ([Int64.minValue, 1, -1].map .number) w = .value (.number Int64.minValue) w ∧
      div.apply 0 [.number (-1)] w = .value (.number (-1)) w ∧
      vs = [.number 1, .number 0, .nil 0] ∧ (∃ v ∈ vs, ∀ n, v ≠ .number n) ∧
      ∃ e, div.apply 0 vs w = .error e w ∧ e.kind = .typeMismatch := by
  let w := World.initial .closed
  let ds : List Int64 := [3, -1, 4611686018427387904]
  let es : List Int64 := [4611686018427387904, 3, -1]
  let vs : List Expr := [.number 1, .number 0, .nil 0]
  have hperm : ds.Perm es := by decide
  have hzero : 0 ∉ ds := by decide
  have h₁ : (-1 : Int64) ≠ 0 := by decide
  have h₂ : (3 : Int64) ≠ 0 := by decide
  have h₃ : (4611686018427387904 : Int64) ≠ 0 := by decide
  have hds : ¬ Overflows Int64.minValue ds := by
    simp only [ds, overflows_cons _ h₁, overflows_cons _ h₂, overflows_cons _ h₃, not_overflows_nil]
    decide
  have hes : ¬ Overflows Int64.minValue es := by
    simp only [es, overflows_cons _ h₁, overflows_cons _ h₂, overflows_cons _ h₃, not_overflows_nil]
    decide
  have hvs : ∃ v ∈ vs, ∀ n, v ≠ .number n := ⟨.nil 0, by simp [vs], by simp [Expr.nil, Expr.keyword]⟩
  have hone : [1].foldlM divide Int64.minValue = .ok Int64.minValue := rfl
  obtain ⟨hmore, hmin, hreciprocal, hbad⟩ := division_truncates 0 w
  obtain ⟨-, hvalue, horder⟩ := hmore Int64.minValue ds (by decide)
  obtain ⟨q, hq, hexact⟩ := hvalue hzero
  obtain rfl : q = 0 := Int64.toInt_inj.mp ((hexact hds).trans (by decide))
  obtain ⟨r, hr, hrexact⟩ := (hreciprocal (-1)).2 (by decide)
  obtain rfl : r = -1 := Int64.toInt_inj.mp (hrexact.trans (by decide))
  obtain ⟨-, -, -, e, -, -, he, hkind, -⟩ := hbad vs hvs
  exact ⟨w, ds, es, vs, rfl, rfl, hperm, hzero, hds, hes, horder es hperm hds hes, hq, hone, (hmin _ [1] [] hone).2, hr,
    rfl, hvs, e, he, hkind⟩

end Primitive

end Lisp
