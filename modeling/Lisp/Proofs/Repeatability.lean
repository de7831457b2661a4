import Lisp.Proofs.CodeProvenance
import Lisp.Proofs.RepeatedEvaluation
import Lisp.Proofs.SessionTurns
import Lisp.Proofs.TwinSessions

namespace Lisp

namespace Expr

def Older (n : Ident) : Expr → Prop
  | string i _ => i < n
  | pair i h t => i < n ∧ h.Older n ∧ t.Older n
  | function i params body _ => i < n ∧ params.Older n ∧ body.Older n
  | _ => True

def WriteFree (table : Nat) (e : Expr) : Prop :=
  ¬ (keyword .set table).Sub e ∧ ¬ (keyword .defun table).Sub e

theorem WriteFree.sub {table : Nat} {e e' : Expr} (h : e'.WriteFree table) (hs : e.Sub e') : e.WriteFree table :=
  ⟨fun hset => h.1 (hset.trans hs), fun hdefun => h.2 (hdefun.trans hs)⟩

theorem Twin.older {L : Link} {e e' : Expr} (h : e.Twin L e') {n : Ident} (hn : ∀ {i j}, L.idents i j → i < n) :
    e.Older n := by
  induction h with
  | symbol _ => trivial
  | number _ => trivial
  | string hi _ => exact hn hi
  | pair hi _ _ ihh iht => exact ⟨hn hi, ihh, iht⟩
  | function hi _ _ _ ihp ihb => exact ⟨hn hi, ihp, ihb⟩

theorem Twin.keeps {L : Link} {e e' : Expr} (h : e.Twin L e') {i : ScopeId} (hi : e.Keeps i) : ∃ j, L.scopes i j := by
  induction h with
  | pair _ _ _ ihh iht => exact hi.elim ihh iht
  | function _ _ _ hs ihp ihb =>
    rcases hi with rfl | hi | hi
    · exact ⟨_, hs⟩
    · exact ihp hi
    · exact ihb hi
  | _ => exact hi.elim

variable {ρ : Rerun} {e : Expr}

theorem readOnly_of_writeFree (hin : e.Inside ρ.reach) (hfree : e.WriteFree ρ.table)
    (hbodies : ∀ params body, e.Carries params body → body.WriteFree ρ.table) (hold : e.Older ρ.idents) :
    e.ReadOnly ρ := by
  induction e with
  | symbol x =>
    constructor
    · rintro rfl
      exact hfree.1 .refl
    · rintro rfl
      exact hfree.2 .refl
  | number n => trivial
  | string i text => exact hold
  | pair i h t ihh iht =>
    obtain ⟨hinh, hint⟩ := inside_pair.mp hin
    refine ⟨hold.1, ?_, ?_⟩
    · exact ihh hinh (hfree.sub (.head .refl)) (fun p b hc => hbodies p b (.inl hc)) hold.2.1
    · exact iht hint (hfree.sub (.tail .refl)) (fun p b hc => hbodies p b (.inr hc)) hold.2.2
  | function i params body scope _ ihb =>
    obtain ⟨hscope, -, hinb⟩ := inside_function.mp hin
    have hbody := hbodies params body (.inl ⟨rfl, rfl⟩)
    exact ⟨hscope, ihb hinb hbody (fun p b hc => hbodies p b (.inr (.inr hc))) hold.2.2⟩

theorem echo_of_writeFree (hin : e.Inside ρ.reach)
    (hbodies : ∀ params body, e.Carries params body → body.WriteFree ρ.table) (hold : e.Older ρ.idents) :
    e.Echo ρ e := by
  induction e with
  | symbol x => exact .symbol x
  | number n => exact .number n
  | string i text => exact .string (ρ.ident_old hold) text
  | pair i h t ihh iht =>
    obtain ⟨hinh, hint⟩ := inside_pair.mp hin
    apply Echo.pair (ρ.ident_old hold.1)
    · exact ihh hinh (fun p b hc => hbodies p b (.inl hc)) hold.2.1
    · exact iht hint (fun p b hc => hbodies p b (.inr hc)) hold.2.2
  | function i params body scope _ _ =>
    obtain ⟨hscope, -, hinb⟩ := inside_function.mp hin
    have hbody := hbodies params body (.inl ⟨rfl, rfl⟩)
    apply Echo.function i params hscope
    exact readOnly_of_writeFree hinb hbody (fun p b hc => hbodies p b (.inr (.inr hc))) hold.2.2

end Expr

namespace Machine

variable {depth : Nat} {scope : ScopeId} {e v : Expr} {m m' : Machine} {result : Except Error Expr}

def AtHand (m : Machine) (scope : ScopeId) (e v : Expr) : Prop :=
  v = e ∨ ∃ i f x, m.Reach scope e i ∧ m.world.scopes.all[i]? = some f ∧ (x, v) ∈ f.bindings

/-- Scopes and objects are numbered in the order of their making, and all the scopes that the
expression leads to and all objects at hand have been made. -/
structure Whole (m : Machine) (scope : ScopeId) (e : Expr) : Prop where
  scopes : ∀ i, m.Reach scope e i → i < m.world.scopes.all.size
  objects : ∀ v, m.AtHand scope e v → v.Older m.world.next

structure WriteFree (m : Machine) (scope : ScopeId) (e : Expr) : Prop where
  code : e.WriteFree m.session.symbols.id
  bodies : ∀ v params body, m.AtHand scope e v → v.Carries params body → body.WriteFree m.session.symbols.id

section Sessions

variable {R : ScopeId → Prop} {base : Nat} {L : Link} {m₁ m₂ : Machine}

theorem Twin.bound (h : Twin R base L m₁ m₂) {i : ScopeId} {f : Scope} (hi : ∃ j, L.scopes i j)
    (hf : m₁.world.scopes.all[i]? = some f) :
    (∀ p ∈ f.parent, ∃ q, L.scopes p q) ∧ ∀ b ∈ f.bindings, ∃ u, b.2.Twin L u := by
  obtain ⟨j, hij⟩ := hi
  obtain ⟨f', g, hf', -, hparent, hbindings⟩ := h.world.scopes.linked hij
  obtain rfl := Option.some.inj (hf.symm.trans hf')
  constructor
  · intro p hp
    rcases rel_cases hparent with ⟨hnone, -⟩ | ⟨p', q, hp', -, hpq, -⟩
    · rw [hnone] at hp
      cases hp
    · rw [hp'] at hp
      cases hp
      exact ⟨q, hpq⟩
  · intro b hb
    obtain ⟨k, hk, rfl⟩ := List.getElem_of_mem hb
    exact ⟨_, (hbindings.get hk (hbindings.length_eq ▸ hk)).2⟩

theorem Twin.whole (h : Twin R base L m₁ m₂) {e' : Expr} (he : e.Twin L e') : m₁.Whole m₁.session.global e := by
  have hreach (i : ScopeId) (hi : m₁.Reach m₁.session.global e i) : ∃ j, L.scopes i j := by
    have hclosed : Scopes.Closed (fun i => ∃ j, L.scopes i j) m₁.world.scopes := by
      intro i f hi hf j hj
      obtain ⟨hparent, hbindings⟩ := h.bound hi hf
      rcases hj with hj | ⟨b, hb, hj⟩
      · exact hparent j hj
      · obtain ⟨u, hu⟩ := hbindings b hb
        exact hu.keeps hj
    refine hclosed.reach ?_ hi
    rintro i (rfl | hi)
    · exact ⟨_, h.session.global⟩
    · exact he.keeps hi
  constructor
  · intro i hi
    obtain ⟨j, hij⟩ := hreach i hi
    exact (h.world.scopes.lt hij).1
  · rintro v (rfl | ⟨i, f, x, hi, hf, hb⟩)
    · exact he.older fun hij => (h.world.bounded hij).1
    · obtain ⟨u, hu⟩ := (h.bound (hreach i hi) hf).2 _ hb
      exact hu.older fun hij => (h.world.bounded hij).1

theorem Twin.read (h : Twin R base L m m) {d : Datum} (he : (realize d : Run Error Machine Expr) m = .value e m') :
    ∃ L', Twin R base L' m' m' ∧ e.Twin L' e := by
  cases Abreast.realize h d with
  | @value L' _ _ _ _ h₁ h₂ hadvance hv =>
    rw [he] at h₁ h₂
    cases h₁
    cases h₂
    exact ⟨L', hadvance.twin, hv⟩
  | error h₁ _ _ =>
    rw [he] at h₁
    cases h₁
  | exhausted h₁ _ =>
    rw [he] at h₁
    cases h₁

theorem Turns.twin {sink : Sink} {log : List Event} (h : (start sink).Turns log m) :
    ∃ L, Twin (fun _ => True) 0 L m m := by
  induction h with
  | refl => exact ⟨_, join_twin 0 (.initial sink) sink⟩
  | write _ sink ih =>
    obtain ⟨L, hs, hw⟩ := ih
    exact ⟨L, hs, hw.scopes, hw.unique, hw.bounded, hw.base_le, hw.region⟩
  | read _ _ he ih =>
    obtain ⟨L, htwin⟩ := ih
    obtain ⟨L', htwin', -⟩ := htwin.read he
    exact ⟨L', htwin'⟩
  | @run _ _ _ _ _ _ depth _ _ _ he hr ih =>
    obtain ⟨L, htwin⟩ := ih
    obtain ⟨L', htwin', hcode⟩ := htwin.read he
    rcases (Abreast.evaluate htwin' depth hcode).ending with ⟨hnone, -⟩ | ⟨L'', r, r', s, t, h₁, h₂, hadvance, -⟩
    · rw [hr] at hnone
      cases hnone
    · rw [hr] at h₁ h₂
      cases h₁
      cases h₂
      exact ⟨L'', hadvance.twin⟩

end Sessions

def rerun (m : Machine) (scope : ScopeId) (e : Expr) (hm : m.Whole scope e) (moreScopes moreIdents : Nat) : Rerun where
  table := m.session.symbols.id
  scopes := m.world.scopes.all.size
  idents := m.world.next
  reach := m.Reach scope e
  reach_lt := hm.scopes
  moreScopes := moreScopes
  moreIdents := moreIdents

theorem AtHand.inside (hv : m.AtHand scope e v) : v.Inside (m.Reach scope e) := by
  intro j hj
  rcases hv with rfl | ⟨i, f, x, hi, hf, hb⟩
  · exact .root (.inr hj)
  · exact hi.step hf (.inr ⟨(x, v), hb, hj⟩)

section Rerun

variable (hm : m.Whole scope e) (hfree : m.WriteFree scope e)

include hfree

theorem rerun_readOnly (k d : Nat) : e.ReadOnly (m.rerun scope e hm k d) := by
  have he : m.AtHand scope e e := .inl rfl
  exact Expr.readOnly_of_writeFree he.inside hfree.code (fun p b hc => hfree.bodies e p b he hc) (hm.objects e he)

theorem rerun_echo {k d : Nat} {w : World} (hsize : w.scopes.all.size = m.world.scopes.all.size + k)
    (hsame : ∀ i < m.world.scopes.all.size, w.scopes.all[i]? = m.world.scopes.all[i]?)
    (hnext : w.next = m.world.next + d) : World.Echo (m.rerun scope e hm k d) m.world w := by
  refine ⟨⟨Nat.le_refl _, hsize, ?_⟩, Nat.le_refl _, hnext⟩
  rintro i (hi | hi)
  · have hlt := hm.scopes i hi
    rw [Rerun.scope_reach hi, hsame i hlt]
    cases hf : m.world.scopes.all[i]? with
    | none => exact .none
    | some f =>
      refine .some ⟨?_, ?_⟩
      · cases hp : f.parent with
        | none => exact .none
        | some p =>
          have hreach : m.Reach scope e p := hi.step hf (.inl hp)
          exact .some ⟨.inl hreach, (Rerun.scope_reach (ρ := m.rerun scope e hm k d) hreach).symm⟩
      · apply List.forall₂_same.mpr
        rintro ⟨x, v⟩ hb
        have hv : m.AtHand scope e v := .inr ⟨i, f, x, hi, hf, hb⟩
        exact ⟨rfl, Expr.echo_of_writeFree hv.inside (fun p b hc => hfree.bodies v p b hv hc) (hm.objects v hv)⟩
  · have hi : m.world.scopes.all.size ≤ i := hi
    have hi' : (m.rerun scope e hm k d).scope i = i + k := Rerun.raise_new k hi
    rw [hi', Array.getElem?_eq_none hi, Array.getElem?_eq_none (by omega)]
    exact .none

theorem eval_again {k d : Nat} {w w₁ : World} (hsize : w.scopes.all.size = m.world.scopes.all.size + k)
    (hsame : ∀ i < m.world.scopes.all.size, w.scopes.all[i]? = m.world.scopes.all[i]?)
    (hnext : w.next = m.world.next + d)
    (h : (eval m.session depth scope e m.world).ending? = some (result, w₁)) :
    ∃ result' w', (eval m.session depth scope e w).ending? = some (result', w') ∧
      World.Onward (m.rerun scope e hm k d) m.world w w₁ w' ∧
      Agree (Expr.Echo (m.rerun scope e hm k d)) result result' := by
  have hscope : m.Reach scope e scope := .root (.inl rfl)
  have hrun := eval_repeats (ρ := m.rerun scope e hm k d) rfl depth m.world w scope e
    (rerun_echo hm hfree hsize hsame hnext) (.inl hscope) (rerun_readOnly hm hfree k d)
  rw [Rerun.scope_reach (ρ := m.rerun scope e hm k d) hscope] at hrun
  rcases hrun.ending with ⟨hnone, -⟩ | ⟨_, r, r', s, t, h₁, h₂, honward, hr⟩
  · rw [h] at hnone
    cases hnone
  · rw [h] at h₁
    cases h₁
    exact ⟨r', t, h₂, honward, hr⟩

end Rerun

/-- Evaluation without SET and DEFUN leaves all scopes as they are. Done again it writes the same
text and fails in the same way or gives a value of the same structure. All that this asks of the state
is so in every session that is given texts only. -/
theorem evaluation_repeats :
    (∀ (depth : Nat) (scope : ScopeId) (e : Expr) (m m' : Machine) (result : Except Error Expr),
      m.Whole scope e → m.WriteFree scope e → (evaluateIn depth scope e m).ending? = some (result, m') →
      (∀ i < m.world.scopes.all.size, m'.world.scopes.all[i]? = m.world.scopes.all[i]?) ∧
      ∃ result' m'' text, (evaluateIn depth scope e m').ending? = some (result', m'') ∧
        m'.world.sink = m.world.sink.push text ∧ m''.world.sink = m'.world.sink.push text ∧
        Agree (fun v u => v.Same u ∧ v.equal u = true) result result') ∧
    ∀ (sink : Sink) (log : List Event) (m m' : Machine) (d : Datum) (e : Expr), (start sink).Turns log m →
      (realize d : Run Error Machine Expr) m = .value e m' → m'.Whole m'.session.global e := by
  constructor
  · intro depth scope e m m' result hm hfree h
    obtain ⟨hrun, hsession⟩ := evaluateIn_ending_eq_some.mp h
    -- Beside itself the first run shows what it leaves; then it is compared with the second one.
    obtain ⟨_, _, -, hself, -⟩ := eval_again (k := 0) (d := 0) hm hfree rfl (fun _ _ => rfl) rfl hrun
    have hsame (i : ScopeId) (hi : i < m.world.scopes.all.size) := hself.spared.same i hi id
    obtain ⟨k, hk⟩ := Nat.exists_eq_add_of_le hself.spared.grows
    obtain ⟨d, hd⟩ := Nat.exists_eq_add_of_le hself.echo.idents_le
    obtain ⟨result', w, hrun', honward, hresult⟩ := eval_again hm hfree hk hsame hd hrun
    obtain ⟨text, htext, htext'⟩ := honward.printed
    refine ⟨hsame, result', { m' with world := w }, text, ?_, htext, htext', ?_⟩
    · rw [evaluateIn_ending_eq_some, hsession]
      exact ⟨hrun', rfl⟩
    · cases hresult with
      | error err => exact .error err
      | ok hv => exact .ok ⟨hv.same, hv.same.equal⟩
  · intro sink log m m' d e hturns hread
    obtain ⟨L, htwin⟩ := hturns.twin
    obtain ⟨L', htwin', hcode⟩ := htwin.read hread
    exact htwin'.whole hcode

theorem evaluation_repeats_call :
    ∃ (m m' m'' : Machine) (e v u : Expr) (text : String), e.print = "(F (PRINT \"s\"))" ∧ m.Whole 0 e ∧
      m.WriteFree 0 e ∧ (evaluateIn 3 0 e m).ending? = some (.ok v, m') ∧
      (evaluateIn 3 0 e m').ending? = some (.ok u, m'') ∧ m'.world.scopes.all[0]? = m.world.scopes.all[0]? ∧
      m'.world.sink = m.world.sink.push text ∧ m''.world.sink = m'.world.sink.push text ∧
      v.identical u = false ∧ v.Same u ∧
      ∃ n, (realize (.string "s") : Run Error Machine Expr) (start .closed) = .value (.string 0 "s") n ∧
        n.Whole n.session.global (.string 0 "s") := by
  let cons : Symbol := ⟨0, 6, "CONS"⟩
  let print : Symbol := ⟨0, 7, "PRINT"⟩
  let x : Expr := .symbol ⟨0, 8, "X"⟩
  let body : Expr := .pair 2 (.symbol cons) (.pair 3 x (.pair 4 x (.nil 0)))
  let f : Expr := .function 0 (.pair 1 x (.nil 0)) body 0
  let global : Scope := ⟨none, [(cons, .symbol cons), (print, .symbol print), (⟨0, 9, "F"⟩, f)]⟩
  let m : Machine := ⟨⟨.initial 0, [(cons, .cons), (print, .print)], 0⟩, ⟨⟨#[global]⟩, 10, .buffer ""⟩⟩
  let e : Expr := .pair 5 (.symbol ⟨0, 9, "F"⟩)
    (.pair 6 (.pair 7 (.symbol print) (.pair 8 (.string 9 "s") (.nil 0))) (.nil 0))
  have hreach (i : ScopeId) (hi : m.Reach 0 e i) : i = 0 := by
    have hclosed : Scopes.Closed (fun i => i = 0) m.world.scopes := by
      rintro i g rfl hg j hj
      obtain rfl : global = g := Option.some.inj hg
      simpa [Scope.Mentions, global, Expr.Keeps, f, body, x, Expr.nil, Expr.keyword, eq_comm] using hj
    refine hclosed.reach ?_ hi
    simp [e, Expr.Keeps, Expr.nil, Expr.keyword]
  have hhand (v : Expr) (hv : m.AtHand 0 e v) : v = e ∨ v = .symbol cons ∨ v = .symbol print ∨ v = f := by
    rcases hv with rfl | ⟨i, g, y, hi, hg, hb⟩
    · exact .inl rfl
    · obtain rfl := hreach i hi
      obtain rfl : global = g := Option.some.inj hg
      simp only [global, List.mem_cons, Prod.mk.injEq, List.not_mem_nil, or_false] at hb
      rcases hb with ⟨-, hv⟩ | ⟨-, hv⟩ | ⟨-, hv⟩
      · exact .inr (.inl hv)
      · exact .inr (.inr (.inl hv))
      · exact .inr (.inr (.inr hv))
  have hm : m.Whole 0 e := by
    refine ⟨fun i hi => hreach i hi ▸ Nat.one_pos, fun v hv => ?_⟩
    rcases hhand v hv with rfl | rfl | rfl | rfl
    · simp [e, Expr.Older, Expr.nil, Expr.keyword, m]
    · trivial
    · trivial
    · simp [f, body, x, Expr.Older, Expr.nil, Expr.keyword, m]
  have hfree : m.WriteFree 0 e := by
    refine ⟨⟨by decide, by decide⟩, fun v params b hv hc => ?_⟩
    rcases hhand v hv with rfl | rfl | rfl | rfl
    · simp [e, Expr.Carries, Expr.nil, Expr.keyword] at hc
    · exact hc.elim
    · exact hc.elim
    · obtain ⟨-, rfl⟩ : Expr.pair 1 x (.nil 0) = params ∧ body = b := by
        simpa [f, body, x, Expr.Carries, Expr.nil, Expr.keyword] using hc
      exact ⟨by decide, by decide⟩
  let after (next : Ident) (scopes : List Scope) (text : String) : Machine :=
    { m with world := ⟨⟨(global :: scopes).toArray⟩, next, .buffer text⟩ }
  let inner : Scope := ⟨some 0, [(⟨0, 8, "X"⟩, .nil 0)]⟩
  have hrun : (evaluateIn 3 0 e m).ending? =
      some (.ok (.pair 11 (.nil 0) (.nil 0)), after 12 [inner] "\"s\" \n") := rfl
  have hrun' : (evaluateIn 3 0 e (after 12 [inner] "\"s\" \n")).ending? =
      some (.ok (.pair 13 (.nil 0) (.nil 0)), after 14 [inner, inner] "\"s\" \n\"s\" \n") := rfl
  obtain ⟨hsame, result, m'', text, hrun'', htext, htext', hresult⟩ :=
    evaluation_repeats.1 3 0 e m _ _ hm hfree hrun
  rw [hrun'] at hrun''
  cases hrun''
  cases hresult with
  | ok hv =>
    exact ⟨m, _, _, e, _, _, text, by decide +kernel, hm, hfree, hrun, hrun', hsame 0 Nat.one_pos, htext, htext', rfl,
      hv.1, _, rfl, evaluation_repeats.2 .closed [] _ _ (.string "s") _ .refl rfl⟩

end Machine

end Lisp
