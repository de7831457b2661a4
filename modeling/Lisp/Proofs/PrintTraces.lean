import Lisp.Proofs.TaskMoves

namespace Lisp

def Primitive.lines (ps : List (List Expr)) : String :=
  String.join (ps.map line)

theorem Primitive.lines_nil : lines [] = "" := rfl

theorem Primitive.lines_append (ps qs : List (List Expr)) : lines (ps ++ qs) = lines ps ++ lines qs := by
  rw [lines, List.map_append, String.join_append]
  rfl

namespace Task

/-- The task comes to an end with a result. On the way PRINT is applied to the given lists of
values, in this order. -/
inductive Performs (session : Session) :
    Task → Store → List (List Expr) → Except Error Expr → Store → Prop where
  | done {t : Task} {s s' : Store} {r : Except Error Expr} (h : t.move session s = .done r s') :
    Performs session t s [] r s'
  | print {t : Task} {s : Store} {vs : List Expr} (h : t.move session s = .print vs) :
    Performs session t s [vs] (.ok session.nil) s
  | become {t t' : Task} {s s' s'' : Store} {ps : List (List Expr)} {r : Except Error Expr}
    (h : t.move session s = .become t' s') (ht : Performs session t' s' ps r s'') :
    Performs session t s ps r s''
  | fail {t : Task} {scope : ScopeId} {e : Expr} {next : Expr → Task} {s s' : Store} {ps : List (List Expr)}
    {err : Error} (h : t.move session s = .first scope e next)
    (he : Performs session (.eval scope e) s ps (.error err) s') : Performs session t s ps (.error err) s'
  | next {t : Task} {scope : ScopeId} {e v : Expr} {next : Expr → Task} {s s' s'' : Store}
    {ps qs : List (List Expr)} {r : Except Error Expr} (h : t.move session s = .first scope e next)
    (he : Performs session (.eval scope e) s ps (.ok v) s') (hn : Performs session (next v) s' qs r s'') :
    Performs session t s (ps ++ qs) r s''

end Task

namespace Run

def Writes (x : Run Error World Expr) (s : Store) (ps : List (List Expr)) (r : Except Error Expr) (s' : Store) : Prop :=
  ∀ k : Sink, (x (s.world k)).ending? = some (r, s'.world (k.push (Primitive.lines ps)))

namespace Writes

variable {x : Run Error World Expr} {f : Expr → Run Error World Expr} {s s' s'' : Store} {ps qs : List (List Expr)}

theorem value {v : Expr} (hx : x.Writes s ps (.ok v) s') (k : Sink) :
    x (s.world k) = .value v (s'.world (k.push (Primitive.lines ps))) := by
  have hk := hx k
  cases h : x (s.world k) with
  | value a w =>
    rw [h] at hk
    cases hk
    rfl
  | error e w => simp [h, Outcome.ending?] at hk
  | exhausted => simp [h, Outcome.ending?] at hk

theorem error {err : Error} (hx : x.Writes s ps (.error err) s') (k : Sink) :
    x (s.world k) = .error err (s'.world (k.push (Primitive.lines ps))) := by
  have hk := hx k
  cases h : x (s.world k) with
  | value a w => simp [h, Outcome.ending?] at hk
  | error e w =>
    rw [h] at hk
    cases hk
    rfl
  | exhausted => simp [h, Outcome.ending?] at hk

theorem ends {r : Except Error Expr} (hx : x.Writes s ps r s') (k : Sink) : x (s.world k) ≠ .exhausted := by
  intro h
  have hk := hx k
  rw [h] at hk
  cases hk

theorem bind_ok {v : Expr} {r : Except Error Expr} (hx : x.Writes s ps (.ok v) s') (hf : (f v).Writes s' qs r s'') :
    (x >>= f).Writes s (ps ++ qs) r s'' := by
  intro k
  rw [bind_value (hx.value k), hf, Sink.push_push, Primitive.lines_append]

theorem bind_error {err : Error} (hx : x.Writes s ps (.error err) s') : (x >>= f).Writes s ps (.error err) s' := by
  intro k
  rw [Run.bind_error (hx.error k)]
  rfl

end Writes

end Run

namespace Task

variable {session : Session}

/-- No sink lets the run end, or it does what the task says under all of them. -/
def Settles (session : Session) (t : Task) (x : Run Error World Expr) (s : Store) : Prop :=
  (∀ k, x (s.world k) = .exhausted) ∨ ∃ ps r s', t.Performs session s ps r s' ∧ x.Writes s ps r s'

def Follows (t : Task) : Move → Prop
  | .become t' _ => t = t'
  | .first _ _ next => ∃ v, t = next v
  | _ => False

def size : Task → Nat
  | eval _ _ => 0
  | set _ _ _ => 1
  | clauses _ e => 2 * e.elements.length + 1
  | branch _ _ rest _ => 2 * rest.elements.length + 2
  | operands _ tail _ => tail.elements.length + 3
  | arguments _ _ _ es => es.length + 2
  | apply _ _ => 1

theorem Follows.of_check {α : Type} {t : Task} {r : Except Error α} {s : Store} {next : α → Move}
    (h : t.Follows (.check r s next)) : ∃ a, t.Follows (next a) := by
  cases r with
  | ok a => exact ⟨a, h⟩
  | error e => exact h.elim

theorem size_lt_of_follows {t t' : Task} {s : Store} (ht : 0 < t.size) (h : t'.Follows (t.move session s)) :
    t'.size < t.size := by
  cases t with
  | eval scope e => cases ht
  | set scope x v => exact h.elim
  | clauses scope e =>
    cases e with
    | pair i clause rest =>
      simp only [move, Move.clauses] at h
      split at h
      · split at h
        · subst h
          exact ht
        · obtain ⟨v, rfl⟩ := h
          simp [size, Expr.elements]
          omega
      · exact h.elim
    | _ =>
      simp only [move, Move.clauses] at h
      split at h
      · exact h.elim
      · exact h.elim
  | branch scope result rest v =>
    obtain rfl := h
    split
    · simp [size]
    · exact ht
  | operands scope tail f =>
    simp only [move, Move.operands] at h
    split at h
    · rename_i es hlist
      subst h
      simp [size, toList?_elements hlist]
    · exact h.elim
  | arguments scope f vs es =>
    cases es with
    | nil =>
      obtain rfl := h
      simp [size]
    | cons e es =>
      obtain ⟨v, rfl⟩ := h
      simp [size]
  | apply f vs =>
    cases f with
    | function i params body scope =>
      obtain ⟨bs, rfl⟩ := Follows.of_check h
      exact ht
    | symbol x =>
      simp only [move, Move.apply] at h
      split at h <;> exact h.elim
    | _ => exact h.elim

section Unfold

variable {ev : Evaluator} {t t' : Task} {s s' s'' : Store} {scope : ScopeId} {e v : Expr} {next : Expr → Task}
  {ps qs : List (List Expr)} {r : Except Error Expr}

theorem unfold_done (h : t.move session s = .done r s') : (t.unfold session ev).Writes s [] r s' := by
  intro k
  rw [unfold_eq, h, Primitive.lines_nil, Sink.push_empty]
  cases r <;> rfl

theorem unfold_print {vs : List Expr} (h : t.move session s = .print vs) :
    (t.unfold session ev).Writes s [vs] (.ok session.nil) s := by
  intro k
  rw [unfold_eq, h, Move.run, Run.bind_value (World.emit_apply _ _)]
  simp [Primitive.lines, Store.world, Outcome.ending?, pure, Run.pure]

theorem unfold_become (h : t.move session s = .become t' s') (k : Sink) :
    t.unfold session ev (s.world k) = t'.run session ev (s'.world k) := by
  rw [unfold_eq, h]
  rfl

theorem unfold_first (h : t.move session s = .first scope e next) (k : Sink) :
    t.unfold session ev (s.world k) = (ev scope e >>= fun v => (next v).run session ev) (s.world k) := by
  rw [unfold_eq, h]
  rfl

theorem unfold_fail {err : Error} (h : t.move session s = .first scope e next)
    (he : (ev scope e).Writes s ps (.error err) s') : (t.unfold session ev).Writes s ps (.error err) s' := by
  intro k
  rw [unfold_first h]
  exact he.bind_error k

theorem unfold_next (h : t.move session s = .first scope e next) (he : (ev scope e).Writes s ps (.ok v) s')
    (hn : ((next v).run session ev).Writes s' qs r s'') : (t.unfold session ev).Writes s (ps ++ qs) r s'' := by
  intro k
  rw [unfold_first h]
  exact he.bind_ok hn k

theorem unfold_settles (hev : ∀ scope e s, Settles session (.eval scope e) (ev scope e) s)
    (hnext : ∀ t' s', t'.Follows (t.move session s) → Settles session t' (t'.run session ev) s') :
    Settles session t (t.unfold session ev) s := by
  cases hmove : t.move session s with
  | done r s' => exact .inr ⟨[], r, s', .done hmove, unfold_done hmove⟩
  | print vs => exact .inr ⟨[vs], .ok session.nil, s, .print hmove, unfold_print hmove⟩
  | become t' s' =>
    rw [hmove] at hnext
    rcases hnext t' s' rfl with hx | ⟨ps, r, s'', hp, hw⟩
    · exact .inl fun k => (unfold_become hmove k).trans (hx k)
    · refine .inr ⟨ps, r, s'', .become hmove hp, ?_⟩
      intro k
      rw [unfold_become hmove]
      exact hw k
  | first scope e next =>
    rw [hmove] at hnext
    rcases hev scope e s with hx | ⟨ps, _ | v, s', hp, hw⟩
    · exact .inl fun k => (unfold_first hmove k).trans (Run.bind_exhausted (hx k) _)
    · exact .inr ⟨ps, _, s', .fail hmove hp, unfold_fail hmove hw⟩
    · rcases hnext (next v) s' ⟨v, rfl⟩ with hx' | ⟨qs, r, s'', hq, hw'⟩
      · refine .inl fun k => (unfold_first hmove k).trans ?_
        rw [Run.bind_value (hw.value k)]
        exact hx' _
      · exact .inr ⟨ps ++ qs, r, s'', .next hmove hp hq, unfold_next hmove hw hw'⟩

end Unfold

theorem run_settles {ev : Evaluator} (hev : ∀ scope e s, Settles session (.eval scope e) (ev scope e) s) (t : Task)
    (s : Store) : Settles session t (t.run session ev) s := by
  -- The evaluator is used for expressions only. Between two of them a task becomes smaller.
  induction hn : t.size using Nat.strongRecOn generalizing t s with
  | _ n ih =>
    subst hn
    have hsmaller (ht : 0 < t.size) : Settles session t (t.unfold session ev) s :=
      unfold_settles hev fun t' s' h => ih t'.size (size_lt_of_follows ht h) t' s' rfl
    cases t with
    | eval scope e => exact hev scope e s
    | _ => exact hsmaller (by simp [size])

theorem eval_settles (session : Session) (depth : Nat) (scope : ScopeId) (e : Expr) (s : Store) :
    Settles session (.eval scope e) (Lisp.eval session depth scope e) s := by
  induction depth generalizing scope e s with
  | zero => exact .inl fun _ => rfl
  | succ depth ih => exact unfold_settles ih fun t' s' _ => run_settles ih t' s'

theorem run_of_unfold {t : Task} {s s' : Store} {ps : List (List Expr)} {r : Except Error Expr} (depth : Nat)
    (h : ∀ depth', depth ≤ depth' → (t.unfold session (Lisp.eval session depth')).Writes s ps r s') :
    ∃ depth, ∀ depth', depth ≤ depth' → (t.run session (Lisp.eval session depth')).Writes s ps r s' := by
  refine ⟨depth + 1, ?_⟩
  intro depth' hd
  cases t with
  | eval scope e =>
    obtain ⟨d, rfl⟩ : ∃ d, depth' = d + 1 := ⟨depth' - 1, by omega⟩
    exact h d (by omega)
  | _ => exact h depth' (by omega)

theorem Performs.run {t : Task} {s s' : Store} {ps : List (List Expr)} {r : Except Error Expr}
    (h : t.Performs session s ps r s') :
    ∃ depth, ∀ depth', depth ≤ depth' → (t.run session (Lisp.eval session depth')).Writes s ps r s' := by
  induction h with
  | done h => exact run_of_unfold 0 fun _ _ => unfold_done h
  | print h => exact run_of_unfold 0 fun _ _ => unfold_print h
  | become h _ ih =>
    obtain ⟨depth, ih⟩ := ih
    apply run_of_unfold depth
    intro depth' hd k
    rw [unfold_become h]
    exact ih depth' hd k
  | fail h _ ih =>
    obtain ⟨depth, ih⟩ := ih
    exact run_of_unfold depth fun depth' hd => unfold_fail h (ih depth' hd)
  | next h _ _ ihe ihn =>
    obtain ⟨depth₁, ihe⟩ := ihe
    obtain ⟨depth₂, ihn⟩ := ihn
    apply run_of_unfold (max depth₁ depth₂)
    intro depth' hd
    exact unfold_next h (ihe depth' (by omega)) (ihn depth' (by omega))

end Task

/-- An evaluation with its sink exchanged ends or not as before, and in the same way. To an open
sink it adds a line for each application of PRINT in turn, whether it succeeds or fails. -/
theorem eval_only_writes_sink (session : Session) (scope : ScopeId) (e : Expr) (s : Store) :
    (∀ depth k k', eval session depth scope e (s.world k) = .exhausted ↔
      eval session depth scope e (s.world k') = .exhausted) ∧
    (∀ depth k r w, (eval session depth scope e (s.world k)).ending? = some (r, w) →
      ∃ ps s', (Task.eval scope e).Performs session s ps r s' ∧
        (∀ text, (eval session depth scope e (s.world (.buffer text))).ending? =
          some (r, s'.world (.buffer (text ++ String.join (ps.map Primitive.line))))) ∧
        (eval session depth scope e (s.world .closed)).ending? = some (r, s'.world .closed)) ∧
    ∀ ps r s', (Task.eval scope e).Performs session s ps r s' → ∃ depth, ∀ depth', depth ≤ depth' →
      (∀ text, (eval session depth' scope e (s.world (.buffer text))).ending? =
        some (r, s'.world (.buffer (text ++ String.join (ps.map Primitive.line))))) ∧
      (eval session depth' scope e (s.world .closed)).ending? = some (r, s'.world .closed) := by
  refine ⟨?_, ?_, ?_⟩
  · intro depth k k'
    rcases Task.eval_settles session depth scope e s with h | ⟨ps, r, s', -, hw⟩
    · rw [h, h]
    · exact ⟨fun h => absurd h (hw.ends k), fun h => absurd h (hw.ends k')⟩
  · intro depth k r w h
    rcases Task.eval_settles session depth scope e s with hx | ⟨ps, r', s', hp, hw⟩
    · rw [hx k] at h
      cases h
    · obtain ⟨rfl, rfl⟩ : r' = r ∧ s'.world (k.push (Primitive.lines ps)) = w := by
        simpa using (hw k).symm.trans h
      exact ⟨ps, s', hp, fun text => hw (.buffer text), hw .closed⟩
  · intro ps r s' h
    obtain ⟨depth, hd⟩ := h.run
    refine ⟨depth, ?_⟩
    intro depth' hle
    exact ⟨fun text => hd depth' hle (.buffer text), hd depth' hle .closed⟩

theorem eval_only_writes_sink_failing :
    ∃ (e : Expr) (ps : List (List Expr)) (s' : Store), e.print = "(LIST (PRINT 1) (PRINT \"a\" 2) (CAR 5) (PRINT 3))" ∧
      (Task.eval 0 e).Performs (Machine.start .closed).session (Machine.start .closed).world.store ps
        (.error (.noParts "CAR" "5")) s' ∧
      String.join (ps.map Primitive.line) = "1 \n\"a\" 2 \n" := by
  let m := Machine.start .closed
  let call (name : String) (es : List Expr) : Expr := (.symbol (m.session.intern name).1 :: es).foldr (.pair 0) (.nil 0)
  let e := call "LIST" [call "PRINT" [.number 1], call "PRINT" [.string 0 "a", .number 2], call "CAR" [.number 5],
    call "PRINT" [.number 3]]
  let failure (p : Except Error Expr × World) : Option (Error × String) :=
    match p.1 with
    | .error err => some (err, p.2.sink.text)
    | .ok _ => none
  have hrun : (eval m.session 3 0 e (m.world.store.world (.buffer ""))).ending?.bind failure =
      some (.noParts "CAR" "5", "1 \n\"a\" 2 \n") := by decide +kernel
  obtain ⟨⟨r, w⟩, hend, -⟩ := Option.bind_eq_some_iff.mp hrun
  obtain ⟨-, hsome, -⟩ := eval_only_writes_sink m.session 0 e m.world.store
  obtain ⟨ps, s', hp, hopen, -⟩ := hsome 3 _ r w hend
  rw [hopen "", Option.bind_some] at hrun
  cases r with
  | ok v => cases hrun
  | error err =>
    obtain ⟨herr, htext⟩ := Prod.mk.inj (Option.some.inj hrun)
    subst herr
    refine ⟨e, ps, s', by decide +kernel, hp, ?_⟩
    simpa [Store.world, Sink.text] using htext

end Lisp
