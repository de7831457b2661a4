import Lisp.Proofs.DefiningForms
import Lisp.Proofs.LoopSteps
import Lisp.Proofs.ParameterMatching

namespace Lisp

namespace Expr

def bare : Expr → Expr
  | symbol x => .symbol x
  | number n => .number n
  | string _ text => .string 0 text
  | pair _ h t => .pair 0 h.bare t.bare
  | function _ params body scope => .function 0 params.bare body.bare scope

def listed (table : Nat) (es : List Expr) : Expr :=
  es.foldr (.pair 0) (.nil table)

theorem bare_symbol_iff {e : Expr} {x : Symbol} : e.bare = .symbol x ↔ e = .symbol x := by
  cases e <;> simp [bare]

theorem bare_number_iff {e : Expr} {n : Int64} : e.bare = .number n ↔ e = .number n := by
  cases e <;> simp [bare]

theorem symbol?_bare (e : Expr) : e.bare.symbol? = e.symbol? := by
  cases e <;> rfl

theorem bare_pair {e h t : Expr} (he : e.bare = .pair 0 h t) :
    ∃ i h' t', e = .pair i h' t' ∧ h'.bare = h ∧ t'.bare = t := by
  cases e with
  | pair i h' t' =>
    cases he
    exact ⟨i, h', t', rfl, rfl, rfl⟩
  | _ => cases he

theorem bare_function {f params body : Expr} {scope : ScopeId} (hf : f.bare = .function 0 params body scope) :
    ∃ i params' body', f = .function i params' body' scope ∧ params'.bare = params ∧ body'.bare = body := by
  cases f with
  | function i params' body' scope =>
    cases hf
    exact ⟨i, params', body', rfl, rfl, rfl⟩
  | _ => cases hf

theorem bare_listed {table : Nat} {es : List Expr} {e : Expr} (he : e.bare = listed table es) :
    ∃ es', e.toList? = some es' ∧ es'.map bare = es := by
  have key : e.terminator.isNil = true ∧ e.elements.map bare = es := by
    induction es generalizing e with
    | nil =>
      obtain rfl := bare_symbol_iff.mp he
      exact ⟨rfl, rfl⟩
    | cons c cs ih =>
      obtain ⟨i, h, t, rfl, rfl, ht⟩ := bare_pair he
      obtain ⟨hnil, helements⟩ := ih ht
      exact ⟨hnil, congrArg _ helements⟩
  refine ⟨e.elements, ?_, key.2⟩
  rw [toList?, if_pos key.1]

theorem bare_listed_two {table : Nat} {a b e : Expr} (he : e.bare = listed table [a, b]) :
    ∃ a' b', e.toList? = some [a', b'] ∧ a'.bare = a ∧ b'.bare = b := by
  obtain ⟨es, hlist, hes⟩ := bare_listed he
  obtain ⟨a', _, rfl, ha, hes⟩ := List.map_eq_cons_iff.mp hes
  obtain ⟨b', rfl, hb⟩ := List.map_eq_singleton_iff.mp hes
  exact ⟨a', b', hlist, ha, hb⟩

theorem bare_listed_cons {table : Nat} {c : Expr} {cs : List Expr} {e : Expr} (he : e.bare = listed table (c :: cs)) :
    ∃ i h t, e = .pair i h t ∧ h.bare = c ∧ t.bare = listed table cs :=
  bare_pair he

end Expr

namespace Scopes

def Extends (r r' : Scopes) : Prop :=
  ∀ (i : ScopeId) (f : Scope), r.all[i]? = some f → r'.all[i]? = some f

theorem Extends.trans {r r' r'' : Scopes} (h : r.Extends r') (h' : r'.Extends r'') : r.Extends r'' :=
  fun i f hf => h' i f (h i f hf)

theorem extends_enter (r : Scopes) (i : ScopeId) (bs : List (Symbol × Expr)) : r.Extends (r.enter i bs).2 := by
  intro j f hf
  obtain ⟨hj, -⟩ := Array.getElem?_eq_some_iff.mp hf
  rw [enter_kept r i bs hj, hf]

section Lookup

variable {r : Scopes} {i j : ScopeId} {f g : Scope}

theorem parent?_of_get (hi : r.all[i]? = some f) : r.parent? i = f.parent := by
  rw [parent?, hi, Option.bind_some]

theorem own?_of_get (hi : r.all[i]? = some f) (x : Symbol) : r.own? i x = f.get? x := by
  rw [own?, hi, Option.bind_some]

theorem probe_outermost (hi : r.all[i]? = some g) (hg : g.parent = none) (x : Symbol) : r.probe i x = g.get? x := by
  obtain ⟨hlt, -⟩ := Array.getElem?_eq_some_iff.mp hi
  obtain ⟨n, hn⟩ : ∃ n, r.all.size = n + 1 := ⟨r.all.size - 1, by omega⟩
  rw [probe, chain, hn, chainUpTo, parent?_of_get hi, hg, List.findSome?_singleton, own?_of_get hi]

theorem probe_inner (hi : r.all[i]? = some f) (hf : f.parent = some j) (hj : r.all[j]? = some g)
    (hg : g.parent = none) (x : Symbol) : r.probe i x = (f.get? x).or (g.get? x) := by
  obtain ⟨hilt, -⟩ := Array.getElem?_eq_some_iff.mp hi
  obtain ⟨hjlt, -⟩ := Array.getElem?_eq_some_iff.mp hj
  have hij : i ≠ j := by
    rintro rfl
    rw [hi] at hj
    cases hj
    rw [hf] at hg
    cases hg
  have hsize : 2 ≤ r.all.size := by
    rcases Nat.lt_or_gt_of_ne hij with h | h <;> omega
  obtain ⟨n, hn⟩ : ∃ n, r.all.size = n + 2 := ⟨r.all.size - 2, by omega⟩
  rw [probe, chain, hn, chainUpTo, parent?_of_get hi, hf]
  dsimp only
  rw [chainUpTo, parent?_of_get hj, hg, List.findSome?_cons, List.findSome?_singleton, own?_of_get hi, own?_of_get hj]
  cases f.get? x <;> rfl

theorem enter_one (r : Scopes) (i : ScopeId) (x : Symbol) (v : Expr) :
    ∃ f : Scope, (r.enter i [(x, v)]).2.all[r.all.size]? = some f ∧ f.parent = some i ∧ f.get? x = some v ∧
      ∀ y, y ≠ x → f.get? y = none := by
  have hparent := enter_parent r i [(x, v)]
  obtain ⟨f, hf, hfi⟩ := Option.bind_eq_some_iff.mp hparent
  refine ⟨f, hf, hfi, ?_, ?_⟩
  · rw [← own?_of_get hf]
    have hlast : [(x, v)] = [] ++ (x, v) :: [] := rfl
    exact enter_own_last hlast (by simp)
  · intro y hy
    rw [← own?_of_get hf]
    exact enter_own_of_notMem (by simpa using hy)

end Lookup

end Scopes

namespace Task

variable {session : Session} {i : ScopeId} {s s₁ s₂ : Store} {v : Expr}

/-- Whatever the identities in it, the code evaluates to the value without printing. -/
def Gives (session : Session) (i : ScopeId) (code : Expr) (s : Store) (v : Expr) (s' : Store) : Prop :=
  ∀ e : Expr, e.bare = code → (Task.eval i e).Performs session s [] (.ok v) s'

inductive GivesEach (session : Session) (i : ScopeId) : List Expr → Store → List Expr → Store → Prop
  | nil (s : Store) : GivesEach session i [] s [] s
  | cons {c v : Expr} {cs vs : List Expr} {s s₁ s₂ : Store} :
      Gives session i c s v s₁ → GivesEach session i cs s₁ vs s₂ → GivesEach session i (c :: cs) s (v :: vs) s₂

def Returns (session : Session) (f : Expr) (vs : List Expr) (s : Store) (v : Expr) (s' : Store) : Prop :=
  (Task.apply f vs).Performs session s [] (.ok v) s'

theorem quiet_next {t : Task} {e u : Expr} {next : Expr → Task} (h : t.move session s = .first i e next)
    (he : (Task.eval i e).Performs session s [] (.ok u) s₁) (hn : (next u).Performs session s₁ [] (.ok v) s₂) :
    t.Performs session s [] (.ok v) s₂ := by
  have hall := Performs.next h he hn
  rwa [List.append_nil] at hall

theorem gives_symbol {x : Symbol} (h : s.scopes.probe i x = some v) : Gives session i (.symbol x) s v s := by
  intro e he
  obtain rfl := Expr.bare_symbol_iff.mp he
  apply Performs.done
  rw [move, Move.eval, Scopes.resolve, h]

theorem gives_number (n : Int64) : Gives session i (.number n) s (.number n) s := by
  intro e he
  obtain rfl := Expr.bare_number_iff.mp he
  exact .done rfl

theorem GivesEach.performs {f : Expr} {cs us vs : List Expr} (h : GivesEach session i cs s us s₁)
    (hf : Returns session f (vs ++ us) s₁ v s₂) {es : List Expr} (hes : es.map Expr.bare = cs) :
    (Task.arguments i f vs es).Performs session s [] (.ok v) s₂ := by
  induction h generalizing vs es with
  | nil s =>
    obtain rfl := List.map_eq_nil_iff.mp hes
    rw [List.append_nil] at hf
    exact .become rfl hf
  | @cons c u cs us s s₁ s₂ hc _ ih =>
    obtain ⟨e, es, rfl, he, hes⟩ := List.map_eq_cons_iff.mp hes
    rw [← List.singleton_append, ← List.append_assoc] at hf
    exact quiet_next rfl (hc e he) (ih hf hes)

theorem gives_call {table : Nat} {x : Symbol} {f : Expr} {cs vs : List Expr} (hx : session.keyword? x = none)
    (hf : s.scopes.probe i x = some f) (hargs : GivesEach session i cs s vs s₁)
    (hreturns : Returns session f vs s₁ v s₂) : Gives session i (.listed table (.symbol x :: cs)) s v s₂ := by
  intro e he
  obtain ⟨j, head, tail, rfl, hhead, htail⟩ := Expr.bare_listed_cons he
  obtain rfl := Expr.bare_symbol_iff.mp hhead
  obtain ⟨es, hlist, hes⟩ := Expr.bare_listed htail
  have hcall : (Task.eval i (.pair j (.symbol x) tail)).move session s =
      .first i (.symbol x) (.operands i tail) := by
    simp [move, Move.eval, Expr.symbol?, hx]
  have hoperands : (Task.operands i tail f).move session s = .become (.arguments i f [] es) s := by
    rw [move, Move.operands, hlist]
  exact quiet_next hcall (gives_symbol hf _ rfl) (.become hoperands (hargs.performs hreturns hes))

theorem clauses_always {b clause rest : Expr} {j : Ident}
    (hclause : clause.bare = .listed session.symbols.id [.keyword .t session.symbols.id, b])
    (hv : Gives session i b s v s₁) : (Task.clauses i (.pair j clause rest)).Performs session s [] (.ok v) s₁ := by
  obtain ⟨t, b', hlist, ht, hb⟩ := Expr.bare_listed_two hclause
  obtain rfl := Expr.bare_symbol_iff.mp ht
  have hmove : (Task.clauses i (.pair j clause rest)).move session s = .become (.eval i b') s := by
    simp only [move, Move.clauses, hlist, Expr.symbol?, if_true]
  exact .become hmove (hv b' hb)

theorem gives_choice {test a b : Expr} {c : Bool} (htest : test.symbol? = none)
    (hc : Gives session i test s (.truth session.symbols.id c) s₁)
    (hv : Gives session i (if c then a else b) s₁ v s₂) :
    Gives session i (.listed session.symbols.id [.keyword .cond session.symbols.id,
      .listed session.symbols.id [test, a],
      .listed session.symbols.id [.keyword .t session.symbols.id, b]]) s v s₂ := by
  intro e he
  obtain ⟨j, head, tail, rfl, hhead, htail⟩ := Expr.bare_listed_cons he
  obtain rfl := Expr.bare_symbol_iff.mp hhead
  obtain ⟨k, clause, rest, rfl, hclause, hrest⟩ := Expr.bare_listed_cons htail
  obtain ⟨l, always, last, rfl, halways, -⟩ := Expr.bare_listed_cons hrest
  obtain ⟨test', a', hlist, htest', ha⟩ := Expr.bare_listed_two hclause
  have hform : (Task.eval i (.pair j (.symbol (Keyword.cond.symbol session.symbols.id))
      (.pair k clause (.pair l always last)))).move session s =
        .become (.clauses i (.pair k clause (.pair l always last))) s := by
    simp [move, Move.eval, Expr.symbol?, session.keyword?_symbol]
  have hnone : test'.symbol? ≠ some (Keyword.t.symbol session.symbols.id) := by
    rw [← Expr.symbol?_bare, htest', htest]
    exact (Option.some_ne_none _).symm
  have hfirst : (Task.clauses i (.pair k clause (.pair l always last))).move session s =
      .first i test' (.branch i a' (.pair l always last)) := by
    simp only [move, Move.clauses, hlist, if_neg hnone]
  refine .become hform (quiet_next hfirst (hc test' htest') ?_)
  cases c with
  | true => exact .become rfl (hv a' ha)
  | false => exact .become rfl (clauses_always halways hv)

theorem returns_primitive {x : Symbol} {p : Primitive} {vs : List Expr} (hx : session.primitive? x = some p)
    (hp : p ≠ .print) (h : p.result session.symbols.id vs s = (.ok v, s₁)) :
    Returns session (.symbol x) vs s v s₁ := by
  apply Performs.done
  rw [move, Move.apply, hx]
  cases p with
  | print => exact absurd rfl hp
  | _ =>
    dsimp only
    rw [h]

theorem returns_function {table : Nat} {f body a : Expr} {x : Symbol} {scope : ScopeId}
    (hf : f.bare = .function 0 (.listed table [.symbol x]) body scope)
    (hv : Gives session s.scopes.all.size body ⟨(s.scopes.enter scope [(x, a)]).2, s.next + 1⟩ v s₁) :
    Returns session f [a] s v s₁ := by
  obtain ⟨i, params, body', rfl, hparams, hbody⟩ := Expr.bare_function hf
  obtain ⟨j, head, tail, rfl, hhead, htail⟩ := Expr.bare_listed_cons hparams
  obtain rfl := Expr.bare_symbol_iff.mp hhead
  obtain rfl := Expr.bare_symbol_iff.mp htail
  exact .become rfl (hv body' hbody)

end Task

namespace Machine

variable {m m' : Machine} {v : Expr} {source : String}

def Evaluates (m : Machine) (source : String) (v : Expr) (m' : Machine) : Prop :=
  ∃ depth, ∀ depth', depth ≤ depth' → evaluateFirst depth' source m = .value v m'

theorem evaluate_of_performs {e : Expr} {ps : List (List Expr)} {s : Store}
    (h : (Task.eval m.session.global e).Performs m.session m.world.store ps (.ok v) s) :
    ∃ depth, ∀ depth', depth ≤ depth' →
      evaluate depth' e m = .value v ⟨m.session, s.world (m.world.sink.push (Primitive.lines ps))⟩ := by
  obtain ⟨depth, hdepth⟩ := h.run
  refine ⟨depth, ?_⟩
  intro depth' hle
  have heval : eval m.session depth' m.session.global e m.world =
      .value v (s.world (m.world.sink.push (Primitive.lines ps))) := (hdepth depth' hle).value m.world.sink
  rw [evaluate, within, Run.zoom, heval]

theorem evaluateFirst_of_reading {d : Datum} {offset : Nat} (h : Reading.first? source = some ⟨.ok d, offset⟩)
    (depth : Nat) : evaluateFirst depth source = realize d >>= evaluate depth := by
  rw [evaluateFirst, h]

theorem evaluates_of_performs {d : Datum} {offset : Nat} {e : Expr} {ps : List (List Expr)} {s : Store}
    (hread : Reading.first? source = some ⟨.ok d, offset⟩)
    (hreal : (realize d : Run Error Machine Expr) m = .value e m')
    (h : (Task.eval m'.session.global e).Performs m'.session m'.world.store ps (.ok v) s) :
    m.Evaluates source v ⟨m'.session, s.world (m'.world.sink.push (Primitive.lines ps))⟩ := by
  obtain ⟨depth, hdepth⟩ := evaluate_of_performs h
  refine ⟨depth, ?_⟩
  intro depth' hle
  rw [evaluateFirst_of_reading hread, Run.bind_value hreal, hdepth depth' hle]

theorem realize_withSink (d : Datum) (m : Machine) :
    ∃ e m₁, ∀ k, (realize d : Run Error Machine Expr) (m.withSink k) = .value e (withSink k m₁) := by
  let made := d.toExpr ⟨m.session.symbols, m.world.next⟩
  exact ⟨made.1, ⟨{ m.session with symbols := made.2.symbols }, { m.world with next := made.2.next }⟩, fun _ => rfl⟩

theorem evaluates_withSink {depth : Nat} (h : evaluateFirst depth source m = .value v m') (k : Sink) :
    ∃ k', (m.withSink k).Evaluates source v (m'.withSink k') := by
  cases hread : Reading.first? source with
  | none =>
    rw [evaluateFirst, hread] at h
    cases h
  | some r =>
    obtain ⟨r | d, offset⟩ := r
    · rw [evaluateFirst, hread] at h
      cases h
    · obtain ⟨e, m₁, hreal⟩ := realize_withSink d m
      have hself : (realize d : Run Error Machine Expr) m = .value e (m₁.withSink m.world.sink) := hreal m.world.sink
      rw [evaluateFirst_of_reading hread, Run.bind_value hself] at h
      rcases evaluate_utters depth e m₁ with hx | ⟨ps, r, s, hp, hu⟩
      · rw [hx] at h
        cases h
      · have hk := hu m.world.sink
        rw [Run.attempt, h] at hk
        cases hk
        have hevaluates := evaluates_of_performs hread (hreal k) hp
        exact ⟨k.push (Primitive.lines ps), hevaluates⟩

end Machine

end Lisp
