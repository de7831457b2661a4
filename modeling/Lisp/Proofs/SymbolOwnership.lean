import Lisp.Proofs.EvaluationInvariants
import Lisp.Proofs.ScopeStructure
import Lisp.Proofs.SymbolTables
import Lisp.Proofs.Termination

namespace Lisp

def Expr.Owned (t : SymbolTable) (e : Expr) : Prop :=
  ∀ x, e.Mentions x → t.Holds x

namespace Expr.Owned

variable {t t' : SymbolTable}

theorem mono (h : t.Extends t') {e : Expr} (he : e.Owned t) : e.Owned t' :=
  fun x hx => (he x hx).mono h

theorem symbol {x : Symbol} : (Expr.symbol x).Owned t ↔ t.Holds x := by
  constructor
  · intro h
    exact h x rfl
  · rintro h _ rfl
    exact h

theorem number (n : Int64) : (Expr.number n).Owned t :=
  fun _ => False.elim

theorem string (i : Ident) (text : String) : (Expr.string i text).Owned t :=
  fun _ => False.elim

theorem pair {i : Ident} {h tl : Expr} : (Expr.pair i h tl).Owned t ↔ h.Owned t ∧ tl.Owned t := by
  constructor
  · intro hp
    exact ⟨fun x hx => hp x (.inl hx), fun x hx => hp x (.inr hx)⟩
  · rintro ⟨hh, ht⟩ x (hx | hx)
    · exact hh x hx
    · exact ht x hx

theorem function {i : Ident} {params body : Expr} {scope : ScopeId} :
    (Expr.function i params body scope).Owned t ↔ params.Owned t ∧ body.Owned t := by
  constructor
  · intro hf
    exact ⟨fun x hx => hf x (.inl hx), fun x hx => hf x (.inr hx)⟩
  · rintro ⟨hp, hb⟩ x (hx | hx)
    · exact hp x hx
    · exact hb x hx

end Expr.Owned

def Scopes.Owned (t : SymbolTable) (r : Scopes) : Prop :=
  ∀ (i : ScopeId) (f : Scope), r.all[i]? = some f → ∀ b ∈ f.bindings, t.Holds b.1 ∧ b.2.Owned t

namespace Scopes.Owned

variable {t t' : SymbolTable} {r : Scopes}

theorem mono (h : t.Extends t') (hr : r.Owned t) : r.Owned t' := by
  intro i f hf b hb
  obtain ⟨hx, hv⟩ := hr i f hf b hb
  exact ⟨hx.mono h, hv.mono h⟩

theorem define (hr : r.Owned t) {x : Symbol} {v : Expr} (hx : t.Holds x) (hv : v.Owned t) (i : ScopeId) :
    (r.define i x v).Owned t :=
  Every.define hr ⟨hx, hv⟩ i

theorem create (hr : r.Owned t) (parent : Option ScopeId) : (r.create parent).2.Owned t :=
  Every.create hr parent

theorem probe (hr : r.Owned t) {i : ScopeId} {x : Symbol} {v : Expr} (hv : r.probe i x = some v) : v.Owned t :=
  (Every.probe hr hv).2

end Scopes.Owned

def Invariant.owned (t : SymbolTable) (ht : t.Reachable) : Invariant t.id where
  State := Scopes.Owned t
  Later _ _ := True
  Place _ _ := True
  Code _ e := e.Owned t
  Data _ e := e.Owned t
  later_refl _ := trivial
  later_trans _ _ := trivial
  later_place _ := id
  later_code _ := id
  later_data _ := id
  code_data := id
  code_pair := Expr.Owned.pair.mp
  data_pair := Expr.Owned.pair
  data_function := by
    intro r i params body scope
    rw [Expr.Owned.function]
    exact ⟨fun h => ⟨trivial, h⟩, And.right⟩
  data_keyword _ k := Expr.Owned.symbol.mpr (ht.holds_keyword k)
  data_number _ := Expr.Owned.number
  data_string _ := Expr.Owned.string
  probe hr _ := hr.probe
  holder _ _ _ := trivial
  define hr _ hx hv := ⟨hr.define (Expr.Owned.symbol.mp hx) hv _, trivial⟩
  create hr _ := ⟨hr.create _, trivial, trivial⟩

namespace Session

structure Proper (s : Session) : Prop where
  symbols : s.symbols.Reachable
  held : ∀ b ∈ s.primitives, s.symbols.Holds b.1
  named : s.primitives.map (fun b => (b.1.name, b.2)) = Primitive.names

theorem Proper.primitive? {s : Session} (hs : s.Proper) {x : Symbol} (hx : s.symbols.Holds x) :
    s.primitive? x = Primitive.names.lookup x.name := by
  rw [Session.primitive?, ← hs.named]
  have held := hs.held
  generalize s.primitives = ps at held
  induction ps with
  | nil => rfl
  | cons b ps ih =>
    obtain ⟨y, p⟩ := b
    have hy : s.symbols.Holds y := held (y, p) (by simp)
    have hsame : (x == y) = (x.name == y.name) := by
      rw [Bool.eq_iff_iff, beq_iff_eq, beq_iff_eq]
      exact ⟨congrArg Symbol.name, hx.eq_of_name hy⟩
    rw [List.map_cons, List.lookup_cons, List.lookup_cons, hsame, ih (fun c hc => held c (by simp [hc]))]

theorem enrol_fold {entries : List (String × Primitive)} (hup : ∀ entry ∈ entries, Text.upcase entry.1 = entry.1)
    {s : Session} (hr : s.symbols.Reachable) (hheld : ∀ b ∈ s.primitives, s.symbols.Holds b.1) :
    (entries.foldl enrol s).symbols.Reachable ∧
      (∀ b ∈ (entries.foldl enrol s).primitives, (entries.foldl enrol s).symbols.Holds b.1) ∧
      (entries.foldl enrol s).primitives.map (fun b => (b.1.name, b.2)) =
        s.primitives.map (fun b => (b.1.name, b.2)) ++ entries := by
  induction entries generalizing s with
  | nil => exact ⟨hr, hheld, by simp⟩
  | cons entry entries ih =>
    have hname : (s.symbols.intern entry.1).1.name = entry.1 := hup entry (by simp)
    have held' : ∀ b ∈ (s.enrol entry).primitives, (s.enrol entry).symbols.Holds b.1 := by
      intro b hb
      rcases List.mem_append.mp hb with hb | hb
      · exact (hheld b hb).mono (SymbolTable.extends_intern _ _)
      · obtain rfl := List.mem_singleton.mp hb
        exact SymbolTable.holds_intern _ _
    obtain ⟨hr', hh', hn'⟩ := ih (fun e he => hup e (by simp [he])) (s := s.enrol entry) (hr.intern entry.1) held'
    refine ⟨hr', hh', ?_⟩
    rw [List.foldl_cons, hn']
    simp [enrol, hname]

theorem initial_proper (id : Nat) (global : ScopeId) : (initial id global).Proper := by
  have hup : ∀ entry ∈ Primitive.names, Text.upcase entry.1 = entry.1 := by decide +kernel
  obtain ⟨hr, hh, hn⟩ := enrol_fold hup (s := ⟨.initial id, [], global⟩) (.initial id) (by simp)
  exact ⟨hr, hh, hn⟩

theorem Proper.holds_constants {s : Session} (hs : s.Proper) : ∀ x ∈ s.constants, s.symbols.Holds x := by
  intro x hx
  simp only [constants, List.cons_append, List.nil_append, List.mem_cons, List.mem_map] at hx
  rcases hx with rfl | rfl | ⟨b, hb, rfl⟩
  · exact hs.symbols.holds_keyword .nil
  · exact hs.symbols.holds_keyword .t
  · exact hs.held b hb

end Session

namespace Machine

structure Owned (m : Machine) : Prop where
  session : m.session.Proper
  scopes : m.world.scopes.Owned m.session.symbols

theorem start_owned (sink : Sink) : (start sink).Owned := by
  have hs : (start sink).session.Proper := Session.initial_proper 0 0
  refine ⟨hs, ?_⟩
  let I := Invariant.owned (start sink).session.symbols hs.symbols
  have hempty : Scopes.empty.Owned (start sink).session.symbols := by
    intro i f hf
    simp [Scopes.empty] at hf
  have hconstants : ∀ b ∈ (start sink).session.constants.map (fun x => (x, Expr.symbol x)),
      I.Code (Scopes.empty.create none).2 (.symbol b.1) ∧ I.Data (Scopes.empty.create none).2 b.2 := by
    intro b hb
    obtain ⟨x, hx, rfl⟩ := List.mem_map.mp hb
    have hx := Expr.Owned.symbol.mpr (hs.holds_constants x hx)
    exact ⟨hx, hx⟩
  have hd := I.defineAll (i := 0) (hempty.create none) trivial hconstants
  have hscopes : (start sink).world.scopes = _ := join_scopes 0 (.initial sink)
  rw [hscopes]
  exact hd.1

end Machine

theorem Datum.toExpr_owned (d : Datum) (s : Supply) (hs : s.symbols.Reachable) :
    (d.toExpr s).2.symbols.Reachable ∧ s.symbols.Extends (d.toExpr s).2.symbols ∧
      (d.toExpr s).1.Owned (d.toExpr s).2.symbols := by
  have bind_apply (x : StateM Supply Expr) (f : Expr → StateM Supply Expr) (s : Supply) :
      (x >>= f) s = f (x s).1 (x s).2 := rfl
  induction d generalizing s with
  | literal text =>
    rw [toExpr, literalExpr]
    cases Decimal.toInt64? text.toList with
    | some n => exact ⟨hs, .refl _, .number n⟩
    | none =>
      refine ⟨hs.intern text, SymbolTable.extends_intern _ _, ?_⟩
      exact Expr.Owned.symbol.mpr (SymbolTable.holds_intern _ _)
  | string text => exact ⟨hs, .refl _, .string _ _⟩
  | nil => exact ⟨hs, .refl _, Expr.Owned.symbol.mpr (hs.holds_keyword .nil)⟩
  | quoted d ih =>
    obtain ⟨hr, hx, he⟩ := ih s hs
    have hnil := Expr.Owned.symbol.mpr (hr.holds_keyword .nil)
    have hquote := Expr.Owned.symbol.mpr (hr.holds_keyword .quote)
    exact ⟨hr, hx, Expr.Owned.pair.mpr ⟨hquote, Expr.Owned.pair.mpr ⟨he, hnil⟩⟩⟩
  | pair h t ihh iht =>
    obtain ⟨hr, hx, hh⟩ := ihh s hs
    obtain ⟨hr', hx', ht⟩ := iht _ hr
    exact ⟨hr', hx.trans hx', Expr.Owned.pair.mpr ⟨hh.mono hx', ht⟩⟩

end Lisp
