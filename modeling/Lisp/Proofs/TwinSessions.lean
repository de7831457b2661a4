import Lisp.Proofs.ReadingLoops
import Lisp.Proofs.ScopeStructure
import Lisp.Proofs.TwinEvaluation

namespace Lisp

variable {R : ScopeId → Prop} {base : Nat} {L L' : Link}

theorem Link.withIdents_mono {n k : Nat} (i j : Ident) (h : n ≤ k) : (L.withIdents n i j).Le (L.withIdents k i j) := by
  refine ⟨rfl, rfl, ?_, id⟩
  rintro a b (hab | ⟨l, hl, rfl, rfl⟩)
  · exact .inl hab
  · exact .inr ⟨l, Nat.lt_of_lt_of_le hl h, rfl, rfl⟩

theorem Link.withIdents_shift {n m k : Nat} (i j : Ident) (h : n + m ≤ k) :
    (L.withIdents m (i + n) (j + n)).Le (L.withIdents k i j) := by
  refine ⟨rfl, rfl, ?_, id⟩
  rintro a b (hab | ⟨l, hl, rfl, rfl⟩)
  · exact .inl hab
  · exact .inr ⟨n + l, by omega, Nat.add_assoc _ _ _, Nat.add_assoc _ _ _⟩

theorem Link.withIdents_add {n k : Nat} {i j : Ident} (h : k < n) : (L.withIdents n i j).idents (i + k) (j + k) :=
  .inr ⟨k, h, rfl, rfl⟩

structure SymbolTable.Twin (L : Link) (t₁ t₂ : SymbolTable) : Prop where
  left : t₁.id = L.left
  right : t₂.id = L.right
  names : t₂.names = t₁.names

namespace SymbolTable.Twin

variable {t₁ t₂ : SymbolTable}

theorem intern (h : t₁.Twin L t₂) (raw : String) :
    (t₁.intern raw).1.Twin L (t₂.intern raw).1 ∧ (t₁.intern raw).2.Twin L (t₂.intern raw).2 := by
  simp only [SymbolTable.intern, h.names]
  refine ⟨⟨h.left, h.right, rfl, rfl⟩, ?_⟩
  split
  · exact h
  · exact ⟨h.left, h.right, rfl⟩

end SymbolTable.Twin

namespace Datum

theorem toExpr_quoted (d : Datum) (s : Supply) : (quoted d).toExpr s =
    (.pair ((d.toExpr s).2.next + 1) (.keyword .quote (d.toExpr s).2.symbols.id)
      (.pair (d.toExpr s).2.next (d.toExpr s).1 (.nil (d.toExpr s).2.symbols.id)),
      ⟨(d.toExpr s).2.symbols, (d.toExpr s).2.next + 2⟩) :=
  rfl

theorem toExpr_pair (h t : Datum) (s : Supply) : (pair h t).toExpr s =
    (.pair (t.toExpr (h.toExpr s).2).2.next (h.toExpr s).1 (t.toExpr (h.toExpr s).2).1,
      ⟨(t.toExpr (h.toExpr s).2).2.symbols, (t.toExpr (h.toExpr s).2).2.next + 1⟩) :=
  rfl

theorem toExpr_twin (d : Datum) {s₁ s₂ : Supply} (h : s₁.symbols.Twin L s₂.symbols) :
    ∃ n, (d.toExpr s₁).2.next = s₁.next + n ∧ (d.toExpr s₂).2.next = s₂.next + n ∧
      (d.toExpr s₁).2.symbols.Twin L (d.toExpr s₂).2.symbols ∧
      (d.toExpr s₁).1.Twin (L.withIdents n s₁.next s₂.next) (d.toExpr s₂).1 := by
  have keyword {t₁ t₂ : SymbolTable} (ht : t₁.Twin L t₂) (k : Keyword) (n : Nat) (i j : Ident) :
      (Expr.keyword k t₁.id).Twin (L.withIdents n i j) (.keyword k t₂.id) := by
    rw [ht.left, ht.right]
    exact (Expr.Twin.keyword L k).mono (L.le_withIdents n i j)
  induction d generalizing s₁ s₂ with
  | literal text =>
    rw [toExpr, literalExpr, literalExpr]
    cases Decimal.toInt64? text.toList with
    | some n => exact ⟨0, rfl, rfl, h, .number n⟩
    | none =>
      obtain ⟨hx, ht⟩ := h.intern text
      exact ⟨0, rfl, rfl, ht, .symbol (hx.mono (L.le_withIdents _ _ _))⟩
  | string text => exact ⟨1, rfl, rfl, h, .string (Link.withIdents_add Nat.one_pos) text⟩
  | nil => exact ⟨0, rfl, rfl, h, keyword h .nil _ _ _⟩
  | quoted d ih =>
    obtain ⟨n, hn₁, hn₂, ht, he⟩ := ih h
    have he' := he.mono (Link.withIdents_mono s₁.next s₂.next (Nat.le_add_right n 2))
    rw [toExpr_quoted, toExpr_quoted, hn₁, hn₂]
    refine ⟨n + 2, Nat.add_assoc _ _ _, Nat.add_assoc _ _ _, ht, ?_⟩
    apply Expr.Twin.pair (Link.withIdents_add (Nat.lt_succ_self (n + 1))) (keyword ht .quote _ _ _)
    exact .pair (Link.withIdents_add (Nat.lt_add_of_pos_right Nat.two_pos)) he' (keyword ht .nil _ _ _)
  | pair hd tl ihh iht =>
    -- The objects of the tail are numbered after those of the head, and the pair itself comes last.
    obtain ⟨n, hn₁, hn₂, ht, hh⟩ := ihh h
    obtain ⟨m, hm₁, hm₂, ht', htl⟩ := iht ht
    rw [hn₁] at hm₁
    rw [hn₂] at hm₂
    rw [hn₁, hn₂] at htl
    have hh' := hh.mono (Link.withIdents_mono s₁.next s₂.next (Nat.le_add_right n (m + 1)))
    have htl' := htl.mono (Link.withIdents_shift s₁.next s₂.next (Nat.add_le_add_left (Nat.le_add_right m 1) n))
    rw [toExpr_pair, toExpr_pair, hm₁, hm₂]
    refine ⟨n + (m + 1), by simp only [Nat.add_assoc], by simp only [Nat.add_assoc], ht', ?_⟩
    rw [Nat.add_assoc s₁.next, Nat.add_assoc s₂.next]
    exact .pair (Link.withIdents_add (Nat.add_lt_add_left (Nat.lt_succ_self m) n)) hh' htl'

end Datum

namespace Machine

variable {m₁ m₂ m₁' m₂' : Machine} {α β γ δ : Type}

structure Twin (R : ScopeId → Prop) (base : Nat) (L : Link) (m₁ m₂ : Machine) : Prop where
  session : m₁.session.Twin L m₂.session
  world : World.Twin R base L m₁.world m₂.world

structure Advance (R : ScopeId → Prop) (base : Nat) (L : Link) (m₁ m₂ : Machine) (L' : Link) (m₁' m₂' : Machine) :
    Prop where
  session : m₁'.session.Twin L' m₂'.session
  world : World.Advance R base L m₁.world m₂.world L' m₁'.world m₂'.world

def Abreast (R : ScopeId → Prop) (base : Nat) (L : Link) (P : Link → α → β → Prop) (x : Run Error Machine α)
    (y : Run Error Machine β) (m₁ m₂ : Machine) : Prop :=
  Run.Abreast (Advance R base L m₁ m₂) P x y m₁ m₂

theorem Twin.advance (h : Twin R base L m₁ m₂) : Advance R base L m₁ m₂ L m₁ m₂ :=
  ⟨h.session, h.world.advance⟩

theorem Advance.twin (h : Advance R base L m₁ m₂ L' m₁' m₂') : Twin R base L' m₁' m₂' :=
  ⟨h.session, h.world.twin⟩

namespace Abreast

variable {P : Link → α → β → Prop} {Q : Link → γ → δ → Prop}

theorem pure {a : α} {b : β} (h : Twin R base L m₁ m₂) (hab : P L a b) :
    Abreast R base L P (Pure.pure a) (Pure.pure b) m₁ m₂ :=
  .value rfl rfl h.advance hab

theorem throw (h : Twin R base L m₁ m₂) (e : Error) : Abreast R base L P (Run.throw e) (Run.throw e) m₁ m₂ :=
  .error rfl rfl h.advance

theorem bind {x : Run Error Machine α} {y : Run Error Machine β} {f : α → Run Error Machine γ}
    {g : β → Run Error Machine δ} (hx : Abreast R base L P x y m₁ m₂)
    (hf : ∀ L' a b m₁' m₂', L.Le L' → Twin R base L' m₁' m₂' → P L' a b → Abreast R base L' Q (f a) (g b) m₁' m₂') :
    Abreast R base L Q (x >>= f) (y >>= g) m₁ m₂ := by
  apply Run.Abreast.bind hx
  intro L' a b m₁' m₂' h hab
  apply (hf L' a b m₁' m₂' h.world.le h.twin hab).mono
  intro L'' m₁'' m₂'' h'
  exact ⟨h'.session, h.world.trans h'.world⟩

theorem realize (h : Twin R base L m₁ m₂) (d : Datum) :
    Abreast R base L Expr.Twin (Machine.realize d) (Machine.realize d) m₁ m₂ := by
  let s₁ : Supply := ⟨m₁.session.symbols, m₁.world.next⟩
  let s₂ : Supply := ⟨m₂.session.symbols, m₂.world.next⟩
  have hsymbols : s₁.symbols.Twin L s₂.symbols := ⟨h.session.left, h.session.right, h.session.names⟩
  obtain ⟨n, hn₁, hn₂, ht, he⟩ := d.toExpr_twin hsymbols
  have hle := L.le_withIdents n m₁.world.next m₂.world.next
  have hs := h.session.mono hle
  have hrun (m : Machine) : (Machine.realize d : Run Error Machine Expr) m =
      .value (d.toExpr ⟨m.session.symbols, m.world.next⟩).1
        ⟨{ m.session with symbols := (d.toExpr ⟨m.session.symbols, m.world.next⟩).2.symbols },
          { m.world with next := (d.toExpr ⟨m.session.symbols, m.world.next⟩).2.next }⟩ := rfl
  have hrun₁ := hrun m₁
  have hrun₂ := hrun m₂
  rw [hn₁] at hrun₁
  rw [hn₂] at hrun₂
  have hworld : World.Advance R base L m₁.world m₂.world (L.withIdents n m₁.world.next m₂.world.next) _ _ :=
    (h.world.allot n).silent hle (.refl _) (Nat.le_add_right m₁.world.next n) rfl rfl
  have hsession : Session.Twin (L.withIdents n m₁.world.next m₂.world.next)
      { m₁.session with symbols := (d.toExpr s₁).2.symbols } { m₂.session with symbols := (d.toExpr s₂).2.symbols } :=
    ⟨ht.left, ht.right, ht.names, hs.primitives, hs.global⟩
  exact .value hrun₁ hrun₂ ⟨hsession, hworld⟩ he

theorem within {act act' : Session → Run Error World α} (hs : m₁.session.Twin L m₂.session)
    {P : Link → α → α → Prop} (hw : World.Abreast R base L P (act m₁.session) (act' m₂.session) m₁.world m₂.world) :
    Abreast R base L P (Machine.within act) (Machine.within act') m₁ m₂ := by
  cases hw with
  | @value L' a b w₁ w₂ h₁ h₂ hw hab =>
    have hrun₁ : Machine.within act m₁ = .value a { m₁ with world := w₁ } := by rw [Machine.within, Run.zoom, h₁]
    have hrun₂ : Machine.within act' m₂ = .value b { m₂ with world := w₂ } := by rw [Machine.within, Run.zoom, h₂]
    exact .value hrun₁ hrun₂ ⟨hs.mono hw.le, hw⟩ hab
  | @error L' e w₁ w₂ h₁ h₂ hw =>
    have hrun₁ : Machine.within act m₁ = .error e { m₁ with world := w₁ } := by rw [Machine.within, Run.zoom, h₁]
    have hrun₂ : Machine.within act' m₂ = .error e { m₂ with world := w₂ } := by rw [Machine.within, Run.zoom, h₂]
    exact .error hrun₁ hrun₂ ⟨hs.mono hw.le, hw⟩
  | exhausted h₁ h₂ =>
    exact .exhausted (by rw [Machine.within, Run.zoom, h₁]) (by rw [Machine.within, Run.zoom, h₂])

theorem evaluate (h : Twin R base L m₁ m₂) (depth : Nat) {e e' : Expr} (he : e.Twin L e') :
    Abreast R base L Expr.Twin (Machine.evaluate depth e) (Machine.evaluate depth e') m₁ m₂ := by
  apply within h.session
  exact eval_matching R base m₁.session m₂.session depth L m₁.world m₂.world _ _ e e' h.session h.world
    h.session.global he

theorem evaluateDatum (h : Twin R base L m₁ m₂) (depth : Nat) (d : Datum) :
    Abreast R base L Expr.Twin (Machine.realize d >>= Machine.evaluate depth)
      (Machine.realize d >>= Machine.evaluate depth) m₁ m₂ := by
  apply (realize h d).bind
  intro L' e e' m₁' m₂' _ h' he
  exact evaluate h' depth he

theorem evaluateReadings (h : Twin R base L m₁ m₂) (depth : Nat) (rs : List Reading) :
    Abreast R base L (fun L => List.Forall₂ (Expr.Twin L)) (Machine.evaluateReadings depth rs)
      (Machine.evaluateReadings depth rs) m₁ m₂ := by
  induction rs generalizing L m₁ m₂ with
  | nil => exact .pure h .nil
  | cons r rs ih =>
    obtain ⟨e | d, offset⟩ := r
    · exact .throw h _
    · rw [evaluateReadings_cons]
      apply (evaluateDatum h depth d).bind
      intro L' v u m₁' m₂' _ h' hv
      apply (ih h').bind
      intro L'' vs us m₁'' m₂'' hL h'' hvs
      exact .pure h'' (.cons (hv.mono hL) hvs)

theorem evaluateFirst (h : Twin R base L m₁ m₂) (depth : Nat) (source : String) :
    Abreast R base L Expr.Twin (Machine.evaluateFirst depth source) (Machine.evaluateFirst depth source) m₁ m₂ := by
  rw [Machine.evaluateFirst]
  split
  · exact .throw h _
  · exact .throw h _
  · exact evaluateDatum h depth _

end Abreast

end Machine

namespace Session

theorem Twin.enrol {s₁ s₂ : Session} (h : s₁.Twin L s₂) (entry : String × Primitive) :
    (s₁.enrol entry).Twin L (s₂.enrol entry) := by
  have hsymbols : s₁.symbols.Twin L s₂.symbols := ⟨h.left, h.right, h.names⟩
  obtain ⟨hx, ht⟩ := hsymbols.intern entry.1
  refine ⟨ht.left, ht.right, ht.names, ?_, h.global⟩
  exact List.rel_append h.primitives (.cons ⟨hx, rfl⟩ .nil)

theorem initial_twin {i j : ScopeId} (hi : L.scopes i j) : (initial L.left i).Twin L (initial L.right j) := by
  have hstart : Twin L ⟨.initial L.left, [], i⟩ ⟨.initial L.right, [], j⟩ := ⟨rfl, rfl, rfl, .nil, hi⟩
  rw [initial, initial]
  generalize Primitive.names = entries
  generalize (⟨.initial L.left, [], i⟩ : Session) = s₁ at hstart ⊢
  generalize (⟨.initial L.right, [], j⟩ : Session) = s₂ at hstart ⊢
  induction entries generalizing s₁ s₂ with
  | nil => exact hstart
  | cons entry entries ih => exact ih _ _ (hstart.enrol entry)

theorem Twin.constants {s₁ s₂ : Session} (h : s₁.Twin L s₂) :
    List.Forall₂ (TwinBinding L) (s₁.constants.map (fun x => (x, .symbol x)))
      (s₂.constants.map (fun x => (x, .symbol x))) := by
  have hsymbols : List.Forall₂ (Symbol.Twin L) s₁.constants s₂.constants := by
    apply List.Forall₂.cons (h.keyword .nil)
    apply List.Forall₂.cons (h.keyword .t)
    exact List.forall₂_map_left_iff.mpr (List.forall₂_map_right_iff.mpr (h.primitives.imp fun _ _ hb => hb.1))
  apply List.forall₂_map_left_iff.mpr
  apply List.forall₂_map_right_iff.mpr
  exact hsymbols.imp fun _ _ hx => ⟨hx, .symbol hx⟩

end Session

namespace Machine

def newborn (id : Nat) (global : ScopeId) : Link :=
  Link.withScope ⟨id, 0, fun _ _ => False, fun _ _ => False⟩ global 0

theorem join_spared (id : Nat) (w : World) : w.scopes.Spared R w.scopes.all.size (join id w).world.scopes := by
  rw [join_scopes]
  have hnew : (w.scopes.create none).2.Region R w.scopes.all.size w.scopes.all.size :=
    Scopes.create_region (Nat.le_refl _) none
  exact (Scopes.Spared.create (Nat.le_refl _) none).trans (.defineAll hnew _)

theorem join_twin (id : Nat) (w : World) (sink : Sink) :
    Twin R w.scopes.all.size (newborn id w.scopes.all.size) (join id w) (start sink) := by
  let L : Link := ⟨id, 0, fun _ _ => False, fun _ _ => False⟩
  have hempty : w.scopes.Twin L Scopes.empty := ⟨⟨fun _ _ _ h => h.elim, fun _ _ _ h => h.elim⟩, False.elim⟩
  have hsession : (join id w).session.Twin (newborn id w.scopes.all.size) (start sink).session :=
    Session.initial_twin (L.withScope_new w.scopes.all.size 0)
  have hscopes := (hempty.create .none).defineAll (L.withScope_new _ _) hsession.constants
  refine ⟨hsession, ?_, ⟨fun _ _ _ h => h.elim, fun _ _ _ h => h.elim⟩, False.elim, ?_, ?_⟩
  · have hright := join_scopes 0 (.initial sink)
    rw [join_scopes, start, hright]
    exact hscopes
  · exact (join_spared (R := R) id w).grows
  · intro i j hij
    rcases Link.withScope_cases hij with h | ⟨rfl, rfl⟩
    · exact h.elim
    · exact .inr (Nat.le_refl _)

end Machine

end Lisp
