import Lisp.Symbol

namespace Lisp.SymbolTable

inductive Reachable : SymbolTable → Prop where
  | initial (id : Nat) : Reachable (.initial id)
  | intern {t : SymbolTable} (h : Reachable t) (raw : String) : Reachable (t.intern raw).2

def Holds (t : SymbolTable) (x : Symbol) : Prop :=
  x.name ∈ t.names ∧ x = ⟨t.id, t.names.idxOf x.name, x.name⟩

theorem intern_names (t : SymbolTable) (raw : String) : t.names <+: (t.intern raw).2.names := by
  simp only [intern]
  split
  · exact List.prefix_rfl
  · exact List.prefix_append _ _

theorem Reachable.keywords {t : SymbolTable} (h : t.Reachable) : Keyword.all.map Keyword.name <+: t.names := by
  induction h with
  | initial id => exact List.prefix_rfl
  | intern h raw ih => exact ih.trans (intern_names _ raw)

theorem Reachable.holds_nil {t : SymbolTable} (h : t.Reachable) : t.Holds (Keyword.nil.symbol t.id) := by
  obtain ⟨more, hm⟩ := h.keywords
  have hn : t.names = Keyword.nil.name :: ((Keyword.all.map Keyword.name).tail ++ more) := hm.symm
  refine ⟨by rw [hn]; exact List.mem_cons_self, ?_⟩
  rw [hn]
  simp [Keyword.symbol, Keyword.index]

theorem Holds.eq_of_name {t : SymbolTable} {x y : Symbol} (hx : t.Holds x) (hy : t.Holds y)
    (h : x.name = y.name) : x = y := by
  rw [hx.2, hy.2, h]

theorem Holds.intern {t : SymbolTable} {x : Symbol} (h : t.Holds x) (hu : Text.upcase x.name = x.name) :
    t.intern x.name = (x, t) := by
  simp only [SymbolTable.intern, hu, if_pos h.1]
  rw [← h.2]

def Extends (t t' : SymbolTable) : Prop :=
  t'.id = t.id ∧ t.names <+: t'.names

theorem Extends.refl (t : SymbolTable) : Extends t t :=
  ⟨rfl, List.prefix_rfl⟩

theorem Extends.trans {t t' t'' : SymbolTable} (h : Extends t t') (h' : Extends t' t'') : Extends t t'' :=
  ⟨h'.1.trans h.1, h.2.trans h'.2⟩

theorem extends_intern (t : SymbolTable) (raw : String) : t.Extends (t.intern raw).2 := by
  refine ⟨?_, intern_names t raw⟩
  simp only [intern]
  split <;> rfl

theorem Holds.mono {t t' : SymbolTable} (h : t.Extends t') {x : Symbol} (hx : t.Holds x) : t'.Holds x := by
  obtain ⟨hid, more, hnames⟩ := h
  obtain ⟨hmem, heq⟩ := hx
  have hidx : t'.names.idxOf x.name = t.names.idxOf x.name := by
    rw [← hnames, List.idxOf_append, if_pos hmem]
  refine ⟨by rw [← hnames]; exact List.mem_append_left more hmem, ?_⟩
  rw [hid, hidx]
  exact heq

theorem holds_intern (t : SymbolTable) (raw : String) : (t.intern raw).2.Holds (t.intern raw).1 := by
  simp only [intern]
  by_cases hmem : Text.upcase raw ∈ t.names
  · rw [if_pos hmem]
    exact ⟨hmem, rfl⟩
  · rw [if_neg hmem]
    refine ⟨by simp, ?_⟩
    have hidx : (t.names ++ [Text.upcase raw]).idxOf (Text.upcase raw) = t.names.length := by
      rw [List.idxOf_append, if_neg hmem, List.idxOf_cons_self, Nat.zero_add]
    rw [hidx, List.idxOf_eq_length hmem]

theorem Reachable.holds_keyword {t : SymbolTable} (h : t.Reachable) (k : Keyword) : t.Holds (k.symbol t.id) := by
  obtain ⟨more, hm⟩ := h.keywords
  have hk : k.name ∈ Keyword.all.map Keyword.name := by cases k <;> decide
  have hidx : (Keyword.all.map Keyword.name).idxOf k.name = k.index := by cases k <;> decide
  refine ⟨by rw [← hm]; exact List.mem_append_left more hk, ?_⟩
  have hname : (k.symbol t.id).name = k.name := rfl
  rw [hname, ← hm, List.idxOf_append, if_pos hk, hidx]
  rfl

theorem Holds.eq_keyword_iff {t : SymbolTable} (ht : t.Reachable) {x : Symbol} (hx : t.Holds x) (k : Keyword) :
    x = k.symbol t.id ↔ x.name = k.name := by
  constructor
  · rintro rfl
    rfl
  · intro hname
    exact hx.eq_of_name (ht.holds_keyword k) hname

theorem Holds.keyword?_eq_some_iff {t : SymbolTable} (ht : t.Reachable) {x : Symbol} (hx : t.Holds x) (k : Keyword) :
    t.keyword? x = some k ↔ x.name = k.name := by
  rw [← hx.eq_keyword_iff ht]
  constructor
  · intro h
    have hk : k.symbol t.id = x := by simpa using List.find?_some h
    exact hk.symm
  · rintro rfl
    cases k <;> simp [keyword?, Keyword.all, Keyword.symbol, Keyword.index]

theorem Holds.isNil_iff {t : SymbolTable} (ht : t.Reachable) {x : Symbol} (hx : t.Holds x) :
    x.isNil = true ↔ x = Keyword.nil.symbol t.id := by
  rw [hx.eq_keyword_iff ht, Symbol.isNil, beq_iff_eq]

end Lisp.SymbolTable
