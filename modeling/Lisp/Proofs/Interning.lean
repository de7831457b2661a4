import Lisp.Proofs.SymbolTables
import Lisp.Proofs.UppercaseForms
import Mathlib.Data.Finset.Dedup
import Mathlib.Data.Set.Card

namespace Lisp

structure Interned where
  table : Nat
  raw : String
  symbol : Symbol

namespace SymbolTable

/-- The tables that come about when tables are made and names interned in any order, with a record
of all symbols handed out. -/
inductive History : List SymbolTable → List Interned → Prop where
  | start : History [] []
  | new {ts : List SymbolTable} {log : List Interned} (h : History ts log) :
    History (ts ++ [.initial ts.length]) log
  | intern {ts : List SymbolTable} {log : List Interned} (h : History ts log) {k : Nat} {t : SymbolTable}
    (hk : ts[k]? = some t) (raw : String) :
    History (ts.set k (t.intern raw).2) (log ++ [⟨k, raw, (t.intern raw).1⟩])

variable {t : SymbolTable} {log : List Interned} {k : Nat}

theorem Reachable.nodup (h : t.Reachable) : t.names.Nodup := by
  induction h with
  | initial id => exact (by decide : (Keyword.all.map Keyword.name).Nodup)
  | @intern t _ raw ih =>
    simp only [SymbolTable.intern]
    split_ifs with hmem
    · exact ih
    · exact ih.append (List.nodup_singleton _) (by simpa using hmem)

theorem Reachable.upcase_eq (h : t.Reachable) : ∀ name ∈ t.names, Text.upcase name = name := by
  induction h with
  | initial id =>
    exact (by decide +kernel : ∀ name ∈ Keyword.all.map Keyword.name, Text.upcase name = name)
  | @intern t _ raw ih =>
    intro name hname
    simp only [SymbolTable.intern] at hname
    split_ifs at hname with hmem
    · exact ih name hname
    · obtain hname | hname := List.mem_append.mp hname
      · exact ih name hname
      · rw [List.mem_singleton.mp hname, Text.upcase_upcase]

theorem Reachable.intern_name (h : t.Reachable) {x : Symbol} (hx : t.Holds x) :
    Text.upcase x.name = x.name ∧ t.intern x.name = (x, t) :=
  ⟨h.upcase_eq _ hx.1, hx.intern (h.upcase_eq _ hx.1)⟩

theorem mem_names_intern (t : SymbolTable) (raw name : String) :
    name ∈ (t.intern raw).2.names ↔ name ∈ t.names ∨ Text.upcase raw = name := by
  simp only [intern]
  split_ifs with hmem
  · constructor
    · exact .inl
    · rintro (h | rfl)
      · exact h
      · exact hmem
  · simp [eq_comm]

def entry (t : SymbolTable) (name : String) : Symbol :=
  ⟨t.id, t.names.idxOf name, name⟩

theorem ncard_holds (t : SymbolTable) (h : t.names.Nodup) : {x | t.Holds x}.ncard = t.names.length := by
  have himage : {x | t.Holds x} = t.entry '' (t.names.toFinset : Set String) := by
    ext x
    simp only [Set.mem_ofPred_eq, Set.mem_image, Finset.mem_coe, List.mem_toFinset]
    constructor
    · intro hx
      exact ⟨x.name, hx.1, hx.2.symm⟩
    · rintro ⟨name, hname, rfl⟩
      exact ⟨hname, rfl⟩
  have hinj : Function.Injective t.entry := fun a b hab => congrArg Symbol.name hab
  rw [himage, Set.ncard_image_of_injective _ hinj, Set.ncard_coe_finset, List.toFinset_card_of_nodup h]

def known (k : Nat) (log : List Interned) : Finset String :=
  (Keyword.all.map Keyword.name ++ (log.filter (·.table = k)).map (Text.upcase ·.raw)).toFinset

theorem mem_known {name : String} : name ∈ known k log ↔
    name ∈ Keyword.all.map Keyword.name ∨ ∃ a ∈ log, a.table = k ∧ Text.upcase a.raw = name := by
  simp [known, and_assoc]

structure Consistent (ts : List SymbolTable) (log : List Interned) : Prop where
  tables : ∀ (k : Nat) (t : SymbolTable), ts[k]? = some t → t.id = k ∧ t.Reachable ∧
    ∀ name, name ∈ t.names ↔ name ∈ known k log
  entries : ∀ a ∈ log, a.symbol.name = Text.upcase a.raw ∧
    ∃ t : SymbolTable, ts[a.table]? = some t ∧ t.Holds a.symbol

namespace Consistent

variable {ts : List SymbolTable}

theorem new (h : Consistent ts log) : Consistent (ts ++ [.initial ts.length]) log := by
  have hlt {k : Nat} {t : SymbolTable} (hk : ts[k]? = some t) : k < ts.length := (List.getElem?_eq_some_iff.mp hk).1
  constructor
  · intro k t hk
    by_cases hnew : k < ts.length
    · rw [List.getElem?_append_left hnew] at hk
      exact h.tables k t hk
    · obtain ⟨rfl, rfl⟩ : k = ts.length ∧ .initial ts.length = t := by
        rw [List.getElem?_append_right (by omega), List.getElem?_singleton] at hk
        split_ifs at hk with hz
        exact ⟨by omega, Option.some.inj hk⟩
      refine ⟨rfl, .initial _, ?_⟩
      intro name
      rw [mem_known]
      constructor
      · exact .inl
      · rintro (hname | ⟨a, ha, htable, -⟩)
        · exact hname
        · obtain ⟨-, t, ht, -⟩ := h.entries a ha
          have := hlt ht
          omega
  · intro a ha
    obtain ⟨hname, t, ht, hx⟩ := h.entries a ha
    exact ⟨hname, t, by rw [List.getElem?_append_left (hlt ht), ht], hx⟩

theorem intern (h : Consistent ts log) (hk : ts[k]? = some t) (raw : String) :
    Consistent (ts.set k (t.intern raw).2) (log ++ [⟨k, raw, (t.intern raw).1⟩]) := by
  have hlt : k < ts.length := (List.getElem?_eq_some_iff.mp hk).1
  constructor
  · intro j u hj
    by_cases hjk : k = j
    · subst hjk
      rw [List.getElem?_set_self hlt] at hj
      obtain rfl := Option.some.inj hj
      obtain ⟨hid, hr, hnames⟩ := h.tables k t hk
      refine ⟨(extends_intern t raw).1.trans hid, hr.intern raw, ?_⟩
      intro name
      rw [mem_names_intern, hnames, mem_known, mem_known]
      simp [or_assoc, or_and_right, exists_or]
    · rw [List.getElem?_set_ne hjk] at hj
      obtain ⟨hid, hr, hnames⟩ := h.tables j u hj
      refine ⟨hid, hr, ?_⟩
      intro name
      rw [hnames, mem_known, mem_known]
      simp [or_and_right, exists_or, hjk]
  · intro a ha
    obtain ha | ha := List.mem_append.mp ha
    · obtain ⟨hname, u, hu, hx⟩ := h.entries a ha
      refine ⟨hname, ?_⟩
      by_cases hak : k = a.table
      · subst hak
        rw [hk] at hu
        obtain rfl := Option.some.inj hu
        exact ⟨_, List.getElem?_set_self hlt, hx.mono (extends_intern t raw)⟩
      · exact ⟨u, by rw [List.getElem?_set_ne hak, hu], hx⟩
    · obtain rfl := List.mem_singleton.mp ha
      exact ⟨rfl, _, List.getElem?_set_self hlt, holds_intern t raw⟩

end Consistent

theorem History.consistent {ts : List SymbolTable} (h : History ts log) : Consistent ts log := by
  induction h with
  | start => exact ⟨by simp, by simp⟩
  | new _ ih => exact ih.new
  | intern _ hk raw ih => exact ih.intern hk raw

theorem Consistent.symbol_eq_iff {ts : List SymbolTable} (h : Consistent ts log) {a b : Interned} (ha : a ∈ log)
    (hb : b ∈ log) : a.symbol = b.symbol ↔ a.table = b.table ∧ Text.upcase a.raw = Text.upcase b.raw := by
  obtain ⟨hname, t, ht, hx⟩ := h.entries a ha
  obtain ⟨hname', u, hu, hy⟩ := h.entries b hb
  constructor
  · intro heq
    have htable : a.symbol.table = b.symbol.table := congrArg Symbol.table heq
    rw [hx.2, hy.2] at htable
    refine ⟨?_, by rw [← hname, ← hname', heq]⟩
    rw [← (h.tables _ t ht).1, ← (h.tables _ u hu).1]
    exact htable
  · rintro ⟨htable, hup⟩
    rw [htable, hu] at ht
    obtain rfl := Option.some.inj ht
    exact hx.eq_of_name hy (by rw [hname, hname', hup])

/-- In whatever order names are interned in however many tables, symbols are told apart by their
table and the uppercase form of their name, under which they are found again ever after. -/
theorem interning_canonical {ts : List SymbolTable} {log : List Interned} (h : History ts log) :
    (∀ a ∈ log, ∀ b ∈ log,
      a.symbol = b.symbol ↔ a.table = b.table ∧ Text.upcase a.raw = Text.upcase b.raw) ∧
    (∀ a ∈ log, a.symbol.name = Text.upcase a.raw ∧
      (∃ t : SymbolTable, ts[a.table]? = some t ∧ t.Holds a.symbol) ∧
      ∀ keyword : Keyword, a.symbol = keyword.symbol a.table ↔ Text.upcase a.raw = keyword.name) ∧
    ∀ (k : Nat) (t : SymbolTable), ts[k]? = some t →
      (∀ x, t.Holds x → Text.upcase x.name = x.name ∧ t.intern x.name = (x, t)) ∧
      {x | t.Holds x}.ncard = t.names.length ∧
      t.names.length = (known k log).card := by
  have hc := h.consistent
  refine ⟨fun a ha b hb => hc.symbol_eq_iff ha hb, ?_, ?_⟩
  · intro a ha
    obtain ⟨hname, t, ht, hx⟩ := hc.entries a ha
    obtain ⟨hid, hr, -⟩ := hc.tables _ t ht
    refine ⟨hname, ⟨t, ht, hx⟩, ?_⟩
    intro keyword
    rw [← hname, ← hid]
    exact hx.eq_keyword_iff hr keyword
  · intro k t hk
    obtain ⟨-, hr, hnames⟩ := hc.tables k t hk
    have hset : t.names.toFinset = known k log := by
      ext name
      rw [List.mem_toFinset, hnames]
    refine ⟨fun x => hr.intern_name, ncard_holds t hr.nodup, ?_⟩
    rw [← List.toFinset_card_of_nodup hr.nodup, hset]

theorem interning_canonical_sharp_s :
    ∃ (ts : List SymbolTable) (log : List Interned) (a b c : Interned), History ts log ∧
      log = [a, b, c] ∧ a.raw = "straße" ∧ b.raw = "Strasse" ∧ c.raw = "straße" ∧
      a.symbol = b.symbol ∧ a.symbol ≠ c.symbol ∧ a.symbol.name = "STRASSE" ∧
      ∃ t : SymbolTable, ts[0]? = some t ∧ t.names.length = 7 := by
  let t := SymbolTable.initial 0
  let u := SymbolTable.initial 1
  let a : Interned := ⟨0, "straße", (t.intern "straße").1⟩
  let b : Interned := ⟨0, "Strasse", ((t.intern "straße").2.intern "Strasse").1⟩
  let c : Interned := ⟨1, "straße", (u.intern "straße").1⟩
  let ts : List SymbolTable := [((t.intern "straße").2.intern "Strasse").2, (u.intern "straße").2]
  have hstart : History [t, u] [] := .new (.new .start)
  have h : History ts [a, b, c] :=
    ((hstart.intern (k := 0) rfl "straße").intern (k := 0) rfl "Strasse").intern (k := 1) rfl "straße"
  obtain ⟨hsame, hlog, htables⟩ := interning_canonical h
  obtain ⟨-, -, hcard⟩ := htables 0 _ rfl
  have hab : a.symbol = b.symbol := (hsame a (by simp) b (by simp)).mpr ⟨rfl, by decide +kernel⟩
  have hac : a.symbol ≠ c.symbol := fun heq => absurd ((hsame a (by simp) c (by simp)).mp heq).1 (by decide)
  exact ⟨ts, _, a, b, c, h, rfl, rfl, rfl, rfl, hab, hac, (hlog a (by simp)).1.trans (by decide +kernel), _, rfl,
    hcard.trans (by decide +kernel)⟩

end SymbolTable

end Lisp
