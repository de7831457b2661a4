import Lisp.Proofs.CaseFolding
import Lisp.Proofs.PrintRead
import Lisp.Proofs.SourceProvenance
import Lisp.Proofs.SymbolOwnership

namespace Lisp

namespace Text

theorem capitals_visible :
    (capitals.all fun r => blankRanges.all fun b => Nat.blt r.last b.1 || Nat.blt b.2 r.first) = true := by
  decide +kernel

theorem isBlank_capital {r : CaseRun} (hr : r ∈ capitals) {c : Char} (hc : r.Lists c.toNat) : isBlank c = false := by
  obtain ⟨hlo, hhi, -⟩ := hc
  have hall := List.all_eq_true.mp capitals_visible r hr
  simp only [isBlank, List.any_eq_false, Bool.and_eq_true, decide_eq_true_eq]
  intro b hb hin
  have hapart := List.all_eq_true.mp hall b hb
  simp only [Bool.or_eq_true, Nat.blt_eq] at hapart
  omega

theorem isDelimiter_capital {r : CaseRun} (hr : r ∈ capitals) {c : Char} (hc : r.Lists c.toNat) :
    Mode.isDelimiter c = false ∧ c ≠ '.' := by
  have hlow : 0x40 < c.toNat := Nat.lt_of_lt_of_le (capitals_fixed hr).2.2.2 hc.1
  have hne {d : Char} (hd : d.toNat ≤ 0x40) : c ≠ d := by
    rintro rfl
    omega
  refine ⟨?_, hne (by decide)⟩
  simp only [Mode.isDelimiter, isBlank_capital hr hc, Bool.or_eq_false_iff, beq_eq_false_iff_ne]
  exact ⟨⟨⟨⟨⟨trivial, hne (by decide)⟩, hne (by decide)⟩, hne (by decide)⟩, hne (by decide)⟩, hne (by decide)⟩

theorem upcaseChar_ne_nil (c : Char) : upcaseChar c ≠ [] := by
  obtain hc | ⟨hc, -⟩ := upcaseChar_cases c
  · simp [hc]
  · exact hc

theorem upcaseChar_undelimited {c d : Char} (hd : d ∈ upcaseChar c) :
    (Mode.isDelimiter c = false → Mode.isDelimiter d = false) ∧ (c ≠ '.' → d ≠ '.') := by
  obtain hc | ⟨-, hc⟩ := upcaseChar_cases c
  · obtain rfl : d = c := by simpa [hc] using hd
    exact ⟨id, id⟩
  · obtain ⟨r, hr, hl⟩ := hc d hd
    obtain ⟨hdelim, hdot⟩ := isDelimiter_capital hr hl
    exact ⟨fun _ => hdelim, fun _ => hdot⟩

end Text

structure Lexeme.IsLiteral (s : String) : Prop where
  nonempty : s.toList ≠ []
  undelimited : ∀ c ∈ s.toList, Mode.isDelimiter c = false
  undotted : s.toList.head? ≠ some '.'

theorem Lexeme.isLiteral_of_scan {source : String} {l : Lexeme} (hl : l ∈ scan source) {s : String}
    (ht : l.token = .literal s) : IsLiteral s := by
  obtain ⟨before, word, after, -, -, -, hw | ⟨hu, -⟩⟩ := ((scan_eq_iff_laid source _).mp rfl).spelled hl
  · rw [ht] at hw
    cases hw with
    | literal hc hdot hcs =>
      constructor <;> rw [String.toList_ofList]
      · simp
      · exact List.forall_mem_cons.mpr ⟨hc, hcs⟩
      · simpa using hdot
  · rw [ht] at hu
    cases hu

theorem Lexeme.IsLiteral.upcase {s : String} (h : IsLiteral s) : IsLiteral (Text.upcase s) := by
  obtain ⟨c, cs, hs⟩ := List.exists_cons_of_ne_nil h.nonempty
  -- One character may become several; the first of them takes the first place.
  obtain ⟨d, ds, hd⟩ := List.exists_cons_of_ne_nil (Text.upcaseChar_ne_nil c)
  have hup : (Text.upcase s).toList = d :: (ds ++ cs.flatMap Text.upcaseChar) := by
    rw [Text.toList_upcase, hs, List.flatMap_cons, hd, List.cons_append]
  constructor
  · simp [hup]
  · intro x hx
    rw [Text.toList_upcase] at hx
    obtain ⟨y, hy, hx⟩ := List.mem_flatMap.mp hx
    exact (Text.upcaseChar_undelimited hx).1 (h.undelimited y hy)
  · have hc : c ≠ '.' := by simpa [hs] using h.undotted
    have hdot : d ≠ '.' := (Text.upcaseChar_undelimited (hd ▸ List.mem_cons_self)).2 hc
    simpa [hup] using hdot

namespace Symbol

theorem Readable.scan {name : String} (h : Readable name) :
    (Lexeme.scan name).map Lexeme.token = [.literal name] := by
  have hne : name.toList ≠ [] := by simpa using h.nonempty
  have hy := Lexeme.yields_literal hne h.undelimited h.undotted
  rw [String.ofList_toList] at hy
  exact hy.scan.1

theorem readable_of_literal {name : String} (h : Lexeme.IsLiteral name) (hup : Text.upcase name = name)
    (hn : Decimal.toInt64? name.toList = none) : Readable name where
  nonempty := by simpa using h.nonempty
  uppercase := hup
  undelimited := h.undelimited
  undotted := h.undotted
  no_number n hw := by cases hn.symm.trans (Decimal.toInt64?_eq_some_iff.mpr hw)

theorem readable_upcase {s : String} (h : Lexeme.IsLiteral s) (hn : Decimal.toInt64? s.toList = none) :
    Readable (Text.upcase s) := by
  apply readable_of_literal h.upcase (Text.upcase_upcase s)
  -- Texts that differ in case only are the same number or none.
  rw [Decimal.toInt64?_fold_congr (Text.upcase_upcase s), hn]

theorem readable_keyword (k : Keyword) : Readable k.name := by
  have hup : Text.upcase k.name = k.name := by cases k <;> decide +kernel
  have hall : (k.name.toList.all fun c => !Mode.isDelimiter c) = true := by cases k <;> decide
  have hliteral : Lexeme.IsLiteral k.name :=
    ⟨by cases k <;> decide, by simpa using hall, by cases k <;> decide⟩
  apply readable_of_literal hliteral hup
  cases k <;> decide

end Symbol

def Datum.Over (P : String → Prop) : Datum → Prop
  | literal s => P s
  | quoted d => d.Over P
  | pair h t => h.Over P ∧ t.Over P
  | _ => True

def Opened.Over (P : String → Prop) : Opened → Prop
  | quote => True
  | list ds => ∀ d ∈ ds, d.Over P
  | improper ds => ∀ d ∈ ds, d.Over P

def Expecting.Over (P : String → Prop) : Expecting → Prop
  | datum os => ∀ o ∈ os, o.Over P
  | closing ds d os => (∀ d ∈ ds, d.Over P) ∧ d.Over P ∧ ∀ o ∈ os, o.Over P

def Verdict.Over (P : String → Prop) : Verdict → Prop
  | shift e => e.Over P
  | accept d => d.Over P
  | reject _ => True

section Over

variable {P : String → Prop}

theorem Datum.chain_over {ds : List Datum} {d : Datum} (hds : ∀ d ∈ ds, d.Over P) (hd : d.Over P) :
    (chain ds d).Over P := by
  induction ds generalizing d with
  | nil => exact hd
  | cons d' ds ih =>
    obtain ⟨hd', hds⟩ := List.forall_mem_cons.mp hds
    exact ih hds ⟨hd', hd⟩

theorem Expecting.deliver_over {d : Datum} (hd : d.Over P) {os : List Opened} (hos : ∀ o ∈ os, o.Over P) :
    (deliver d os).Over P := by
  induction os generalizing d with
  | nil => exact hd
  | cons o os ih =>
    obtain ⟨ho, hrest⟩ := List.forall_mem_cons.mp hos
    cases o with
    | quote => exact ih (d := .quoted d) hd hrest
    | list ds => exact List.forall_mem_cons.mpr ⟨List.forall_mem_cons.mpr ⟨hd, ho⟩, hrest⟩
    | improper ds => exact ⟨ho, hd, hrest⟩

theorem Expecting.step_over {e : Expecting} (he : e.Over P) {t : Token} (ht : ∀ s, t = .literal s → P s) :
    (e.step t).Over P := by
  unfold step
  split
  case h_1 => trivial
  case h_2 => exact deliver_over (Datum.chain_over he.1 he.2.1) he.2.2
  case h_3 => trivial
  case h_4 => exact List.forall_mem_cons.mpr ⟨by simp [Opened.Over], he⟩
  case h_5 => exact List.forall_mem_cons.mpr ⟨trivial, he⟩
  case h_6 s => exact deliver_over (d := .string s) trivial he
  case h_7 s => exact deliver_over (d := .literal s) (ht s rfl) he
  case h_8 =>
    obtain ⟨hds, hos⟩ := List.forall_mem_cons.mp he
    exact deliver_over (Datum.chain_over (d := .nil) hds trivial) hos
  case h_9 => trivial
  case h_10 =>
    obtain ⟨hds, hos⟩ := List.forall_mem_cons.mp he
    exact List.forall_mem_cons.mpr ⟨hds, hos⟩
  case h_11 => trivial

theorem Reading.all_over {size : Nat} {e : Expecting} (he : e.Over P) {ls : List Lexeme}
    (hls : ∀ l ∈ ls, ∀ s, l.token = .literal s → P s) {r : Reading} (hr : r ∈ all size e ls) {d : Datum}
    (hd : r.result = .ok d) : d.Over P := by
  have hinitial : Expecting.initial.Over P := by simp [Expecting.initial, Expecting.Over]
  induction ls generalizing e with
  | nil =>
    rw [all] at hr
    split at hr
    · cases hr
    · obtain rfl := List.mem_singleton.mp hr
      cases hd
  | cons l ls ih =>
    -- What is open stays over the literals seen so far, and after a datum or a failure nothing is open.
    obtain ⟨hl, hls⟩ := List.forall_mem_cons.mp hls
    have hstep := Expecting.step_over he hl
    rw [all] at hr
    cases hv : e.step l.token with
    | shift e' =>
      rw [hv] at hr hstep
      exact ih hstep hls hr
    | accept d' =>
      rw [hv] at hr hstep
      rcases List.mem_cons.mp hr with rfl | hr
      · cases hd
        exact hstep
      · exact ih hinitial hls hr
    | reject x =>
      rw [hv] at hr
      rcases List.mem_cons.mp hr with rfl | hr
      · cases hd
      · exact ih hinitial hls hr

end Over

theorem Reading.ofString_literals {source : String} {r : Reading} (hr : r ∈ ofString source) {d : Datum}
    (hd : r.result = .ok d) : d.Over Lexeme.IsLiteral :=
  all_over (by simp [Expecting.initial, Expecting.Over]) (fun _ hl _ ht => Lexeme.isLiteral_of_scan hl ht) hr hd

namespace Expr

/-- There are no functions in the expression, and its symbols are entries of the table under names
that are literals by themselves and are read as those symbols. -/
structure Rereadable (t : SymbolTable) (e : Expr) : Prop where
  functionFree : e.FunctionFree
  owned : e.Owned t
  readable : ∀ x, e.Mentions x → Symbol.Readable x.name
  literal : ∀ x, e.Mentions x → (Lexeme.scan x.name).map Lexeme.token = [.literal x.name]

def Unslashed : Expr → Prop
  | string _ text => '"' ∉ text.toList ∧ '\\' ∉ text.toList
  | pair _ h t => h.Unslashed ∧ t.Unslashed
  | _ => True

namespace Rereadable

variable {t t' : SymbolTable}

theorem mono (h : t.Extends t') {e : Expr} (he : e.Rereadable t) : e.Rereadable t' :=
  ⟨he.functionFree, he.owned.mono h, he.readable, he.literal⟩

theorem head {i : Ident} {h tl : Expr} (he : (pair i h tl).Rereadable t) : h.Rereadable t :=
  ⟨he.functionFree.1, (Owned.pair.mp he.owned).1, fun x hx => he.readable x (.inl hx),
    fun x hx => he.literal x (.inl hx)⟩

theorem tail {i : Ident} {h tl : Expr} (he : (pair i h tl).Rereadable t) : tl.Rereadable t :=
  ⟨he.functionFree.2, (Owned.pair.mp he.owned).2, fun x hx => he.readable x (.inr hx),
    fun x hx => he.literal x (.inr hx)⟩

theorem printable {e : Expr} (he : e.Rereadable t) (hs : e.Unslashed) : e.Printable t := by
  induction e with
  | symbol x => exact ⟨he.owned x rfl, he.readable x rfl⟩
  | number n => trivial
  | string i text => exact hs
  | pair i h tl ihh iht => exact ⟨ihh he.head hs.1, iht he.tail hs.2⟩
  | function i params body scope => exact he.functionFree.elim

end Rereadable

end Expr

namespace Datum

theorem toExpr_readable {d : Datum} (h : d.Over Lexeme.IsLiteral) (s : Supply) {x : Symbol}
    (hx : (d.toExpr s).1.Mentions x) : Symbol.Readable x.name := by
  induction d generalizing s with
  | literal text =>
    rw [toExpr, literalExpr] at hx
    cases hn : Decimal.toInt64? text.toList with
    | some n =>
      rw [hn] at hx
      cases hx
    | none =>
      rw [hn] at hx
      obtain rfl := hx
      exact Symbol.readable_upcase h hn
  | string text => cases hx
  | nil =>
    obtain rfl := hx
    exact Symbol.readable_keyword .nil
  | quoted d ih =>
    rcases hx with rfl | hx | rfl
    · exact Symbol.readable_keyword .quote
    · exact ih h s hx
    · exact Symbol.readable_keyword .nil
  | pair hd tl ihh iht =>
    rcases hx with hx | hx
    · exact ihh h.1 s hx
    · exact iht h.2 _ hx

theorem toExpr_rereadable {d : Datum} (h : d.Over Lexeme.IsLiteral) {s : Supply}
    (hs : s.symbols.Reachable) :
    s.symbols.Extends (d.toExpr s).2.symbols ∧ (d.toExpr s).2.symbols.Reachable ∧
      (d.toExpr s).1.Rereadable (d.toExpr s).2.symbols := by
  obtain ⟨hreachable, hextends, howned⟩ := d.toExpr_owned s hs
  obtain ⟨-, hfree, -⟩ := d.toExpr_numbered s
  exact ⟨hextends, hreachable, hfree, howned, fun x hx => toExpr_readable h s hx,
    fun x hx => (toExpr_readable h s hx).scan⟩

end Datum

theorem Machine.readings_rereadable {rs : List Reading}
    (hrs : ∀ r ∈ rs, ∀ d, r.result = .ok d → d.Over Lexeme.IsLiteral) {m m' : Machine}
    {es : List Expr} (hm : m.session.symbols.Reachable) (h : readings rs m = .value es m') :
    m.session.symbols.Extends m'.session.symbols ∧ m'.session.symbols.Reachable ∧
      ∀ e ∈ es, e.Rereadable m'.session.symbols := by
  induction rs generalizing m es with
  | nil =>
    cases h
    exact ⟨.refl _, hm, by simp⟩
  | cons r rs ih =>
    obtain ⟨hr, hrest⟩ := List.forall_mem_cons.mp hrs
    obtain ⟨x | d, offset⟩ := r
    · cases h
    · let supply : Supply := ⟨m.session.symbols, m.world.next⟩
      obtain ⟨hextends, hreachable, he⟩ := Datum.toExpr_rereadable (hr d rfl) (s := supply) hm
      let m₁ : Machine := ⟨{ m.session with symbols := (d.toExpr supply).2.symbols },
        { m.world with next := (d.toExpr supply).2.next }⟩
      have hcons : readings (⟨.ok d, offset⟩ :: rs) m =
          (readings rs >>= fun es => pure ((d.toExpr supply).1 :: es)) m₁ := rfl
      rw [hcons, Run.bind_apply] at h
      cases ho : readings rs m₁ with
      | value vs m₂ =>
        rw [ho] at h
        cases h
        obtain ⟨hextends', hreachable', hvs⟩ := ih hrest hreachable ho
        exact ⟨hextends.trans hextends', hreachable', List.forall_mem_cons.mpr ⟨he.mono hextends', hvs⟩⟩
      | error x m₂ =>
        rw [ho] at h
        cases h
      | exhausted =>
        rw [ho] at h
        cases h

namespace Reading

/-- Whatever is read is an expression that can be printed and read again, but for strings with quotes or
backslashes in them, and so are all expressions of a text over the table that reading them leaves. -/
theorem read_expressions_readable (source : String) :
    (∀ s : Supply, s.symbols.Reachable → ∀ r ∈ ofString source, ∀ d, r.result = .ok d →
      ∀ e s', d.toExpr s = (e, s') →
        s.symbols.Extends s'.symbols ∧ s'.symbols.Reachable ∧ e.Rereadable s'.symbols ∧
        (e.Unslashed → e.Printable s'.symbols)) ∧
    ∀ (m m' : Machine) (es : List Expr), m.session.symbols.Reachable → Machine.parse source m = .value es m' →
      m.session.symbols.Extends m'.session.symbols ∧ m'.session.symbols.Reachable ∧
      ∀ e ∈ es, e.Rereadable m'.session.symbols ∧ (e.Unslashed → e.Printable m'.session.symbols) := by
  constructor
  · intro s hs r hr d hd e s' he
    obtain ⟨hextends, hreachable, hreread⟩ := Datum.toExpr_rereadable (ofString_literals hr hd) hs
    rw [he] at hextends hreachable hreread
    exact ⟨hextends, hreachable, hreread, hreread.printable⟩
  · intro m m' es hm h
    obtain ⟨hextends, hreachable, hes⟩ := Machine.readings_rereadable (fun _ hr _ => ofString_literals hr) hm h
    exact ⟨hextends, hreachable, fun e he => ⟨hes e he, (hes e he).printable⟩⟩

theorem read_expressions_readable_sharp_s :
    ∃ (e : Expr) (s : Supply), ofString "(straße . \"a b\")" = [⟨.ok (.pair (.literal "straße") (.string "a b")), 17⟩] ∧
      (Datum.pair (.literal "straße") (.string "a b")).toExpr ⟨.initial 0, 0⟩ = (e, s) ∧
      e.print = "(STRASSE . \"a b\")" ∧ e.Rereadable s.symbols ∧ e.Unslashed ∧ e.Printable s.symbols ∧
      ∃ e' m, Machine.parse "(straße . \"a b\")" (.start .closed) = .value [e'] m ∧ e'.Rereadable m.session.symbols := by
  let d : Datum := .pair (.literal "straße") (.string "a b")
  let s : Supply := ⟨.initial 0, 0⟩
  have hread : ofString "(straße . \"a b\")" = [⟨.ok d, 17⟩] := rfl
  have hparse (m : Machine) : ∃ e' m', Machine.parse "(straße . \"a b\")" m = .value [e'] m' := by
    rw [Machine.parse, hread]
    exact ⟨_, _, rfl⟩
  have hstart : (Machine.start .closed).session.symbols.Reachable := (Session.initial_proper 0 0).symbols
  have hunslashed : (d.toExpr s).1.Unslashed := ⟨trivial, by decide, by decide⟩
  obtain ⟨hexpr, hexprs⟩ := read_expressions_readable "(straße . \"a b\")"
  obtain ⟨-, -, he, hprintable⟩ := hexpr s (.initial 0) ⟨.ok d, 17⟩ (by simp [hread]) d rfl _ _ rfl
  obtain ⟨e', m', hvalue⟩ := hparse (.start .closed)
  obtain ⟨-, -, hes⟩ := hexprs _ _ _ hstart hvalue
  exact ⟨_, _, hread, rfl, by decide +kernel, he, hunslashed, hprintable hunslashed, e', m', hvalue,
    (hes e' (by simp)).1⟩

end Reading

end Lisp
