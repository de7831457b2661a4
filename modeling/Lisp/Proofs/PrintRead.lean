import Lisp.Expr.Equal
import Lisp.Expr.Print
import Lisp.Proofs.Decimals
import Lisp.Proofs.ReaderGrammar
import Lisp.Proofs.SymbolTables
import Lisp.Proofs.WrittenTokens

namespace Lisp

structure Symbol.Readable (name : String) : Prop where
  nonempty : name ≠ ""
  uppercase : Text.upcase name = name
  undelimited : ∀ c ∈ name.toList, Mode.isDelimiter c = false
  undotted : name.toList.head? ≠ some '.'
  no_number : ∀ n : Int64, ¬ Decimal.Writes name.toList n.toInt

namespace Expr

open Expecting (Reads)
open Lexeme (Yields Delimited)

def Printable (t : SymbolTable) : Expr → Prop
  | symbol s => t.Holds s ∧ Symbol.Readable s.name
  | number _ => True
  | string _ text => '"' ∉ text.toList ∧ '\\' ∉ text.toList
  | pair _ head tail => head.Printable t ∧ tail.Printable t
  | function _ _ _ _ => False

def atomToken : Expr → Token
  | string _ text => .string text
  | e => .literal (String.ofList (Style.plain.atom e))

def atomDatum : Expr → Datum
  | string _ text => .string text
  | e => .literal (String.ofList (Style.plain.atom e))

def tokens : Position → Expr → List Token
  | .alone, pair _ h t => .leftParen :: (tokens .alone h ++ tokens .rest t)
  | .rest, pair _ h t => tokens .alone h ++ tokens .rest t
  | .alone, e => [e.atomToken]
  | .rest, e => if e.isNil then [.rightParen] else [.dot, e.atomToken, .rightParen]

def datum : Position → Expr → Datum
  | _, pair _ h t => .pair (datum .alone h) (datum .rest t)
  | .alone, e => e.atomDatum
  | .rest, e => if e.isNil then .nil else e.atomDatum

theorem write_atom {e : Expr} (h : e.isAtom = true) (st : Style) :
    e.write st .alone = st.atom e ∧
      e.write st .rest = if e.isNil then [')'] else ' ' :: '.' :: ' ' :: (st.atom e ++ [')']) := by
  cases e with
  | pair i h t => cases h
  | _ => exact ⟨rfl, rfl⟩

theorem tokens_atom {e : Expr} (h : e.isAtom = true) :
    e.tokens .alone = [e.atomToken] ∧
      e.tokens .rest = if e.isNil then [.rightParen] else [.dot, e.atomToken, .rightParen] := by
  cases e with
  | pair i h t => cases h
  | _ => exact ⟨rfl, rfl⟩

theorem datum_atom {e : Expr} (h : e.isAtom = true) :
    e.datum .alone = e.atomDatum ∧ e.datum .rest = if e.isNil then .nil else e.atomDatum := by
  cases e with
  | pair i h t => cases h
  | _ => exact ⟨rfl, rfl⟩

theorem pair_induction {P : Expr → Prop} (atom : ∀ e, e.isAtom = true → P e)
    (pair : ∀ i h t, P h → P t → P (.pair i h t)) (e : Expr) : P e := by
  induction e with
  | pair i h t ihh iht => exact pair i h t ihh iht
  | _ => exact atom _ rfl

theorem tokens_rest_ne_nil (e : Expr) : e.tokens .rest ≠ [] := by
  induction e using pair_induction with
  | atom e ha =>
    rw [(tokens_atom ha).2]
    split <;> simp
  | pair i h t _ iht => simp [tokens, iht]

theorem rest_delimited (e : Expr) (cs : List Char) : Delimited (e.write .plain .rest ++ cs) := by
  have blank : Mode.isDelimiter ' ' = true := by decide
  have close : Mode.isDelimiter ')' = true := by decide
  induction e using pair_induction with
  | atom e ha =>
    rw [(write_atom ha .plain).2]
    split
    · simpa [Delimited] using close
    · simpa [Delimited] using blank
  | pair i h t _ _ => simpa [Delimited, write] using blank

theorem digit_undelimited {c : Char} (h : c.isDigit = true) : Mode.isDelimiter c = false ∧ c ≠ '.' := by
  have hc : 48 ≤ c.toNat ∧ c.toNat ≤ 57 := by
    simpa [Char.isDigit, UInt32.le_iff_toNat_le] using h
  have key : ∀ k < 10, Mode.isDelimiter (Char.ofNat (48 + k)) = false ∧ Char.ofNat (48 + k) ≠ '.' := by decide
  have hk := key (c.toNat - 48) (by omega)
  rwa [show 48 + (c.toNat - 48) = c.toNat by omega, Char.ofNat_toNat] at hk

theorem yields_number (n : Int) : Yields (Decimal.ofInt n) [.literal (String.ofList (Decimal.ofInt n))] := by
  obtain ⟨digits, hne, hd, ⟨h, -⟩ | ⟨h, -⟩⟩ := Decimal.writes_ofInt n
  · rw [h]
    refine Lexeme.yields_literal hne (fun c hc => (digit_undelimited (hd c hc)).1) ?_
    intro hdot
    exact (digit_undelimited (hd '.' (List.mem_of_head? hdot))).2 rfl
  · rw [h]
    refine Lexeme.yields_literal (by simp) ?_ (by simp)
    intro c hc
    rcases List.mem_cons.mp hc with rfl | hc
    · decide
    · exact (digit_undelimited (hd c hc)).1

theorem yields_atom {t : SymbolTable} {e : Expr} (he : e.Printable t) (ha : e.isAtom = true) :
    Yields (Style.plain.atom e) [e.atomToken] := by
  cases e with
  | symbol s =>
    obtain ⟨-, hr⟩ := he
    exact Lexeme.yields_literal (by simpa [Style.atom, Style.plain] using hr.nonempty) hr.undelimited hr.undotted
  | number n => exact yields_number n.toInt
  | string i text => simpa [Style.atom, Style.plain, atomToken] using Lexeme.yields_string he.1 he.2
  | pair i h t => cases ha
  | function i p b s => exact he.elim

theorem yields_write {t : SymbolTable} {e : Expr} (he : e.Printable t) :
    Yields (e.write .plain .alone) (e.tokens .alone) ∧ Yields (e.write .plain .rest) (e.tokens .rest) := by
  have close (cs : List Char) : Delimited (')' :: cs) := by simp [Delimited, Mode.isDelimiter]
  induction e using pair_induction with
  | atom e ha =>
    have hy := yields_atom he ha
    rw [(write_atom ha .plain).1, (write_atom ha .plain).2, (tokens_atom ha).1, (tokens_atom ha).2]
    refine ⟨hy, ?_⟩
    split
    · exact Lexeme.yields_close
    · have hclose := hy.append Lexeme.yields_close (fun rest _ => close rest) (by simp)
      exact (Lexeme.Yields.cons (fun _ => rfl) rfl hclose.blank (by simp)).blank
  | pair i h t ihh iht =>
    obtain ⟨hh, ht⟩ := he
    have hy := (ihh hh).1.append (iht ht).2 (fun rest _ => rest_delimited t rest) (tokens_rest_ne_nil t)
    exact ⟨hy.cons (fun _ => rfl) rfl (by simp [tokens_rest_ne_nil]), hy.blank⟩

theorem reads_atom {t : SymbolTable} {e : Expr} (he : e.Printable t) (ha : e.isAtom = true) :
    Reads [e.atomToken] e.atomDatum := by
  refine ⟨[], e.atomToken, rfl, fun os => ⟨_, rfl, ?_⟩⟩
  cases e with
  | pair i h t => cases ha
  | function i p b s => exact he.elim
  | _ => rfl

def Ends (ts : List Token) (d : Datum) : Prop :=
  ∃ init t, ts = init ++ [t] ∧ ∀ acc os, acc ≠ [] →
    ∃ e, (Expecting.datum (.list acc :: os)).shifts init = some e ∧ e.step t = Expecting.deliver (.chain acc d) os

theorem Ends.cons {ts us : List Token} {h d : Datum} (hh : Reads ts h) (hd : Ends us d) :
    Ends (ts ++ us) (.pair h d) := by
  obtain ⟨init, t, rfl, hs⟩ := hd
  refine ⟨ts ++ init, t, by rw [List.append_assoc], fun acc os _ => ?_⟩
  obtain ⟨e, he, ht⟩ := hs (h :: acc) os (by simp)
  exact ⟨e, by rw [Expecting.shifts_append (hh.shifts rfl), he], ht⟩

theorem Ends.list {ts us : List Token} {h d : Datum} (hh : Reads ts h) (hd : Ends us d) :
    Reads (.leftParen :: (ts ++ us)) (.pair h d) := by
  obtain ⟨init, t, rfl, hs⟩ := hd
  refine ⟨.leftParen :: (ts ++ init), t, by simp, fun os => ?_⟩
  obtain ⟨e, he, ht⟩ := hs [h] os (by simp)
  refine ⟨e, ?_, ht⟩
  change (Expecting.datum (.list [] :: os)).shifts (ts ++ init) = some e
  rw [Expecting.shifts_append (hh.shifts rfl), he]

theorem ends_close : Ends [.rightParen] .nil :=
  ⟨[], .rightParen, rfl, fun _ _ _ => ⟨_, rfl, rfl⟩⟩

theorem Ends.dotted {ts : List Token} {d : Datum} (hd : Reads ts d) : Ends (.dot :: (ts ++ [.rightParen])) d := by
  refine ⟨.dot :: ts, .rightParen, rfl, fun acc os hne => ?_⟩
  obtain ⟨x, xs, rfl⟩ := List.exists_cons_of_ne_nil hne
  refine ⟨.closing (x :: xs) d os, ?_, rfl⟩
  change (Expecting.datum (.improper (x :: xs) :: os)).shifts ts = _
  exact hd.shifts rfl

theorem reads_tokens {t : SymbolTable} {e : Expr} (he : e.Printable t) :
    Reads (e.tokens .alone) (e.datum .alone) ∧ Ends (e.tokens .rest) (e.datum .rest) := by
  induction e using pair_induction with
  | atom e ha =>
    have hr := reads_atom he ha
    rw [(tokens_atom ha).1, (tokens_atom ha).2, (datum_atom ha).1, (datum_atom ha).2]
    refine ⟨hr, ?_⟩
    split
    · exact ends_close
    · exact Ends.dotted hr
  | pair i h t ihh iht =>
    obtain ⟨hh, ht⟩ := he
    exact ⟨Ends.list (ihh hh).1 (iht ht).2, Ends.cons (ihh hh).1 (iht ht).2⟩

theorem toExpr_atom {t : SymbolTable} {e : Expr} (he : e.Printable t) (ha : e.isAtom = true) (n : Ident) :
    ∃ e' n', e.atomDatum.toExpr ⟨t, n⟩ = (e', ⟨t, n'⟩) ∧ e.equal e' = true := by
  cases e with
  | symbol s =>
    obtain ⟨hs, hr⟩ := he
    refine ⟨symbol s, n, ?_, by simp [equal, identical]⟩
    simp [atomDatum, Style.atom, Style.plain, Datum.toExpr, Datum.literalExpr,
      Decimal.toInt64?_eq_none hr.no_number, hs.intern hr.uppercase]
  | number k =>
    refine ⟨number k, n, ?_, by simp [equal, identical]⟩
    simp [atomDatum, Style.atom, Style.plain, Datum.toExpr, Datum.literalExpr, Decimal.toInt64?_ofInt]
  | string i text => exact ⟨string n text, n + 1, rfl, by simp [equal]⟩
  | pair i h t => cases ha
  | function i p b s => exact he.elim

theorem eq_nil {t : SymbolTable} (ht : t.Reachable) {e : Expr} (he : e.Printable t) (hn : e.isNil = true) :
    e = nil t.id := by
  cases e with
  | symbol s =>
    have hname : s.name = Keyword.nil.name := by simpa [isNil, Symbol.isNil] using hn
    exact congrArg symbol (he.1.eq_of_name ht.holds_nil hname)
  | _ => cases hn

theorem toExpr_datum {t : SymbolTable} (ht : t.Reachable) {e : Expr} (he : e.Printable t) (p : Position)
    (n : Ident) : ∃ e' n', (e.datum p).toExpr ⟨t, n⟩ = (e', ⟨t, n'⟩) ∧ e.equal e' = true := by
  induction e using pair_induction generalizing p n with
  | atom e ha =>
    cases p with
    | alone =>
      rw [(datum_atom ha).1]
      exact toExpr_atom he ha n
    | rest =>
      rw [(datum_atom ha).2]
      split
      · rename_i hn
        rw [eq_nil ht he hn]
        exact ⟨nil t.id, n, rfl, by simp [nil, keyword, equal, identical]⟩
      · exact toExpr_atom he ha n
  | pair i h tl ihh iht =>
    obtain ⟨h', m, hh, heq⟩ := ihh he.1 .alone n
    obtain ⟨t', k, ht, teq⟩ := iht he.2 .rest m
    refine ⟨.pair k h' t', k + 1, ?_, by simp [equal, heq, teq]⟩
    have bind_apply (x : Meaning) (f : Expr → Meaning) (s : Supply) : (x >>= f) s = f (x s).1 (x s).2 := rfl
    rw [datum, Datum.toExpr, bind_apply, hh, bind_apply, ht]
    rfl

/-- Reading what an expression prints gives an equal expression, uses up the text and leaves the
symbol table as it is. -/
theorem read_print {t : SymbolTable} (ht : t.Reachable) {e : Expr} (he : e.Printable t) (n : Ident) :
    ∃ d e' n', Reading.next e.print.utf8ByteSize .initial (Lexeme.scan e.print) =
        some (⟨.ok d, e.print.utf8ByteSize⟩, []) ∧
      Reading.ofString e.print = [⟨.ok d, e.print.utf8ByteSize⟩] ∧
      d.toExpr ⟨t, n⟩ = (e', ⟨t, n'⟩) ∧ e.equal e' = true := by
  obtain ⟨e', n', hd, heq⟩ := toExpr_datum ht he .alone n
  obtain ⟨ls, hscan, hls, hstop⟩ := (yields_write he).1 0 [] (by simp [Delimited])
  have hsize : e.print.utf8ByteSize = 0 + Text.byteSize (e.write .plain .alone) := by
    rw [Text.utf8ByteSize_eq, print, String.toList_ofList, Nat.zero_add]
  have hscan : Lexeme.scan e.print = ls ++ [] := by
    rw [List.append_nil] at hscan
    rw [Lexeme.scan, print, String.toList_ofList, hscan]
    rfl
  obtain ⟨l, hl, hnext⟩ := Reading.next_of_reads (hls ▸ (reads_tokens he).1)
  have hread := hnext e.print.utf8ByteSize []
  rw [← hscan, hstop l hl, ← hsize] at hread
  refine ⟨e.datum .alone, e', n', hread, ?_, hd, heq⟩
  rw [Reading.ofString, Reading.all_eq_next, hread]
  rfl

theorem read_print_nested :
    ∃ e : Expr, e.print = "((-5 NIL . \"a b\") . T)" ∧ e.Printable (.initial 0) ∧
      ∃ d e' n', Reading.ofString e.print = [⟨.ok d, 22⟩] ∧
        d.toExpr ⟨.initial 0, 9⟩ = (e', ⟨.initial 0, n'⟩) ∧ e.equal e' = true := by
  have no_number (name : String) (h : Decimal.toInt64? name.toList = none) (n : Int64) :
      ¬ Decimal.Writes name.toList n.toInt := by
    intro hw
    cases h.symm.trans (Decimal.toInt64?_eq_some_iff.mpr hw)
  have undelimited (name : String) (h : name.toList.all (fun c => !Mode.isDelimiter c) = true) :
      ∀ c ∈ name.toList, Mode.isDelimiter c = false := by
    simpa using h
  let e := pair 1 (pair 2 (number (-5)) (pair 3 (nil 0) (string 4 "a b"))) (keyword .t 0)
  have he : e.Printable (.initial 0) := by
    refine ⟨⟨trivial, ⟨⟨by decide, by decide⟩, ?_⟩, by decide, by decide⟩, ⟨by decide, by decide⟩, ?_⟩
    · exact ⟨by decide, by decide +kernel, undelimited _ (by decide), by decide, no_number _ (by decide)⟩
    · exact ⟨by decide, by decide +kernel, undelimited _ (by decide), by decide, no_number _ (by decide)⟩
  have hp : e.print = "((-5 NIL . \"a b\") . T)" := by decide +kernel
  obtain ⟨d, e', n', -, hread, hd, heq⟩ := read_print (.initial 0) he 9
  refine ⟨e, hp, he, d, e', n', ?_, hd, heq⟩
  rw [hread, hp]
  rfl

end Expr

end Lisp
