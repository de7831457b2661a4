import Lisp.Proofs.EvaluationRules
import Lisp.Proofs.PrintRead
import Lisp.Proofs.WordArithmetic
import Mathlib.Data.Nat.Factorial.Basic
import Mathlib.Data.Nat.Fib.Basic

namespace Lisp

namespace Recursion

open Lisp.Expr (listed)
open Lisp.Task (Gives GivesEach Returns gives_symbol gives_number gives_call gives_choice returns_primitive
  returns_function)

def factorialSource : String :=
  "(DEFUN (fact n) (COND ((= n 0) 1) (T (* n (fact (- n 1))))))"

def fibonacciSource : String :=
  "(DEFUN (fib n) (COND ((< n 2) n) (T (+ (fib (- n 1)) (fib (- n 2))))))"

section Code

variable (t : SymbolTable)

def name (raw : String) : Symbol :=
  (t.intern raw).1

def call (raw : String) (es : List Expr) : Expr :=
  listed t.id (.symbol (name t raw) :: es)

def choice (test a b : Expr) : Expr :=
  listed t.id [.keyword .cond t.id, listed t.id [test, a], listed t.id [.keyword .t t.id, b]]

def argument : Expr :=
  .symbol (name t "n")

def factorialCode : Expr :=
  choice t (call t "=" [argument t, .number 0]) (.number 1)
    (call t "*" [argument t, call t "fact" [call t "-" [argument t, .number 1]]])

def fibonacciCode : Expr :=
  choice t (call t "<" [argument t, .number 2]) (argument t)
    (call t "+" [call t "fib" [call t "-" [argument t, .number 1]], call t "fib" [call t "-" [argument t, .number 2]]])

end Code

def used : List (String × Primitive) :=
  [("=", .equal), ("<", .less), ("+", .add), ("-", .sub), ("*", .mul)]

@[mk_iff]
structure Word (t : SymbolTable) (raw : String) : Prop where
  nonempty : raw.toList ≠ []
  undelimited : raw.toList.any Mode.isDelimiter = false
  undotted : raw.toList.head? ≠ some '.'
  no_number : Decimal.toInt64? raw.toList = none
  known : Text.upcase raw ∈ t.names

instance (t : SymbolTable) (raw : String) : Decidable (Word t raw) :=
  decidable_of_iff _ (word_iff t raw).symm

@[mk_iff]
structure Defines (session : Session) (g : Scope) (raw : String) (code : Expr) (f : Expr) : Prop where
  word : Word session.symbols raw
  callable : session.keyword? (name session.symbols raw) = none
  bound : g.get? (name session.symbols raw) = some f
  coded : f.bare = .function 0 (listed session.symbols.id [argument session.symbols]) code session.global

instance (session : Session) (g : Scope) (raw : String) (code f : Expr) : Decidable (Defines session g raw code f) :=
  decidable_of_iff _ (defines_iff session g raw code f).symm

@[mk_iff]
structure Setting (session : Session) (g : Scope) : Prop where
  outermost : g.parent = none
  primitives : ∀ b ∈ used, session.keyword? (name session.symbols b.1) = none ∧
    g.get? (name session.symbols b.1) = some (.symbol (name session.symbols b.1)) ∧
    session.primitive? (name session.symbols b.1) = some b.2

instance (session : Session) (g : Scope) : Decidable (Setting session g) :=
  decidable_of_iff _ (setting_iff session g).symm

structure Inside (session : Session) (g : Scope) (r : Scopes) (i : ScopeId) (a : Int64) : Prop where
  outer : r.all[session.global]? = some g
  inner : ∃ f : Scope, r.all[i]? = some f ∧ f.parent = some session.global ∧
    f.get? (name session.symbols "n") = some (.number a) ∧ ∀ y, y ≠ name session.symbols "n" → f.get? y = none

def entered (session : Session) (s : Store) (a : Int64) : Store :=
  ⟨(s.scopes.enter session.global [(name session.symbols "n", .number a)]).2, s.next + 1⟩

variable {session : Session} {g : Scope} {r r' : Scopes} {i : ScopeId} {a : Int64} {s s' : Store}

theorem name_ne {raw : String} (h : Text.upcase raw ≠ Text.upcase "n") (t : SymbolTable) : name t raw ≠ name t "n" :=
  fun heq => h (congrArg Symbol.name heq)

namespace Inside

theorem mono (h : Inside session g r i a) (hr : r.Extends r') : Inside session g r' i a := by
  obtain ⟨f, hf, hrest⟩ := h.inner
  exact ⟨hr _ _ h.outer, f, hr _ _ hf, hrest⟩

theorem entered (h : s.scopes.all[session.global]? = some g) (a : Int64) :
    Inside session g (Recursion.entered session s a).scopes s.scopes.all.size a :=
  ⟨Scopes.extends_enter _ _ _ _ _ h, Scopes.enter_one _ _ _ _⟩

theorem probe_argument (h : Inside session g r i a) (hg : Setting session g) :
    r.probe i (name session.symbols "n") = some (.number a) := by
  obtain ⟨f, hf, hparent, harg, -⟩ := h.inner
  rw [Scopes.probe_inner hf hparent h.outer hg.outermost, harg, Option.some_or]

theorem probe_outer (h : Inside session g r i a) (hg : Setting session g) {raw : String}
    (hraw : Text.upcase raw ≠ Text.upcase "n") :
    r.probe i (name session.symbols raw) = g.get? (name session.symbols raw) := by
  obtain ⟨f, hf, hparent, -, hother⟩ := h.inner
  rw [Scopes.probe_inner hf hparent h.outer hg.outermost, hother _ (name_ne hraw _), Option.none_or]

end Inside

section Body

variable {s₁ : Store} {v f code : Expr} {raw : String}

theorem gives_argument (hg : Setting session g) (hi : Inside session g s.scopes i a) :
    Gives session i (argument session.symbols) s (.number a) s :=
  gives_symbol (hi.probe_argument hg)

theorem gives_binary (hg : Setting session g) (hi : Inside session g s.scopes i a) {b : String × Primitive}
    (hb : b ∈ used) {c₁ c₂ v₁ v₂ : Expr} {s₂ : Store} (h₁ : Gives session i c₁ s v₁ s₁)
    (h₂ : Gives session i c₂ s₁ v₂ s₂) (hv : b.2.result session.symbols.id [v₁, v₂] s₂ = (.ok v, s₂)) :
    Gives session i (call session.symbols b.1 [c₁, c₂]) s v s₂ := by
  have hnames : ∀ b ∈ used, Text.upcase b.1 ≠ Text.upcase "n" := by decide +kernel
  have hquiet : ∀ b ∈ used, b.2 ≠ .print := by decide
  obtain ⟨hcall, hbound, hprimitive⟩ := hg.primitives b hb
  exact gives_call hcall ((hi.probe_outer hg (hnames b hb)).trans hbound) (.cons h₁ (.cons h₂ (.nil s₂)))
    (returns_primitive hprimitive (hquiet b hb) hv)

theorem gives_times (hg : Setting session g) (hi : Inside session g s.scopes i a) {c₁ c₂ : Expr} {x y : Int64}
    {s₂ : Store} (h₁ : Gives session i c₁ s (.number x) s₁) (h₂ : Gives session i c₂ s₁ (.number y) s₂) :
    Gives session i (call session.symbols "*" [c₁, c₂]) s (.number (x * y)) s₂ := by
  have hv : Primitive.mul.result session.symbols.id [.number x, .number y] s₂ = (.ok (.number (1 * x * y)), s₂) := rfl
  rw [Int64.one_mul] at hv
  exact gives_binary hg hi (b := ("*", .mul)) (by decide) h₁ h₂ hv

theorem gives_plus (hg : Setting session g) (hi : Inside session g s.scopes i a) {c₁ c₂ : Expr} {x y : Int64}
    {s₂ : Store} (h₁ : Gives session i c₁ s (.number x) s₁) (h₂ : Gives session i c₂ s₁ (.number y) s₂) :
    Gives session i (call session.symbols "+" [c₁, c₂]) s (.number (x + y)) s₂ := by
  have hv : Primitive.add.result session.symbols.id [.number x, .number y] s₂ = (.ok (.number (0 + x + y)), s₂) := rfl
  rw [Int64.zero_add] at hv
  exact gives_binary hg hi (b := ("+", .add)) (by decide) h₁ h₂ hv

theorem gives_less (hg : Setting session g) (hi : Inside session g s.scopes i a) (m : Int64) :
    Gives session i (call session.symbols "<" [argument session.symbols, .number m]) s
      (.truth session.symbols.id (a < m)) s :=
  gives_binary hg hi (b := ("<", .less)) (by decide) (gives_argument hg hi) (gives_number m) rfl

theorem gives_equal (hg : Setting session g) (hi : Inside session g s.scopes i a) (m : Int64) :
    Gives session i (call session.symbols "=" [argument session.symbols, .number m]) s
      (.truth session.symbols.id (a == m)) s :=
  gives_binary hg hi (b := ("=", .equal)) (by decide) (gives_argument hg hi) (gives_number m) rfl

theorem gives_minus (hg : Setting session g) (hi : Inside session g s.scopes i a) (m : Int64) :
    Gives session i (call session.symbols "-" [argument session.symbols, .number m]) s (.number (a - m)) s :=
  gives_binary hg hi (b := ("-", .sub)) (by decide) (gives_argument hg hi) (gives_number m) rfl

theorem gives_self (hg : Setting session g) (hd : Defines session g raw code f)
    (hraw : Text.upcase raw ≠ Text.upcase "n") (hi : Inside session g s.scopes i a) {m : Int64}
    (hv : Returns session f [.number (a - m)] s v s₁) :
    Gives session i (call session.symbols raw [call session.symbols "-" [argument session.symbols, .number m]]) s v s₁ :=
  gives_call hd.callable ((hi.probe_outer hg hraw).trans hd.bound) (.cons (gives_minus hg hi m) (.nil s)) hv

theorem extends_entered (session : Session) (s : Store) (a : Int64) :
    s.scopes.Extends (entered session s a).scopes :=
  Scopes.extends_enter _ _ _

theorem returns_coded (hd : Defines session g raw code f)
    (hv : Gives session s.scopes.all.size code (entered session s a) v s₁) : Returns session f [.number a] s v s₁ :=
  returns_function hd.coded hv

section Words

variable {k : Nat}

theorem toInt_ofInt (hk : k < 2 ^ 63) : (Int64.ofInt k).toInt = k :=
  Int64.toInt_ofInt_of_le (by omega) (by omega)

theorem ofInt_beq_zero (hk : k < 2 ^ 63) : (Int64.ofInt k == 0) = decide (k = 0) := by
  rw [Bool.eq_iff_iff, beq_iff_eq, decide_eq_true_iff, ← Int64.toInt_inj, toInt_ofInt hk]
  exact Int.natCast_eq_zero

theorem ofInt_lt_two (hk : k < 2 ^ 63) : (Int64.ofInt k < 2) ↔ k < 2 := by
  rw [Int64.lt_iff_toInt_lt, toInt_ofInt hk]
  change (k : Int) < 2 ↔ k < 2
  omega

theorem ofInt_sub_ofInt {j : Nat} (hj : j ≤ k) : Int64.ofInt k - .ofInt j = .ofInt (k - j : Nat) := by
  rw [← Int64.ofInt_sub, Nat.cast_sub hj]

end Words

/-- Wherever it is called, the function returns what the given one does, up to wrapping around. -/
def Implements (session : Session) (g : Scope) (f : Expr) (F : Nat → Nat) : Prop :=
  ∀ (k : Nat) (s : Store), k < 2 ^ 63 → s.scopes.all[session.global]? = some g →
    ∃ s', Returns session f [.number (.ofInt k)] s (.number (.ofInt (F k))) s' ∧ s.scopes.Extends s'.scopes

theorem implements_factorial (hg : Setting session g)
    (hd : Defines session g "fact" (factorialCode session.symbols) f) : Implements session g f Nat.factorial := by
  intro k s hk hs
  induction k generalizing s with
  | zero =>
    have hi := Inside.entered hs (.ofInt (0 : Nat))
    refine ⟨entered session s (.ofInt (0 : Nat)), returns_coded hd ?_, extends_entered session s _⟩
    exact gives_choice (c := true) rfl (gives_equal hg hi 0) (gives_number 1)
  | succ k ih =>
    have hi := Inside.entered hs (.ofInt (k + 1 : Nat))
    have htest := gives_equal hg hi 0
    rw [ofInt_beq_zero hk, decide_eq_false (Nat.succ_ne_zero k)] at htest
    obtain ⟨s', hreturns, hextends⟩ := ih _ (by omega) hi.outer
    have hpred : Int64.ofInt (k + 1 : Nat) - 1 = .ofInt k := ofInt_sub_ofInt (Nat.le_add_left 1 k)
    rw [← hpred] at hreturns
    have hbody := gives_times hg hi (gives_argument hg hi) (gives_self hg hd (by decide +kernel) hi hreturns)
    rw [← Int64.ofInt_mul, ← Nat.cast_mul, ← Nat.factorial_succ] at hbody
    refine ⟨s', returns_coded hd ?_, (extends_entered session s _).trans hextends⟩
    exact gives_choice rfl htest hbody

theorem implements_fibonacci (hg : Setting session g)
    (hd : Defines session g "fib" (fibonacciCode session.symbols) f) : Implements session g f Nat.fib := by
  intro k s hk hs
  induction k using Nat.strongRecOn generalizing s with
  | _ k ih =>
    have hi := Inside.entered hs (.ofInt k)
    have htest := gives_less hg hi 2
    by_cases htwo : k < 2
    · have hfib : ∀ k < 2, k.fib = k := by decide
      rw [decide_eq_true ((ofInt_lt_two hk).mpr htwo)] at htest
      rw [hfib k htwo]
      refine ⟨entered session s (.ofInt k), returns_coded hd ?_, extends_entered session s _⟩
      exact gives_choice rfl htest (gives_argument hg hi)
    · obtain ⟨j, rfl⟩ : ∃ j, k = j + 2 := ⟨k - 2, by omega⟩
      rw [decide_eq_false (mt (ofInt_lt_two hk).mp htwo)] at htest
      obtain ⟨s₁, hreturns₁, hextends₁⟩ := ih (j + 1) (by omega) _ (by omega) hi.outer
      have hi₁ := hi.mono hextends₁
      obtain ⟨s₂, hreturns₂, hextends₂⟩ := ih j (by omega) _ (by omega) hi₁.outer
      have hpred₁ : Int64.ofInt (j + 2 : Nat) - 1 = .ofInt (j + 1 : Nat) := ofInt_sub_ofInt (Nat.le_add_left 1 (j + 1))
      have hpred₂ : Int64.ofInt (j + 2 : Nat) - 2 = .ofInt j := ofInt_sub_ofInt (Nat.le_add_left 2 j)
      rw [← hpred₁] at hreturns₁
      rw [← hpred₂] at hreturns₂
      have hbody := gives_plus hg hi (gives_self hg hd (by decide +kernel) hi hreturns₁)
        (gives_self hg hd (by decide +kernel) hi₁ hreturns₂)
      rw [← Int64.ofInt_add, ← Nat.cast_add, Nat.add_comm (Nat.fib _), ← Nat.fib_add_two] at hbody
      refine ⟨s₂, returns_coded hd ?_, ((extends_entered session s _).trans hextends₁).trans hextends₂⟩
      exact gives_choice rfl htest hbody

end Body

def callText (raw : String) (n : Int64) : String :=
  "(" ++ raw ++ " " ++ String.ofList (Decimal.ofInt n.toInt) ++ ")"

theorem first?_callText {t : SymbolTable} {raw : String} (h : Word t raw) (n : Int64) :
    ∃ offset, Reading.first? (callText raw n) =
      some ⟨.ok (.pair (.literal raw) (.pair (.literal (String.ofList (Decimal.ofInt n.toInt))) .nil)), offset⟩ := by
  let digits := Decimal.ofInt n.toInt
  have reads (text : String) : Expecting.Reads [.literal text] (.literal text) :=
    ⟨[], .literal text, rfl, fun os => ⟨_, rfl, rfl⟩⟩
  have close (rest : List Char) : Lexeme.Delimited ([')'] ++ rest) := by simp [Lexeme.Delimited, Mode.isDelimiter]
  have blank (rest : List Char) : Lexeme.Delimited ((' ' :: (digits ++ [')'])) ++ rest) := by
    simp [Lexeme.Delimited, show Mode.isDelimiter ' ' = true by decide]
  have hname := Lexeme.yields_literal h.nonempty (by simpa using h.undelimited) h.undotted
  rw [String.ofList_toList] at hname
  have hend := (Expr.yields_number n.toInt).append Lexeme.yields_close (fun rest _ => close rest) (by simp)
  have hrest := hname.append hend.blank (fun rest _ => blank rest) (by simp)
  have hall := Lexeme.Yields.cons (c := '(') (t := .leftParen) (fun _ => rfl) rfl hrest (by simp)
  have htext : '(' :: (raw.toList ++ ' ' :: (digits ++ [')'])) = (callText raw n).toList := by
    simp [callText, digits]
  rw [htext] at hall
  have hreads := Expr.Ends.list (reads raw) (Expr.Ends.cons (reads (String.ofList digits)) Expr.ends_close)
  rw [← hall.scan.1] at hreads
  obtain ⟨l, -, hnext⟩ := Reading.next_of_reads hreads
  have hfirst := hnext (callText raw n).utf8ByteSize []
  rw [List.append_nil] at hfirst
  exact ⟨l.stop, by rw [Reading.first?, hfirst]; rfl⟩

theorem realize_callText {m : Machine} {raw : String} (h : Word m.session.symbols raw) (n : Int64) :
    ∃ e, e.bare = call m.session.symbols raw [.number n] ∧
      (Machine.realize (.pair (.literal raw) (.pair (.literal (String.ofList (Decimal.ofInt n.toInt))) .nil)) :
        Run Error Machine Expr) m = .value e { m with world.next := m.world.next + 2 } := by
  have hname (k : Ident) : (Datum.literal raw).toExpr ⟨m.session.symbols, k⟩ =
      (.symbol (name m.session.symbols raw), ⟨m.session.symbols, k⟩) := by
    simp [Datum.toExpr, Datum.literalExpr, h.no_number, name, SymbolTable.intern, h.known]
  have hnumber (k : Ident) : (Datum.literal (String.ofList (Decimal.ofInt n.toInt))).toExpr ⟨m.session.symbols, k⟩ =
      (.number n, ⟨m.session.symbols, k⟩) := by
    simp [Datum.toExpr, Datum.literalExpr, Decimal.toInt64?_ofInt]
  have bind_apply (x : Meaning) (f : Expr → Meaning) (s : Supply) : (x >>= f) s = f (x s).1 (x s).2 := rfl
  have hcall : (Datum.pair (.literal raw) (.pair (.literal (String.ofList (Decimal.ofInt n.toInt))) .nil)).toExpr
      ⟨m.session.symbols, m.world.next⟩ =
      (.pair (m.world.next + 1) (.symbol (name m.session.symbols raw))
        (.pair m.world.next (.number n) (.nil m.session.symbols.id)), ⟨m.session.symbols, m.world.next + 2⟩) := by
    rw [Datum.toExpr, bind_apply, hname, bind_apply, Datum.toExpr, bind_apply, hnumber]
    rfl
  refine ⟨.pair (m.world.next + 1) (.symbol (name m.session.symbols raw))
    (.pair m.world.next (.number n) (.nil m.session.symbols.id)), rfl, ?_⟩
  rw [Machine.realize, hcall]

def Computes (m : Machine) (raw : String) (F : Nat → Nat) : Prop :=
  ∀ n : Int64, 0 ≤ n.toInt → ∃ v m', m.Evaluates (callText raw n) (.number v) m' ∧
    Wraps (F n.toInt.toNat) v ∧ m'.session = m.session ∧
    m'.world.scopes.all[m.session.global]? = m.world.scopes.all[m.session.global]?

theorem Implements.computes {m : Machine} {g : Scope} {raw : String} {code f : Expr} {F : Nat → Nat}
    (h : Implements m.session g f F) (hg : Setting m.session g) (hd : Defines m.session g raw code f)
    (hm : m.world.scopes.all[m.session.global]? = some g) : Computes m raw F := by
  intro n hn
  obtain ⟨k, hk⟩ := Int.eq_ofNat_of_zero_le hn
  have hlt : k < 2 ^ 63 := by
    have hn := n.toInt_lt
    omega
  have hword : Int64.ofInt k = n := by rw [← hk, Int64.ofInt_toInt]
  obtain ⟨offset, hread⟩ := first?_callText hd.word n
  obtain ⟨e, he, hreal⟩ := realize_callText hd.word n
  obtain ⟨s, hreturns, hextends⟩ := h k ⟨m.world.scopes, m.world.next + 2⟩ hlt hm
  rw [hword] at hreturns
  have hprobe := (Scopes.probe_outermost hm hg.outermost (name m.session.symbols raw)).trans hd.bound
  have hgives : Gives m.session m.session.global (call m.session.symbols raw [.number n])
      ⟨m.world.scopes, m.world.next + 2⟩ (.number (.ofInt (F k))) s :=
    gives_call hd.callable hprobe (.cons (gives_number n) (.nil _)) hreturns
  have hevaluates := Machine.evaluates_of_performs hread hreal (hgives e he)
  refine ⟨.ofInt (F k), _, hevaluates, ?_, rfl, ?_⟩
  · rw [hk, Int.toNat_natCast]
    exact wraps_ofInt _
  · rw [hm]
    exact hextends _ _ hm

def Ready (m : Machine) : Prop :=
  ∃ g ∈ m.world.scopes.all[m.session.global]?, Setting m.session g ∧
    (∃ f ∈ g.get? (name m.session.symbols "fact"),
      Defines m.session g "fact" (factorialCode m.session.symbols) f) ∧
    ∃ f ∈ g.get? (name m.session.symbols "fib"), Defines m.session g "fib" (fibonacciCode m.session.symbols) f

instance (m : Machine) : Decidable (Ready m) :=
  inferInstanceAs (Decidable (∃ g ∈ m.world.scopes.all[m.session.global]?, _))

theorem ready_after :
    ∃ p₁ ∈ (Machine.evaluateFirst 1 factorialSource (.start .closed)).value?,
      ∃ p₂ ∈ (Machine.evaluateFirst 1 fibonacciSource p₁.2).value?, Ready p₂.2 := by
  decide +kernel

theorem Ready.computes {m : Machine} (h : Ready m) : Computes m "fact" Nat.factorial ∧ Computes m "fib" Nat.fib := by
  obtain ⟨g, hm, hg, ⟨f₁, -, h₁⟩, ⟨f₂, -, h₂⟩⟩ := h
  exact ⟨(implements_factorial hg h₁).computes hg h₁ hm, (implements_fibonacci hg h₂).computes hg h₂ hm⟩

/-- In a fresh session the two definitions succeed, and from then on the functions compute the factorials and
the Fibonacci numbers of all words that are not negative. -/
theorem recursion_computes (sink : Sink) :
    ∃ x₁ m₁ x₂ m₂, (Machine.start sink).Evaluates factorialSource x₁ m₁ ∧ m₁.Evaluates fibonacciSource x₂ m₂ ∧
      Computes m₂ "fact" Nat.factorial ∧ Computes m₂ "fib" Nat.fib := by
  obtain ⟨⟨x₁, m₁⟩, hm₁, ⟨x₂, m₂⟩, hm₂, hready⟩ := ready_after
  have hstart : Machine.start sink = (Machine.start .closed).withSink sink := by
    simp only [Machine.start, Machine.join, World.initial, Machine.withSink]
  obtain ⟨k₁, h₁⟩ := Machine.evaluates_withSink (Outcome.value?_eq_some_iff.mp hm₁) sink
  obtain ⟨k₂, h₂⟩ := Machine.evaluates_withSink (Outcome.value?_eq_some_iff.mp hm₂) k₁
  have hready : Ready (m₂.withSink k₂) := hready
  rw [← hstart] at h₁
  exact ⟨x₁, _, x₂, _, h₁, h₂, hready.computes⟩

theorem recursion_computes_beyond_words :
    ∃ x₁ m₁ x₂ m₂ m₃ m₄, (Machine.start .closed).Evaluates factorialSource x₁ m₁ ∧
      m₁.Evaluates fibonacciSource x₂ m₂ ∧ m₂.Evaluates "(fact 21)" (.number (-4249290049419214848)) m₃ ∧
      m₂.Evaluates "(fib 100)" (.number 3736710778780434371) m₄ := by
  obtain ⟨x₁, m₁, x₂, m₂, h₁, h₂, hfact, hfib⟩ := recursion_computes .closed
  obtain ⟨v, m₃, h₃, hv, -⟩ := hfact 21 (by decide)
  obtain ⟨u, m₄, h₄, hu, -⟩ := hfib 100 (by decide)
  rw [← (hv (-4249290049419214848)).mp (by decide +kernel),
    show callText "fact" 21 = "(fact 21)" by decide +kernel] at h₃
  rw [← (hu 3736710778780434371).mp (by decide +kernel),
    show callText "fib" 100 = "(fib 100)" by decide +kernel] at h₄
  exact ⟨x₁, m₁, x₂, m₂, m₃, m₄, h₁, h₂, h₃, h₄⟩

end Recursion

end Lisp
