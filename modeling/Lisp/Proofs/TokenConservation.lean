import Lisp.Proofs.ReadingLoops
import Lisp.Proofs.RecursiveDescent

namespace Lisp

namespace Reader

open Text (byteSize Boundary)
open Reading (next all)

def between (before after : List Char) : Reader :=
  ⟨byteSize (before ++ after), Lexeme.scanFrom .between (byteSize before) after, none, byteSize before⟩

theorem ofString_eq_between (source : String) : ofString source = between [] source.toList := by
  rw [ofString, Text.utf8ByteSize_eq]
  rfl

def call (depth : Nat) : Run Empty Reader (Except ReadError (Option Datum)) :=
  (expression depth).attempt

theorem call_nil (depth size offset : Nat) :
    call depth ⟨size, [], none, offset⟩ = .value (.ok none) ⟨size, [], none, size⟩ := rfl

theorem call_of_next {depth size : Nat} {ls rest : List Lexeme} {reading : Reading}
    (hd : 3 * ls.length ≤ depth) (hn : next size .initial ls = some (reading, rest)) (offset : Nat) :
    call depth ⟨size, ls, none, offset⟩ =
      .value (reading.result.map some) ⟨size, rest, none, reading.offset⟩ := by
  rw [call, Run.attempt, expression_eq_next hd, hn]
  obtain ⟨e | d, k⟩ := reading <;> rfl

structure Took (block : List Lexeme) (reading : Reading) (r r' : Reader) : Prop where
  nonempty : block ≠ []
  lexemes : r.lexemes = block ++ r'.lexemes
  offset : r'.offset = reading.offset
  advance : r.offset < r'.offset
  stop : reading.result ≠ .error .endOfInput → ∃ l ∈ block.getLast?, r'.offset = l.stop
  size : reading.result = .error .endOfInput → r'.offset = r.size

theorem took_all {before after : List Char} (h : (between before after).lexemes ≠ []) :
    Took (between before after).lexemes ⟨.error .endOfInput, byteSize (before ++ after)⟩ (between before after)
      (between (before ++ after) []) where
  nonempty := h
  lexemes := (List.append_nil _).symm
  offset := rfl
  advance := by
    have hafter : after ≠ [] := by
      rintro rfl
      exact h rfl
    exact Text.byteSize_lt_append hafter before
  stop := fun hne => absurd rfl hne
  size := fun _ => rfl

theorem took_block {before after : List Char} {p ls : List Lexeme} {l : Lexeme} {v : Except ReadError Datum}
    (h : (between before after).lexemes = p ++ l :: ls) (hv : v ≠ .error .endOfInput) :
    ∃ mid rest, after = mid ++ rest ∧ mid ≠ [] ∧ ls = (between (before ++ mid) rest).lexemes ∧
      Took (p ++ [l]) ⟨v, l.stop⟩ (between before after) (between (before ++ mid) rest) := by
  obtain ⟨mid, rest, rfl, hstop, hls, hne⟩ := Lexeme.scanFrom_restart h
  have hmid := hne rfl
  rw [← Text.byteSize_append] at hstop
  rw [hstop] at hls
  refine ⟨mid, rest, rfl, hmid, hls, ?_⟩
  constructor
  · simp
  · rw [h, hls, List.append_assoc]
    rfl
  · exact hstop.symm
  · exact Text.byteSize_lt_append hmid before
  · intro _
    exact ⟨l, by simp, hstop.symm⟩
  · intro hend
    exact absurd hend hv

theorem took_next {before after : List Char} (h : (between before after).lexemes ≠ []) :
    ∃ block reading mid rest, after = mid ++ rest ∧ mid ≠ [] ∧
      next (byteSize (before ++ after)) .initial (between before after).lexemes =
        some (reading, (between (before ++ mid) rest).lexemes) ∧
      Took block reading (between before after) (between (before ++ mid) rest) := by
  rcases Reading.next_cases .initial (between before after).lexemes with
    ⟨e, he, hn⟩ | ⟨p, l, ls, e, v, hls, -, hv, hn⟩
  · have hn := hn (byteSize (before ++ after))
    rw [Expecting.shifts_isInitial he (by simpa using h)] at hn
    refine ⟨_, _, after, [], (List.append_nil _).symm, ?_, hn, took_all h⟩
    rintro rfl
    exact h rfl
  · have hend : v ≠ .error .endOfInput := by
      rintro rfl
      exact Expecting.step_ne_endOfInput hv
    obtain ⟨mid, rest, rfl, hmid, hrest, htook⟩ := took_block hls hend
    have hn := hn (byteSize (before ++ (mid ++ rest))) ls
    rw [← hls, hrest] at hn
    exact ⟨_, _, mid, rest, rfl, hmid, hn, htook⟩

theorem call_cases {depth : Nat} {before after : List Char} (hd : 3 * (between before after).lexemes.length ≤ depth) :
    ((between before after).lexemes = [] ∧
      call depth (between before after) = .value (.ok none) (between (before ++ after) [])) ∨
    ∃ block reading mid rest, after = mid ++ rest ∧ mid ≠ [] ∧
      next (byteSize (before ++ after)) .initial (between before after).lexemes =
        some (reading, (between (before ++ mid) rest).lexemes) ∧
      call depth (between before after) = .value (reading.result.map some) (between (before ++ mid) rest) ∧
      Took block reading (between before after) (between (before ++ mid) rest) := by
  by_cases h : (between before after).lexemes = []
  · left
    refine ⟨h, ?_⟩
    change Lexeme.scanFrom .between (byteSize before) after = [] at h
    rw [between, h, call_nil, between, List.append_nil]
    rfl
  · right
    obtain ⟨block, reading, mid, rest, rfl, hmid, hn, htook⟩ := took_next h
    refine ⟨block, reading, mid, rest, rfl, hmid, hn, ?_, htook⟩
    have hcall := call_of_next hd hn (byteSize before)
    rw [← htook.offset, ← List.append_assoc] at hcall
    rw [between, ← List.append_assoc]
    exact hcall

structure Calls (depth : Nat) (r : Reader) where
  reader : Nat → Reader
  answer : Nat → Except ReadError (Option Datum)
  reader_zero : reader 0 = r
  call_reader : ∀ i, call depth (reader i) = .value (answer i) (reader (i + 1))

namespace Calls

variable {depth : Nat} {r r' : Reader}

def cons {a : Except ReadError (Option Datum)} (h : call depth r = .value a r') (c : Calls depth r') : Calls depth r where
  reader
    | 0 => r
    | i + 1 => c.reader i
  answer
    | 0 => a
    | i + 1 => c.answer i
  reader_zero := rfl
  call_reader
    | 0 => h.trans (congrArg (Outcome.value a) c.reader_zero.symm)
    | i + 1 => c.call_reader i

def idle (depth : Nat) (text : List Char) : Calls depth (between text []) where
  reader _ := between text []
  answer _ := .ok none
  reader_zero := rfl
  call_reader _ := by rw [between, List.append_nil]; rfl

/-- The calls take the tokens in blocks, one for each reading of the text, and find nothing from
then on. -/
structure Conserve (c : Calls depth r) (source : String) (blocks : List (List Lexeme)) (readings : List Reading) :
    Prop where
  flatten : blocks.flatten = r.lexemes
  length : blocks.length = readings.length
  length_le : readings.length ≤ r.lexemes.length
  pushback : ∀ i, (c.reader i).pushback = none
  boundary : ∀ i, Boundary source (c.reader i).offset
  took : ∀ i reading, readings[i]? = some reading → c.answer i = reading.result.map some ∧
    ∃ block ∈ blocks[i]?, Took block reading (c.reader i) (c.reader (i + 1))
  finished : ∀ i, readings.length ≤ i → c.answer i = .ok none ∧ (c.reader (i + 1)).offset = source.utf8ByteSize

variable {source : String}

theorem conserve_nothing {before after : List Char} (hs : source.toList = before ++ after)
    (hl : (between before after).lexemes = [])
    (h : call depth (between before after) = .value (.ok none) (between (before ++ after) [])) :
    ((idle depth (before ++ after)).cons h).Conserve source [] [] := by
  constructor
  · exact hl.symm
  · rfl
  · exact Nat.zero_le _
  · intro i
    cases i <;> rfl
  · intro i
    cases i with
    | zero => exact Text.boundary_of_append hs
    | succ i => exact Text.boundary_of_append (hs.trans (List.append_nil _).symm)
  · intro i reading hi
    simp at hi
  · intro i _
    have hsize : byteSize (before ++ after) = source.utf8ByteSize := by rw [Text.utf8ByteSize_eq, hs]
    cases i with
    | zero => exact ⟨rfl, hsize⟩
    | succ i => exact ⟨rfl, hsize⟩

theorem Conserve.cons {blocks : List (List Lexeme)} {readings : List Reading} {c : Calls depth r'}
    (hc : c.Conserve source blocks readings) {block : List Lexeme} {reading : Reading}
    (h : call depth r = .value (reading.result.map some) r') (ht : Took block reading r r')
    (hp : r.pushback = none) (hb : Boundary source r.offset) :
    (c.cons h).Conserve source (block :: blocks) (reading :: readings) := by
  constructor
  · rw [List.flatten_cons, hc.flatten, ht.lexemes]
  · rw [List.length_cons, List.length_cons, hc.length]
  · have hblock := List.length_pos_iff.mpr ht.nonempty
    have hle := hc.length_le
    rw [ht.lexemes, List.length_append, List.length_cons]
    omega
  · intro i
    cases i with
    | zero => exact hp
    | succ i => exact hc.pushback i
  · intro i
    cases i with
    | zero => exact hb
    | succ i => exact hc.boundary i
  · intro i x hi
    cases i with
    | zero =>
      obtain rfl : reading = x := by simpa using hi
      refine ⟨rfl, block, rfl, ?_⟩
      change Took block reading r (c.reader 0)
      rw [c.reader_zero]
      exact ht
    | succ i => exact hc.took i x hi
  · intro i hi
    cases i with
    | zero => simp at hi
    | succ i => exact hc.finished i (Nat.le_of_succ_le_succ hi)

end Calls

theorem exists_conserve {source : String} {depth : Nat} {before after : List Char}
    (hs : source.toList = before ++ after) (hd : 3 * (between before after).lexemes.length ≤ depth) :
    ∃ (c : Calls depth (between before after)) (blocks : List (List Lexeme)),
      c.Conserve source blocks (all (byteSize (before ++ after)) .initial (between before after).lexemes) := by
  rcases call_cases hd with ⟨hnil, hcall⟩ | ⟨block, reading, mid, rest, rfl, hmid, hn, hcall, htook⟩
  · rw [hnil]
    exact ⟨_, [], Calls.conserve_nothing hs hnil hcall⟩
  · have hlen : rest.length < (mid ++ rest).length := by
      simp [List.length_pos_iff.mpr hmid]
    have hd' : 3 * (between (before ++ mid) rest).lexemes.length ≤ depth := by
      rw [htook.lexemes, List.length_append] at hd
      omega
    obtain ⟨c, blocks, hc⟩ := exists_conserve (hs.trans (List.append_assoc _ _ _).symm) hd'
    rw [Reading.all_eq_next, hn]
    rw [List.append_assoc] at hc
    exact ⟨_, block :: blocks, hc.cons hcall htook rfl (Text.boundary_of_append hs)⟩
termination_by after.length

theorem Calls.Conserve.boundary_reading {depth : Nat} {r : Reader} {c : Calls depth r} {source : String}
    {blocks : List (List Lexeme)} {readings : List Reading} (hc : c.Conserve source blocks readings)
    {reading : Reading} (h : reading ∈ readings) : Boundary source reading.offset := by
  obtain ⟨i, hi⟩ := List.mem_iff_getElem?.mp h
  obtain ⟨-, block, -, ht⟩ := hc.took i reading hi
  rw [← ht.offset]
  exact hc.boundary (i + 1)

theorem exists_conserve_ofString (source : String) {depth : Nat} (hd : 3 * (Lexeme.scan source).length ≤ depth) :
    ∃ (c : Calls depth (.ofString source)) (blocks : List (List Lexeme)),
      c.Conserve source blocks (Reading.ofString source) := by
  have h := @exists_conserve source depth [] source.toList rfl hd
  rw [← ofString_eq_between, List.nil_append, ← Text.utf8ByteSize_eq] at h
  exact h

theorem settle_boundary {source : String} {depth done : Nat} {r r' : Repl}
    (h : Repl.settle depth source.utf8ByteSize 0 (Reading.ofString source) r = .value done r') :
    Boundary source done := by
  have hdone : Reading.settled source.utf8ByteSize 0 (Reading.ofString source) = done := by
    rw [Repl.settle_eq, Run.bind_apply] at h
    split at h
    · cases h
      rfl
    · cases h
    · cases h
  obtain ⟨c, blocks, hc⟩ := exists_conserve_ofString source (Nat.le_refl _)
  rw [← hdone]
  rcases Reading.settled_cases source.utf8ByteSize 0 (Reading.ofString source) with h | h | ⟨x, hx, h⟩
  · rw [h, Text.utf8ByteSize_eq]
    exact Text.boundary_of_append (List.append_nil _).symm
  · rw [h]
    exact Text.boundary_of_append (List.nil_append _).symm
  · rw [h]
    exact hc.boundary_reading hx

/-- Reading loses, repeats and skips no token, and it always comes to an end. -/
theorem calls_conserve_tokens (source : String) {depth : Nat} (hd : 3 * (Lexeme.scan source).length ≤ depth) :
    (∃ (c : Calls depth (.ofString source)) (blocks : List (List Lexeme)),
      c.Conserve source blocks (Reading.ofString source)) ∧
    (∀ m, Machine.parse source m ≠ .exhausted) ∧
    (∀ limit m, Machine.evaluateAll limit source m = .exhausted →
      ∃ before d offset after vs m', Reading.ofString source = before ++ ⟨.ok d, offset⟩ :: after ∧
        Machine.evaluateReadings limit before m = .value vs m' ∧
        (Machine.realize d >>= Machine.evaluate limit) m' = .exhausted) ∧
    (∀ limit r, Repl.settle limit source.utf8ByteSize 0 (Reading.ofString source) r = .exhausted →
      ∃ before d offset after k r', Reading.ofString source = before ++ ⟨.ok d, offset⟩ :: after ∧
        Repl.settle limit source.utf8ByteSize 0 before r = .value k r' ∧
        (Machine.realize d >>= Machine.evaluate limit) r'.machine = .exhausted) ∧
    ∀ limit r done r', Repl.settle limit source.utf8ByteSize 0 (Reading.ofString source) r = .value done r' →
      Boundary source done := by
  refine ⟨exists_conserve_ofString source hd, ?_, ?_, ?_, ?_⟩
  · intro m
    exact Machine.readings_ends _ m
  · intro limit m h
    exact Machine.evaluateReadings_exhausted h
  · intro limit r h
    exact Repl.settle_exhausted h
  · intro limit r done r' h
    exact settle_boundary h

theorem calls_conserve_tokens_malformed :
    3 * (Lexeme.scan "(a . b c) 'x").length ≤ 24 ∧
    ∃ c : Calls 24 (.ofString "(a . b c) 'x"), c.answer 0 = .error .expectedClose ∧
      c.answer 1 = .error .unexpectedClose ∧ c.answer 2 = .ok (some (.quoted (.literal "x"))) ∧
      ∀ i, 3 ≤ i → c.answer i = .ok none ∧ (c.reader (i + 1)).offset = 12 := by
  have hd : 3 * (Lexeme.scan "(a . b c) 'x").length ≤ 24 := by decide
  have hr : Reading.ofString "(a . b c) 'x" = [⟨.error .expectedClose, 8⟩, ⟨.error .unexpectedClose, 9⟩,
      ⟨.ok (.quoted (.literal "x")), 12⟩] := rfl
  obtain ⟨⟨c, blocks, hc⟩, -⟩ := calls_conserve_tokens "(a . b c) 'x" hd
  rw [hr] at hc
  exact ⟨hd, c, (hc.took 0 _ rfl).1, (hc.took 1 _ rfl).1, (hc.took 2 _ rfl).1, hc.finished⟩

end Reader

end Lisp
