import Lisp.Proofs.Readings
import Lisp.Proofs.Runs
import Lisp.Repl

namespace Lisp

namespace Reading

open Text (byteSize Lined)

def settled (size done : Nat) : List Reading → Nat
  | [] => size
  | r :: rs => if r.isIncomplete then done else settled size r.offset rs

def isUnfinished : Except ReadError Datum → Bool
  | .ok _ => false
  | .error e => e.isIncomplete

def complete (rs : List Reading) : List Reading :=
  rs.takeWhile (fun r => !r.isIncomplete)

theorem complete_cons (r : Reading) (rs : List Reading) :
    complete (r :: rs) = if r.isIncomplete then [] else r :: complete rs := by
  cases h : r.isIncomplete <;> simp [complete, h]

theorem complete_results (rs : List Reading) : ∀ x ∈ (complete rs).map result, isUnfinished x = false := by
  induction rs with
  | nil => simp [complete]
  | cons r rs ih =>
    rw [complete_cons]
    cases hr : r.isIncomplete with
    | true => simp
    | false =>
      have hx : isUnfinished r.result = false := hr
      simpa [hx] using ih

/-- The text holds nothing, or one expression that wants more input. -/
def Waiting (cs : List Char) : Prop :=
  (ofString (String.ofList cs)).map result = [] ∨
    ∃ e : ReadError, e.isIncomplete = true ∧ (ofString (String.ofList cs)).map result = [.error e]

theorem isIncomplete_iff {r : Reading} :
    r.isIncomplete = true ↔ ∃ e : ReadError, e.isIncomplete = true ∧ r.result = .error e := by
  unfold isIncomplete
  cases r.result with
  | ok d => simp
  | error e => simp

/-- Setting the complete readings of some lines aside and reading the rest of them together with
what follows is reading all of it. -/
theorem resume {cs ds : List Char} (hd : Lined cs ∨ ds = []) (before : List Char) (size : Nat)
    (hs : size = byteSize (before ++ cs)) (size' : Nat) :
    let rs := all size .initial (Lexeme.scanFrom .between (byteSize before) cs)
    let rest := Text.dropBytes (settled size (byteSize before) rs) (before ++ cs)
    (all size' .initial (Lexeme.scanFrom .between (byteSize before) (cs ++ ds))).map result =
      (complete rs).map result ++ (ofString (String.ofList (rest ++ ds))).map result ∧ Waiting rest := by
  dsimp only
  rw [all_eq_next size .initial]
  cases hn : next size .initial (Lexeme.scanFrom .between (byteSize before) cs) with
  | none =>
    simp only [settled, hs, Text.dropBytes_byteSize]
    refine ⟨?_, .inl rfl⟩
    rw [scan_nothing hn hd, all_result_scan]
    rfl
  | some p =>
    obtain ⟨r, ls⟩ := p
    cases hr : r.isIncomplete with
    | true =>
      obtain rfl := next_incomplete hn hr
      simp only [settled, complete_cons, hr, if_true, Text.dropBytes_append, List.map_nil, List.nil_append]
      refine ⟨all_result_scan _ _ _, .inr ?_⟩
      obtain ⟨e, he, hre⟩ := isIncomplete_iff.mp hr
      refine ⟨e, he, ?_⟩
      rw [← all_result_scan size (byteSize before), all_eq_next, hn]
      simp [all, Expecting.initial, Expecting.isInitial, hre]
    | false =>
      obtain ⟨first, after, rfl, hne, hoff, rfl, hext⟩ := next_complete hn hr hd
      have hlen : after.length < (first ++ after).length := by
        simp [List.length_pos_iff.mpr hne]
      rw [← Text.byteSize_append] at hoff
      have hd' : Lined after ∨ ds = [] := hd.imp_left Lined.of_append
      have ih := resume hd' (before ++ first) size (by rw [hs, List.append_assoc]) size'
      dsimp only at ih
      rw [all_eq_next size', hext size']
      simp only [settled, complete_cons, hr, hoff, Bool.false_eq_true, if_false, List.map_cons, List.cons_append]
      rw [← List.append_assoc]
      exact ⟨congrArg _ ih.1, ih.2⟩
termination_by cs.length

theorem ofString_resume (text : String) {ds : List Char} (hd : Lined text.toList ∨ ds = []) :
    let rest := Text.dropBytes (settled text.utf8ByteSize 0 (ofString text)) text.toList
    (ofString (String.ofList (text.toList ++ ds))).map result =
      (complete (ofString text)).map result ++ (ofString (String.ofList (rest ++ ds))).map result ∧ Waiting rest := by
  have h := resume hd [] text.utf8ByteSize (Text.utf8ByteSize_eq text) 0
  rw [List.nil_append, Text.byteSize_nil, all_result_scan] at h
  exact h

theorem results_finished (source : String) :
    ∀ x ∈ ((ofString source).map result).dropLast, isUnfinished x = false := by
  obtain ⟨hsplit, hwait⟩ := @ofString_resume source [] (.inr rfl)
  rw [List.append_nil, List.append_nil, String.ofList_toList] at hsplit
  have hcomplete := complete_results (ofString source)
  rw [hsplit]
  rcases hwait with hnone | ⟨e, -, hsome⟩
  · rw [hnone, List.append_nil]
    exact fun x hx => hcomplete x (List.dropLast_subset _ hx)
  · rw [hsome, List.dropLast_concat]
    exact hcomplete

theorem Waiting.incomplete {p : String} (h : Waiting p.toList) : ∀ r ∈ ofString p, r.isIncomplete = true := by
  intro r hr
  rw [Waiting, String.ofList_toList] at h
  rcases h with h | ⟨e, he, h⟩
  · rw [List.map_eq_nil_iff] at h
    simp [h] at hr
  · obtain ⟨x, hx, hxe⟩ := List.map_eq_singleton_iff.mp h
    rw [hx, List.mem_singleton] at hr
    exact isIncomplete_iff.mpr ⟨e, he, hr ▸ hxe⟩

theorem first?_eq (source : String) : first? source = (ofString source).head? := by
  rw [first?, ofString, all_eq_next]
  cases next source.utf8ByteSize .initial (Lexeme.scan source) <;> rfl

end Reading

def Expr.CallsPrint (e : Expr) : Prop :=
  ∃ i x tail, e = .pair i (.symbol x) tail ∧ x.name = "PRINT"

namespace Repl

open Reading (settled complete complete_cons complete_results isUnfinished Waiting)

variable {α β : Type}

theorem isPrintCall_iff {e : Expr} : isPrintCall e = true ↔ e.CallsPrint := by
  constructor
  · intro h
    unfold isPrintCall at h
    split at h
    · exact ⟨_, _, _, rfl, beq_iff_eq.mp h⟩
    · cases h
  · rintro ⟨i, x, tail, rfl, hx⟩
    exact beq_iff_eq.mpr hx

instance (e : Expr) : Decidable e.CallsPrint :=
  decidable_of_iff (isPrintCall e = true) isPrintCall_iff

def reply (e : Expr) : Except Error Expr → Option String
  | .ok v => if e.CallsPrint then none else some ("=> " ++ v.print ++ "\n")
  | .error err => some ("Error: " ++ err.message ++ "\n")

def respond (depth : Nat) : Except ReadError Datum → Run InputOutputError Machine (Option String)
  | .ok d => do
    let e ← Machine.realize d
    pure (reply e (← (Machine.evaluate depth e).attempt))
  | .error e => pure (some ("Error: " ++ (Error.read e).message ++ "\n"))

def say : Option String → Run InputOutputError Repl Unit
  | none => pure ()
  | some line => write line

/-- What the readings of one reader over a whole input call for. The first that wants more input is the
last. -/
def narrate (depth : Nat) : List (Except ReadError Datum) → Run InputOutputError Repl Unit
  | [] => pure ()
  | x :: xs => do
    say (← within (respond depth x))
    if isUnfinished x then pure () else narrate depth xs

theorem within_bind (x : Run InputOutputError Machine α) (f : α → Run InputOutputError Machine β) :
    within (x >>= f) = within x >>= fun a => within (f a) := by
  funext r
  simp only [within, Run.zoom, Run.bind_apply]
  cases x r.machine <;> rfl

theorem within_value {x : Run InputOutputError Machine α} {r : Repl} {a : α} {m : Machine}
    (h : x r.machine = .value a m) : within x r = .value a { r with machine := m } := by
  rw [within, Run.zoom, h]

theorem respond_realized {d : Datum} {e : Expr} {m m₁ : Machine}
    (h : (Machine.realize d : Run Error Machine Expr) m = .value e m₁) (depth : Nat) :
    respond depth (.ok d) m = match Machine.evaluateIn depth m₁.session.global e m₁ with
      | .value v m₂ => .value (reply e (.ok v)) m₂
      | .error err m₂ => .value (reply e (.error err)) m₂
      | .exhausted => .exhausted := by
  have hglobal : Machine.evaluateIn depth m₁.session.global e m₁ = Machine.evaluate depth e m₁ := rfl
  have hreply : respond depth (.ok d) m =
      ((Machine.evaluate depth e).attempt >>= fun res => pure (reply e res)) m₁ := by
    cases h
    rfl
  rw [hglobal, hreply, Run.bind_apply, Run.attempt]
  cases Machine.evaluate depth e m₁ <;> rfl

theorem report_eq (depth : Nat) (e : Expr) :
    report depth e = within (Machine.evaluate depth e).attempt >>= fun res => say (reply e res) := by
  rw [report]
  congr 1
  funext res
  cases res with
  | error err => rfl
  | ok v =>
    simp only [reply, isPrintCall_iff]
    split <;> rfl

theorem settle_cons (depth size done offset : Nat) (x : Except ReadError Datum) (rs : List Reading) :
    settle depth size done (⟨x, offset⟩ :: rs) = if isUnfinished x then pure done else (do
      say (← within (respond depth x))
      settle depth size offset rs) := by
  cases x with
  | error e => rfl
  | ok d =>
    simp only [settle, respond, report_eq, within_bind, bind_assoc]
    rfl

theorem settle_eq (depth size done : Nat) (rs : List Reading) :
    settle depth size done rs = (do
      narrate depth ((complete rs).map Reading.result)
      pure (settled size done rs)) := by
  induction rs generalizing done with
  | nil => rfl
  | cons r rs ih =>
    obtain ⟨x, offset⟩ := r
    have hx : (⟨x, offset⟩ : Reading).isIncomplete = isUnfinished x := rfl
    rw [settle_cons, ih, complete_cons, settled, hx]
    cases hlast : isUnfinished x with
    | true => rfl
    | false => simp [narrate, hlast]

theorem narrate_append (depth : Nat) {xs : List (Except ReadError Datum)} (hxs : ∀ x ∈ xs, isUnfinished x = false)
    (ys : List (Except ReadError Datum)) :
    narrate depth (xs ++ ys) = narrate depth xs >>= fun _ => narrate depth ys := by
  induction xs with
  | nil => rfl
  | cons x xs ih =>
    obtain ⟨hx, hxs⟩ := List.forall_mem_cons.mp hxs
    simp [narrate, hx, ih hxs]

def withPending (p : String) (r : Repl) : Repl :=
  { r with pending := p }

def Steady (x : Run InputOutputError Repl α) : Prop :=
  ∀ p r, x (r.withPending p) = (x r).mapState (withPending p)

theorem Steady.bind {x : Run InputOutputError Repl α} {f : α → Run InputOutputError Repl β}
    (hx : Steady x) (hf : ∀ a, Steady (f a)) : Steady (x >>= f) := by
  intro p r
  rw [Run.bind_apply, Run.bind_apply, hx p r]
  cases x r with
  | value a r' => exact hf a p r'
  | error e r' => rfl
  | exhausted => rfl

theorem Steady.pending {x : Run InputOutputError Repl α} (hx : Steady x) {r r' : Repl} {a : α}
    (h : x r = .value a r') : r'.pending = r.pending := by
  have hsame := hx r.pending r
  rw [show r.withPending r.pending = r from rfl, h] at hsame
  obtain ⟨-, hr'⟩ := Outcome.value.inj hsame
  rw [hr']
  rfl

theorem steady_within (x : Run InputOutputError Machine α) : Steady (within x) := by
  intro p r
  simp only [within, Run.zoom, withPending]
  cases x r.machine <;> rfl

theorem steady_write (text : String) : Steady (write text) := by
  intro p r
  have hs : (r.withPending p).sink = r.sink := rfl
  simp only [write, hs]
  cases r.sink.write? text with
  | none => rfl
  | some sink =>
    obtain ⟨m, channel, pending⟩ := r
    cases channel <;> rfl

theorem steady_say (line : Option String) : Steady (say line) := by
  cases line with
  | none => exact fun _ _ => rfl
  | some line => exact steady_write line

theorem steady_narrate (depth : Nat) (xs : List (Except ReadError Datum)) : Steady (narrate depth xs) := by
  induction xs with
  | nil => exact fun _ _ => rfl
  | cons x xs ih =>
    refine (steady_within _).bind fun line => (steady_say line).bind fun _ => ?_
    split
    · exact fun _ _ => rfl
    · exact ih

theorem finish_quiet (depth : Nat) {r : Repl} (h : Waiting r.pending.toList) :
    finish .quiet r = narrate depth ((Reading.ofString r.pending).map Reading.result) r := by
  rw [Waiting, String.ofList_toList] at h
  have hf := Reading.first?_eq r.pending
  simp only [finish, Run.get, Run.bind_apply, hf]
  rcases h with h | ⟨e, he, h⟩
  · rw [List.map_eq_nil_iff] at h
    simp [h, narrate, Options.quiet]
  · obtain ⟨⟨v, offset⟩, hr, rfl⟩ := List.map_eq_singleton_iff.mp h
    have hsay : narrate depth [.error e] = write (failureLine (.read e)) >>= fun _ => pure () := by
      simp only [narrate, isUnfinished, he]
      rfl
    simp only [hr, List.map_singleton, hsay]
    rfl

theorem feed_eq (depth : Nat) (line : String) (r : Repl) :
    let text := r.pending ++ line
    let k := settled text.utf8ByteSize 0 (Reading.ofString text)
    feed depth line r = (do
      narrate depth ((complete (Reading.ofString text)).map Reading.result)
      Run.modify (withPending (String.ofList (Text.dropBytes k text.toList)))) r := by
  dsimp only
  simp only [feed, Run.get, settle_eq, Run.bind_apply]
  cases narrate depth ((complete (Reading.ofString (r.pending ++ line))).map Reading.result) r <;> rfl

theorem feed_resume (depth : Nat) {l : List Char} {ls : List (List Char)} (hb : Text.Broken (l :: ls)) (r : Repl) :
    ∃ (xs : List (Except ReadError Datum)) (rest : String), (∀ x ∈ xs, isUnfinished x = false) ∧ Waiting rest.toList ∧
      feed depth (String.ofList l) r = (narrate depth xs >>= fun _ => Run.modify (withPending rest)) r ∧
      (Reading.ofString (String.ofList (r.pending.toList ++ (l :: ls).flatten))).map Reading.result =
        xs ++ (Reading.ofString (String.ofList (rest.toList ++ ls.flatten))).map Reading.result := by
  obtain ⟨hl, hlined, -⟩ := hb
  have hlined' : Text.Lined (r.pending ++ String.ofList l).toList ∨ ls.flatten = [] := by
    rcases hlined with hlined | rfl
    · exact .inl (by simpa using hlined.append r.pending.toList hl)
    · exact .inr rfl
  have htext : r.pending.toList ++ (l :: ls).flatten = (r.pending ++ String.ofList l).toList ++ ls.flatten := by
    simp
  obtain ⟨hsplit, hwait⟩ := Reading.ofString_resume (r.pending ++ String.ofList l) hlined'
  refine ⟨_, _, complete_results _, ?_, feed_eq depth (String.ofList l) r, ?_⟩
  · rw [String.toList_ofList]
    exact hwait
  · rw [htext, hsplit, String.toList_ofList]

theorem narrate_pending (depth : Nat) (xs : List (Except ReadError Datum)) (r : Repl) :
    narrate depth xs r = (narrate depth xs r).mapState (withPending r.pending) :=
  steady_narrate depth xs r.pending r

theorem loop_quiet (depth : Nat) {ls : List (List Char)} (hb : Text.Broken ls) {r : Repl}
    (hw : Waiting r.pending.toList) :
    ∃ p : String, Waiting p.toList ∧
      loop depth .quiet (ls.map (fun l => some (String.ofList l))) r =
        (narrate depth ((Reading.ofString (String.ofList (r.pending.toList ++ ls.flatten))).map Reading.result)
          r).mapState (withPending p) := by
  induction ls generalizing r with
  | nil =>
    refine ⟨r.pending, hw, ?_⟩
    rw [List.flatten_nil, List.append_nil, String.ofList_toList, ← narrate_pending, ← finish_quiet depth hw]
    rfl
  | cons l ls ih =>
    have hloop : loop depth .quiet ((l :: ls).map (fun l => some (String.ofList l))) r =
        (feed depth (String.ofList l) >>= fun _ => loop depth .quiet (ls.map (fun l => some (String.ofList l)))) r := rfl
    obtain ⟨xs, rest, hxs, hwait, hfeed, hwhole⟩ := feed_resume depth hb r
    have hp := narrate_pending depth xs r
    rw [hloop, Run.bind_apply, hfeed, hwhole, narrate_append depth hxs, Run.bind_apply, Run.bind_apply]
    cases hn : narrate depth xs r with
    | value u r' =>
      obtain ⟨p, hwp, heq⟩ := ih hb.2.2 hwait (r := r'.withPending rest)
      refine ⟨p, hwp, ?_⟩
      exact heq.trans (by rw [steady_narrate, Outcome.mapState_mapState]; rfl)
    | error e r' =>
      rw [hn] at hp
      exact ⟨r.pending, hw, hp⟩
    | exhausted => exact ⟨r.pending, hw, rfl⟩

theorem run_quiet (depth : Nat) (source : String) (m : Machine) (channel : Channel) :
    ∃ p, Waiting p.toList ∧ run depth .quiet (Text.encode source) (start m channel) =
      (narrate depth ((Reading.ofString source).map Reading.result) (start m channel)).mapState (withPending p) := by
  obtain ⟨p, hp, hloop⟩ := loop_quiet depth (Text.charLines_broken source.toList) (r := start m channel) (.inl rfl)
  have hsource : String.ofList ((start m channel).pending.toList ++ source.toList) = source :=
    String.ofList_toList
  rw [← Text.decode_lines_encode, Text.charLines_flatten, hsource] at hloop
  exact ⟨p, hp, hloop⟩

end Repl

end Lisp
