import Lisp.Proofs.PendingInput

namespace Lisp

theorem Text.Broken.take {ls : List (List Char)} (h : Broken ls) (i : Nat) : Broken (ls.take i) := by
  induction ls generalizing i with
  | nil => simpa using h
  | cons l ls ih =>
    obtain ⟨hl, hlined, hls⟩ := h
    cases i with
    | zero => trivial
    | succ i =>
      refine ⟨hl, hlined.imp_right ?_, ih hls i⟩
      rintro rfl
      exact List.take_nil

namespace Repl

open Reading (unfinished? Leaves)
open Text (Broken Lined charLines)

/-- A stretch of what a loop writes. What the session prints to the sink of the loop is output too. -/
inductive Piece where
  | banner
  | prompt (more : Bool)
  | output (text : String)
  | lineBreak
  | farewell

namespace Piece

def text : Piece → String
  | banner => Repl.banner
  | prompt more => if more then "... " else "> "
  | output text => text
  | lineBreak => "\n"
  | farewell => Repl.farewell

def isOutput : Piece → Bool
  | output _ => true
  | _ => false

def prompt? : Piece → Option Bool
  | prompt more => some more
  | _ => none

theorem prompt?_prompt (more : Bool) : (prompt more).prompt? = some more := rfl

def shown (o : Options) : Piece → Bool
  | banner => o.banner
  | prompt _ => o.prompt
  | output _ => true
  | lineBreak => o.prompt
  | farewell => o.banner

end Piece

def transcript (ps : List Piece) : String :=
  String.join (ps.map Piece.text)

/-- Each line is asked for and answered. The prompt says whether the lines before want more input. -/
def exchanges (before : List Char) : List (List Char) → List String → List Piece
  | l :: ls, out :: outs =>
    .prompt (unfinished? (String.ofList before)).isSome :: .output out :: exchanges (before ++ l) ls outs
  | _, _ => []

def closing : Option ReadError → List Piece
  | some e => [.lineBreak, .output (failureLine (.read e)), .farewell]
  | none => [.farewell]

def conversation (ls : List (List Char)) (outs : List String) : List Piece :=
  let pending := unfinished? (String.ofList ls.flatten)
  .banner :: exchanges [] ls outs ++ .prompt pending.isSome :: closing pending

theorem exchanges_prompts (before : List Char) {ls : List (List Char)} {outs : List String}
    (h : outs.length = ls.length) :
    (exchanges before ls outs).filterMap Piece.prompt? =
      (List.range ls.length).map (fun i => (unfinished? (String.ofList (before ++ (ls.take i).flatten))).isSome) := by
  induction ls generalizing before outs with
  | nil => rfl
  | cons l ls ih =>
    cases outs with
    | nil => cases h
    | cons out outs =>
      have hrest := ih (before ++ l) (Nat.succ.inj h)
      simp only [List.append_assoc] at hrest
      rw [List.length_cons, List.range_succ_eq_map, List.map_cons, List.map_map, exchanges,
        List.filterMap_cons_some (Piece.prompt?_prompt _), List.filterMap_cons_none rfl, hrest, List.take_zero,
        List.flatten_nil, List.append_nil]
      rfl

theorem closing_prompts (pending : Option ReadError) : (closing pending).filterMap Piece.prompt? = [] := by
  cases pending <;> rfl

theorem conversation_prompts {ls : List (List Char)} {outs : List String} (h : outs.length = ls.length) :
    (conversation ls outs).filterMap Piece.prompt? =
      (List.range (ls.length + 1)).map (fun i => (unfinished? (String.ofList (ls.take i).flatten)).isSome) := by
  rw [conversation, List.filterMap_append, List.filterMap_cons_none rfl, exchanges_prompts [] h,
    List.filterMap_cons_some (Piece.prompt?_prompt _), closing_prompts, List.range_succ, List.map_append,
    List.map_singleton, List.take_length]
  rfl

def written (o : Options) (ps : List Piece) : String :=
  transcript (ps.filter (Piece.shown o))

theorem written_append (o : Options) (ps qs : List Piece) : written o (ps ++ qs) = written o ps ++ written o qs := by
  rw [written, List.filter_append, transcript, List.map_append, String.join_append]
  rfl

theorem written_singleton (o : Options) (p : Piece) : written o [p] = if p.shown o then p.text else "" := by
  cases h : p.shown o <;> simp [written, transcript, h]

theorem written_interactive (ps : List Piece) : written .interactive ps = transcript ps := by
  rw [written, List.filter_eq_self.mpr]
  intro p _
  cases p <;> rfl

theorem written_quiet (ps : List Piece) : written .quiet ps = transcript (ps.filter Piece.isOutput) := by
  have h : Piece.shown .quiet = Piece.isOutput := by
    funext p
    cases p <;> rfl
  rw [written, h]

section Adds

variable {o : Options} {r r' : Repl} {cs : List Char}

theorem adds_banner (o : Options) (r : Repl) : Adds (welcome o) r (written o [.banner]) () r := by
  rw [written_singleton]
  exact adds_welcome o r

theorem adds_prompt_piece (h : Leaves cs r.pending.toList) :
    Adds (prompt o) r (written o [.prompt (unfinished? (String.ofList cs)).isSome]) () r := by
  have htext : (Piece.prompt (unfinished? (String.ofList cs)).isSome).text =
      if r.pending.toList.all Text.isBlank then "> " else "... " := by
    have hb := h.blank_iff
    cases hu : unfinished? (String.ofList cs) with
    | none =>
      rw [hu] at hb
      rw [if_pos (hb.mpr rfl)]
      rfl
    | some e =>
      rw [hu] at hb
      rw [if_neg (fun hall => nomatch hb.mp hall)]
      rfl
  rw [written_singleton, htext]
  exact adds_prompt o r

theorem adds_finish (h : Leaves cs r.pending.toList) :
    Adds (finish o) r (written o (closing (unfinished? (String.ofList cs)))) () r := by
  have hfarewell : Adds (if o.banner then write farewell else pure ()) r (written o [.farewell]) () r := by
    rw [written_singleton]
    change Adds _ r (if o.banner then farewell else "") () r
    split
    · exact adds_write farewell r
    · exact adds_pure () r
  have hfirst := Reading.first?_eq r.pending
  rcases h.cases with ⟨hnil, hnone⟩ | ⟨e, offset, -, hsome, hrest⟩
  · rw [hnone]
    intro t
    rw [String.toList_eq_nil_iff.mp hnil] at hfirst
    simp only [finish, Run.get, Run.bind_apply, pending_withSink, String.toList_eq_nil_iff.mp hnil, hfirst]
    exact hfarewell t
  · rw [hsome]
    rw [String.ofList_toList] at hrest
    have hbreak : Adds (if o.prompt then write "\n" else pure ()) r (written o [.lineBreak]) () r := by
      rw [written_singleton]
      change Adds _ r (if o.prompt then "\n" else "") () r
      split
      · exact adds_write "\n" r
      · exact adds_pure () r
    have hparts : written o (closing (some e)) =
        written o [.lineBreak] ++ (failureLine (.read e) ++ written o [.farewell]) := by
      have hline : written o [.output (failureLine (.read e))] = failureLine (.read e) := written_singleton o _
      rw [← hline, ← written_append, ← written_append]
      rfl
    rw [hparts]
    intro t
    have hall := hbreak.bind (f := fun _ => do
      write (failureLine (.read e))
      if o.banner then write farewell) ((adds_write (failureLine (.read e)) r).bind hfarewell)
    simp only [finish, Run.get, Run.bind_apply, pending_withSink, hfirst, hrest, List.head?_cons]
    cases ho : o.prompt with
    | true =>
      rw [ho] at hall
      exact hall t
    | false =>
      rw [ho] at hall
      exact hall t

theorem Feeds.proceed {depth : Nat} {ls : List (List Char)} {outs : List String} (h : Feeds depth r ls outs r')
    (o : Options) (hb : Broken ls) (hcs : Lined cs ∨ ls = []) (hleaves : Leaves cs r.pending.toList) :
    Adds (proceed depth o ls) r (written o (exchanges cs ls outs)) () r' ∧
      Leaves (cs ++ ls.flatten) r'.pending.toList := by
  induction h generalizing cs with
  | nil r =>
    rw [List.flatten_nil, List.append_nil]
    exact ⟨adds_pure () r, hleaves⟩
  | @cons r r₁ r₂ l ls out outs hout hfeeds ih =>
    obtain ⟨hl, hlined, hls⟩ := hb
    have hcs := hcs.resolve_right (List.cons_ne_nil l ls)
    have hpending := feed_pending (hout "")
    rw [pending_withSink, pending_withSink] at hpending
    have hnext : Leaves (cs ++ l) r₁.pending.toList := by
      rw [hpending, String.toList_ofList]
      exact hleaves.line hcs hl
    obtain ⟨hadds, hlast⟩ := ih hls (hlined.imp_left fun hlined => hlined.append cs hl) hnext
    rw [List.flatten_cons, ← List.append_assoc]
    refine ⟨?_, hlast⟩
    have hline : written o [.output out] = out := written_singleton o _
    have hall := (adds_prompt_piece (o := o) hleaves).bind (f := fun _ => do
      feed depth (String.ofList l)
      proceed depth o ls) (hout.bind hadds)
    rw [← hline, ← written_append, ← written_append] at hall
    exact hall

end Adds

section Run

variable {depth : Nat} {r r' : Repl} {ls : List (List Char)} {outs : List String}

theorem Feeds.length (h : Feeds depth r ls outs r') : outs.length = ls.length := by
  induction h with
  | nil r => rfl
  | cons _ _ ih => rw [List.length_cons, List.length_cons, ih]

theorem Feeds.take (h : Feeds depth r ls outs r') (i : Nat) :
    ∃ r₁, Feeds depth r (ls.take i) (outs.take i) r₁ := by
  induction h generalizing i with
  | nil r =>
    rw [List.take_nil, List.take_nil]
    exact ⟨r, .nil r⟩
  | @cons r _ _ _ _ _ _ hout _ ih =>
    cases i with
    | zero => exact ⟨r, .nil r⟩
    | succ i =>
      obtain ⟨r₁, hr₁⟩ := ih i
      exact ⟨r₁, .cons hout hr₁⟩

theorem run_encode (depth : Nat) (o : Options) (source : String) :
    run depth o (Text.encode source) = welcome o >>= fun _ => proceed depth o (charLines source.toList) >>= fun _ =>
      prompt o >>= fun _ => finish o := by
  have h := loop_append depth o (charLines source.toList) []
  rw [List.append_nil] at h
  rw [run, Text.decode_lines_encode, h]
  rfl

theorem feeds_of_run (depth : Nat) (o : Options) (source : String) (r : Repl) (t : String)
    (h : run depth o (Text.encode source) (r.withSink (.buffer t)) ≠ .exhausted) :
    ∃ outs r', Feeds depth r (charLines source.toList) outs r' := by
  refine (feeds_of_ends depth (charLines source.toList) r).resolve_left ?_
  intro hx
  apply h
  rw [run_encode, Run.bind_value (adds_welcome o r t), Run.bind_exhausted (hx o _)]

theorem Feeds.opening (h : Feeds depth r ls outs r') (hb : Broken ls) (hr : r.pending = "") (o : Options) :
    Adds (welcome o >>= fun _ => Repl.proceed depth o ls) r (written o (.banner :: exchanges [] ls outs)) () r' ∧
      Leaves ls.flatten r'.pending.toList := by
  have hnil : Leaves [] r.pending.toList := by
    rw [hr]
    exact .nil
  obtain ⟨hadds, hleaves⟩ := h.proceed o hb (.inl .nil) hnil
  have hall := (adds_banner o r).bind (f := fun _ => Repl.proceed depth o ls) hadds
  rw [← written_append] at hall
  exact ⟨hall, hleaves⟩

theorem Feeds.run {source : String} (h : Feeds depth r (charLines source.toList) outs r') (hr : r.pending = "")
    (o : Options) :
    Adds (run depth o (Text.encode source)) r (written o (conversation (charLines source.toList) outs)) () r' := by
  obtain ⟨hopen, hleaves⟩ := h.opening (Text.charLines_broken _) hr o
  have hall := hopen.bind (f := fun _ => prompt o >>= fun _ => finish o)
    ((adds_prompt_piece hleaves).bind (adds_finish hleaves))
  rw [← written_append, ← written_append, List.singleton_append] at hall
  rw [run_encode, ← bind_assoc, conversation]
  exact hall

end Run

/-- A loop with prompts asks for every line and once more at the end of the input, and asks for more of an
expression exactly if the lines so far end in one that is not complete; it then has the beginning of that
expression in store, and else nothing. Without the banner, the prompts, the line break before the complaint
about the end of the input and the farewell, its transcript is the one of a quiet loop. -/
theorem prompts_follow_pending (depth : Nat) (source : String) (m : Machine) (channel : Channel) {before : String}
    (hsink : (start m channel).sink = .buffer before)
    (hends : run depth .interactive (Text.encode source) (start m channel) ≠ .exhausted) :
    let ls := charLines source.toList
    ∃ outs, outs.length = ls.length ∧
      (conversation ls outs).filterMap Piece.prompt? =
        (List.range (ls.length + 1)).map (fun i => (unfinished? (String.ofList (ls.take i).flatten)).isSome) ∧
      (∃ r, run depth .interactive (Text.encode source) (start m channel) = .value () r ∧
        r.sink = .buffer (before ++ transcript (conversation ls outs))) ∧
      (∃ r, run depth .quiet (Text.encode source) (start m channel) = .value () r ∧
        r.sink = .buffer (before ++ transcript ((conversation ls outs).filter Piece.isOutput))) ∧
      ∀ i, ∃ r, (welcome .interactive >>= fun _ => proceed depth .interactive (ls.take i)) (start m channel) =
          .value () r ∧
        r.sink = .buffer (before ++ transcript (.banner :: exchanges [] (ls.take i) (outs.take i))) ∧
        (r.pending = "" ↔ unfinished? (String.ofList (ls.take i).flatten) = none) ∧
        (r.pending.toList.all Text.isBlank = true → r.pending = "") ∧
        (Reading.ofString r.pending = [] → r.pending = "") := by
  intro ls
  have hstart : (start m channel).withSink (.buffer before) = start m channel := by
    rw [← hsink, withSink_sink]
  rw [← hstart] at hends
  obtain ⟨outs, r, hfeeds⟩ := feeds_of_run depth .interactive source (start m channel) before hends
  have hb := Text.charLines_broken source.toList
  refine ⟨outs, hfeeds.length, conversation_prompts hfeeds.length, ?_, ?_, ?_⟩
  · have hrun := hfeeds.run rfl .interactive before
    rw [hstart, written_interactive] at hrun
    exact ⟨_, hrun, sink_withSink _ _⟩
  · have hrun := hfeeds.run rfl .quiet before
    rw [hstart, written_quiet] at hrun
    exact ⟨_, hrun, sink_withSink _ _⟩
  · intro i
    obtain ⟨r₁, hr₁⟩ := hfeeds.take i
    obtain ⟨hopen, hleaves⟩ := hr₁.opening (hb.take i) rfl .interactive
    have hrun := hopen before
    rw [hstart, written_interactive] at hrun
    refine ⟨_, hrun, sink_withSink _ _, ?_⟩
    rw [pending_withSink, ← String.toList_eq_nil_iff]
    refine ⟨hleaves.eq_nil_iff, hleaves.eq_nil_of_blank, ?_⟩
    intro hnone
    apply hleaves.eq_nil_of_ofString
    rw [String.ofList_toList, hnone]

theorem prompts_follow_pending_comment :
    let source := "(+ 1 ; (\n\n2) )\n\"a"
    let ls := charLines source.toList
    let r₀ := start (.start (.buffer "$ ")) .shared
    r₀.sink = .buffer "$ " ∧ run 3 .interactive (Text.encode source) r₀ ≠ .exhausted ∧
      ∃ outs, (conversation ls outs).filterMap Piece.prompt? = [false, true, true, false, true] ∧
        (∃ r, run 3 .interactive (Text.encode source) r₀ = .value () r ∧
          r.sink = .buffer ("$ " ++ transcript (conversation ls outs))) ∧
        ∃ r, run 3 .quiet (Text.encode source) r₀ = .value () r ∧
          r.sink = .buffer ("$ " ++ transcript ((conversation ls outs).filter Piece.isOutput)) := by
  intro source ls r₀
  have hsink : r₀.sink = .buffer "$ " := rfl
  have hends : run 3 .interactive (Text.encode source) r₀ ≠ .exhausted :=
    Outcome.ne_exhausted (f := none) (by decide +kernel)
  have hprompts : (List.range (ls.length + 1)).map
      (fun i => (unfinished? (String.ofList (ls.take i).flatten)).isSome) = [false, true, true, false, true] := by
    decide +kernel
  obtain ⟨outs, -, hall, hinteractive, hquiet, -⟩ :=
    prompts_follow_pending 3 source (.start (.buffer "$ ")) .shared hsink hends
  refine ⟨hsink, hends, outs, ?_, hinteractive, hquiet⟩
  rw [hall, hprompts]

end Repl

end Lisp
