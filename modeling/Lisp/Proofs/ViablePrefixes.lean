import Lisp.Proofs.Grammar
import Lisp.Proofs.Readings

namespace Lisp

/-- The tokens are those of the data in `ds`, one after the other; `ds` has the last of them first. -/
def Sequence (ds : List Datum) (ts : List Token) : Prop :=
  ∃ parts : List (List Token × Datum), ds = (parts.map Prod.snd).reverse ∧
    ts = (parts.map Prod.fst).flatten ∧ ∀ p ∈ parts, Derives p.1 p.2.toExpr

namespace Sequence

theorem nil : Sequence [] [] :=
  ⟨[], rfl, rfl, by simp⟩

theorem append {ds : List Datum} {ts us : List Token} {d : Datum} (h : Sequence ds ts)
    (hd : Derives us d.toExpr) : Sequence (d :: ds) (ts ++ us) := by
  obtain ⟨parts, rfl, rfl, hp⟩ := h
  refine ⟨parts ++ [(us, d)], by simp, by simp, ?_⟩
  intro p hm
  rcases List.mem_append.mp hm with hm | hm
  · exact hp p hm
  · obtain rfl := List.mem_singleton.mp hm
    exact hd

theorem meanings {ds : List Datum} {ts : List Token} (h : Sequence ds ts) :
    ∃ parts : List (List Token × Meaning), parts.map Prod.snd = ds.reverse.map Datum.toExpr ∧
      ts = (parts.map Prod.fst).flatten ∧ ∀ p ∈ parts, Derives p.1 p.2 := by
  obtain ⟨parts, rfl, rfl, hp⟩ := h
  refine ⟨parts.map (fun p => (p.1, p.2.toExpr)), by simp, by rw [List.map_map]; rfl, ?_⟩
  intro p hm
  obtain ⟨q, hq, rfl⟩ := List.mem_map.mp hm
  exact hp q hq

theorem list {ds : List Datum} {ts : List Token} (h : Sequence ds ts) :
    Derives (.leftParen :: (ts ++ [.rightParen])) (Datum.chain ds .nil).toExpr := by
  obtain ⟨parts, hm, rfl, hp⟩ := h.meanings
  have hd := Derives.list parts hp
  rwa [hm, show Meaning.nil = Datum.nil.toExpr from rfl, ← Datum.toExpr_chain, List.reverse_reverse] at hd

theorem dotted {ds : List Datum} {ts us : List Token} {d : Datum} (h : Sequence ds ts) (hne : ds ≠ [])
    (hd : Derives us d.toExpr) :
    Derives (.leftParen :: (ts ++ .dot :: (us ++ [.rightParen]))) (Datum.chain ds d).toExpr := by
  obtain ⟨parts, hm, rfl, hp⟩ := h.meanings
  have hparts : parts ≠ [] := by
    rintro rfl
    exact hne (by simpa using hm.symm)
  have hd := Derives.dotted parts hparts hp hd
  rwa [hm, ← Datum.toExpr_chain, List.reverse_reverse] at hd

end Sequence

inductive Spells : List Opened → List Token → Prop where
  | nil : Spells [] []
  | quote {os : List Opened} {ts : List Token} (h : Spells os ts) : Spells (.quote :: os) (ts ++ [.quote])
  | list {os : List Opened} {ts us : List Token} {ds : List Datum} (h : Spells os ts) (hd : Sequence ds us) :
    Spells (.list ds :: os) (ts ++ .leftParen :: us)
  | improper {os : List Opened} {ts us : List Token} {ds : List Datum} (h : Spells os ts) (hd : Sequence ds us)
    (hne : ds ≠ []) : Spells (.improper ds :: os) (ts ++ .leftParen :: (us ++ [.dot]))

theorem Spells.viable {os : List Opened} {ts us : List Token} {d : Datum} (h : Spells os ts)
    (hd : Derives us d.toExpr) : Viable (ts ++ us) := by
  induction h generalizing us d with
  | nil => exact ⟨[], d.toExpr, by simpa using hd⟩
  | quote h ih => simpa using ih (d := .quoted d) hd.quoted
  | list h hs ih => exact Viable.of_append [.rightParen] (by simpa using ih (hs.append hd).list)
  | improper h hs hne ih => exact Viable.of_append [.rightParen] (by simpa using ih (hs.dotted hne hd))

namespace Expecting

def After : Expecting → List Token → Prop
  | datum os, ts => Spells os ts
  | closing ds d os, ts => ∃ us vs, Spells (.improper ds :: os) us ∧ Derives vs d.toExpr ∧ ts = us ++ vs

theorem initial_after : initial.After [] := Spells.nil

theorem After.viable {e : Expecting} {ts : List Token} (h : e.After ts) : Viable ts := by
  cases e with
  | datum os => exact (Spells.viable (d := .literal "") h (.literal "")).of_append
  | closing ds d os =>
    obtain ⟨us, vs, hs, hd, rfl⟩ := h
    exact hs.viable hd

theorem deliver_after {os : List Opened} {ts us : List Token} {d : Datum} (h : Spells os ts)
    (hd : Derives us d.toExpr) :
    (∀ e, deliver d os = .shift e → e.After (ts ++ us)) ∧
      ∀ d', deliver d os = .accept d' → Derives (ts ++ us) d'.toExpr := by
  induction h generalizing us d with
  | nil =>
    refine ⟨fun e he => by simp [deliver] at he, fun d' he => ?_⟩
    obtain rfl := Verdict.accept.inj he
    exact hd
  | quote h ih => simpa [deliver] using ih (d := .quoted d) hd.quoted
  | @list os ts vs ds h hs ih =>
    refine ⟨fun e he => ?_, fun d' he => by simp [deliver] at he⟩
    obtain rfl := Verdict.shift.inj he
    simpa [After] using h.list (hs.append hd)
  | @improper os ts vs ds h hs hne ih =>
    refine ⟨fun e he => ?_, fun d' he => by simp [deliver] at he⟩
    obtain rfl := Verdict.shift.inj he
    exact ⟨_, us, h.improper hs hne, hd, rfl⟩

theorem step_after {e : Expecting} {ts : List Token} (h : e.After ts) (t : Token) :
    (∀ e', e.step t = .shift e' → e'.After (ts ++ [t])) ∧
      ∀ d, e.step t = .accept d → Derives (ts ++ [t]) d.toExpr := by
  have rejected {r : ReadError} : (∀ e', Verdict.reject r = .shift e' → e'.After (ts ++ [t])) ∧
      ∀ d, Verdict.reject r = .accept d → Derives (ts ++ [t]) d.toExpr := ⟨by simp, by simp⟩
  have shifted {e₁ : Expecting} (he : e₁.After (ts ++ [t])) :
      (∀ e', Verdict.shift e₁ = .shift e' → e'.After (ts ++ [t])) ∧
        ∀ d, Verdict.shift e₁ = .accept d → Derives (ts ++ [t]) d.toExpr :=
    ⟨fun e' h => Verdict.shift.inj h ▸ he, by simp⟩
  unfold step
  split
  case h_1 => exact rejected
  case h_2 ds d os =>
    obtain ⟨us, vs, hs, hd, rfl⟩ := h
    cases hs with
    | improper h hs hne => simpa using deliver_after h (hs.dotted hne hd)
  case h_3 => exact rejected
  case h_4 => exact shifted (Spells.list h .nil)
  case h_5 => exact shifted (Spells.quote h)
  case h_6 s => exact deliver_after h (.string s)
  case h_7 s => exact deliver_after h (.literal s)
  case h_8 ds os =>
    cases h with
    | list h hs => simpa using deliver_after h hs.list
  case h_9 => exact rejected
  case h_10 d ds os =>
    cases h with
    | list h hs => exact shifted (by simpa [After] using h.improper hs (by simp))
  case h_11 => exact rejected

theorem shifts_after {e e' : Expecting} {ts us : List Token} (h : e.After ts) (hs : e.shifts us = some e') :
    e'.After (ts ++ us) := by
  induction us generalizing e ts with
  | nil =>
    obtain rfl := Option.some.inj hs
    simpa using h
  | cons t us ih =>
    rw [shifts] at hs
    cases he : e.step t with
    | shift e₁ =>
      rw [he] at hs
      simpa using ih ((step_after h t).1 e₁ he) hs
    | accept d => simp [he] at hs
    | reject r => simp [he] at hs

end Expecting

end Lisp
