import Lisp.Datum
import Lisp.Token

/-!
The grammar of expressions, `E ::= literal | string | ' E | ( E* ) | ( E+ . E )`, and what its
sentences mean.
-/

namespace Lisp

abbrev Meaning := StateM Supply Expr

namespace Meaning

def nil : Meaning := fun s => (.nil s.symbols.id, s)

def cons (head tail : Expr) : Meaning :=
  Datum.fresh (fun i => .pair i head tail)

def listFrom : List Expr → Expr → Meaning
  | [], tail => pure tail
  | v :: vs, tail => do cons v (← listFrom vs tail)

def quoted (m : Meaning) : Meaning := do
  let e ← m
  let rest ← cons e (← nil)
  cons (.keyword .quote (← get).symbols.id) rest

def list (ms : List Meaning) (tail : Meaning) : Meaning := do
  let es ← ms.mapM id
  listFrom es (← tail)

end Meaning

inductive Derives : List Token → Meaning → Prop where
  | literal (s : String) : Derives [.literal s] (Datum.literalExpr s)
  | string (s : String) : Derives [.string s] (Datum.fresh (fun i => .string i s))
  | quoted {ts : List Token} {m : Meaning} (h : Derives ts m) : Derives (.quote :: ts) m.quoted
  | list (parts : List (List Token × Meaning)) (h : ∀ p ∈ parts, Derives p.1 p.2) :
    Derives (.leftParen :: ((parts.map Prod.fst).flatten ++ [.rightParen]))
      (.list (parts.map Prod.snd) .nil)
  | dotted (parts : List (List Token × Meaning)) {ts : List Token} {m : Meaning} (hne : parts ≠ [])
    (h : ∀ p ∈ parts, Derives p.1 p.2) (ht : Derives ts m) :
    Derives (.leftParen :: ((parts.map Prod.fst).flatten ++ .dot :: (ts ++ [.rightParen])))
      (.list (parts.map Prod.snd) m)

def Viable (ts : List Token) : Prop :=
  ∃ us m, Derives (ts ++ us) m

theorem Viable.of_append {ts : List Token} (us : List Token) (h : Viable (ts ++ us)) : Viable ts := by
  obtain ⟨vs, m, h⟩ := h
  exact ⟨us ++ vs, m, by rwa [← List.append_assoc]⟩

def Unfinished (ts : List Token) : Prop :=
  ∃ us m, us ≠ [] ∧ Derives (ts ++ us) m

def HasSentence (ts : List Token) : Prop :=
  ∃ p rest m, ts = p ++ rest ∧ Derives p m

theorem Viable.unfinished {ts : List Token} (h : Viable ts) (hs : ¬ HasSentence ts) : Unfinished ts := by
  obtain ⟨us, m, h⟩ := h
  refine ⟨us, m, ?_, h⟩
  rintro rfl
  exact hs ⟨ts, [], m, by simp, by simpa using h⟩

namespace Datum

theorem toExpr_chain (ds : List Datum) (tail : Datum) :
    (chain ds.reverse tail).toExpr = Meaning.list (ds.map toExpr) tail.toExpr := by
  rw [chain, List.foldl_reverse]
  induction ds with
  | nil => simp [Meaning.list, Meaning.listFrom]
  | cons d ds ih =>
    rw [List.foldr_cons, toExpr, ih]
    simp only [Meaning.list, List.map_cons, List.mapM_cons, Meaning.listFrom, bind_assoc, pure_bind, id]
    rfl

end Datum

end Lisp
