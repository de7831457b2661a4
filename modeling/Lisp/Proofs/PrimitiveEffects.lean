import Lisp.Primitive
import Lisp.Proofs.ConfinedRuns

namespace Lisp

namespace Run

/-- A run that has nothing to do with scopes. It fails and changes nothing, or it gives a value of
`P`, takes some identities from `next` on and writes a text. -/
inductive Leaf (P : Expr → Prop) (text : String) (next : Ident) (x : Run Error World Expr) : Prop where
  | error (e : Error) (h : ∀ w : World, w.next = next → x w = .error e w)
  | value (v : Expr) (n : Nat) (hv : P v)
    (h : ∀ w : World, w.next = next → x w = .value v { w with next := next + n, sink := w.sink.push text })

namespace Leaf

variable {α : Type} {P : Expr → Prop} {text : String} {next : Ident}

theorem throw (e : Error) : Leaf P text next (Run.throw e) :=
  .error e (fun _ _ => rfl)

theorem pure {v : Expr} (hv : P v) : Leaf P "" next (Pure.pure v) := by
  apply value v 0 hv
  intro w hw
  subst hw
  rw [Sink.push_empty]
  rfl

theorem ofExcept_bind (r : Except Error α) {f : α → Run Error World Expr}
    (hf : ∀ a, r = .ok a → Leaf P text next (f a)) : Leaf P text next (Run.ofExcept r >>= f) := by
  cases r with
  | ok a => exact hf a rfl
  | error e => exact .error e (fun _ _ => rfl)

theorem fresh {make : Ident → Expr} (hm : ∀ i, P (make i)) : Leaf P "" next (World.fresh make) := by
  apply value (make next) 1 (hm next)
  intro w hw
  subst hw
  rw [Sink.push_empty]
  rfl

theorem chain {vs : List Expr} {tail : Expr} (hc : ∀ i, P (Expr.chain i vs tail)) :
    Leaf P "" next (World.chain vs tail) := by
  apply value (Expr.chain next vs tail) vs.length (hc next)
  intro w hw
  subst hw
  rw [Sink.push_empty]
  rfl

theorem mono {Q : Expr → Prop} {x : Run Error World Expr} (hx : Leaf P text next x) (h : ∀ v, P v → Q v) :
    Leaf Q text next x := by
  cases hx with
  | error e hrun => exact .error e hrun
  | value v n hv hrun => exact .value v n (h v hv) hrun

end Leaf

end Run

namespace Primitive

theorem one_mem {p : Primitive} {vs : List Expr} {a : Expr} (h : one p vs = .ok a) : a ∈ vs := by
  unfold one at h
  split at h
  · simpa using (Except.ok.inj h).symm
  · cases h

theorem two_mem {p : Primitive} {vs : List Expr} {a b : Expr} (h : two p vs = .ok (a, b)) : a ∈ vs ∧ b ∈ vs := by
  unfold two at h
  split at h
  · cases h
    simp
  · cases h

inductive Made (table : Nat) (vs : List Expr) : Expr → Prop where
  | head {i : Ident} {h t : Expr} (hp : .pair i h t ∈ vs) : Made table vs h
  | tail {i : Ident} {h t : Expr} (hp : .pair i h t ∈ vs) : Made table vs t
  | pair {h t : Expr} (i : Ident) (hh : h ∈ vs) (ht : t ∈ vs) : Made table vs (.pair i h t)
  | list (i : Ident) : Made table vs (.chain i vs (.nil table))
  | keyword (k : Keyword) : Made table vs (.keyword k table)
  | number (n : Int64) : Made table vs (.number n)
  | string (i : Ident) (text : String) : Made table vs (.string i text)

theorem Made.inside {S : ScopeId → Prop} {table : Nat} {vs : List Expr} {v : Expr} (h : Made table vs v)
    (hvs : ∀ u ∈ vs, u.Inside S) : v.Inside S := by
  cases h with
  | head hp => exact (Expr.inside_pair.mp (hvs _ hp)).1
  | tail hp => exact (Expr.inside_pair.mp (hvs _ hp)).2
  | pair i hh ht => exact Expr.inside_pair.mpr ⟨hvs _ hh, hvs _ ht⟩
  | list i => exact Expr.inside_chain hvs (Expr.inside_symbol _) i
  | keyword k => exact Expr.inside_symbol _
  | number n => exact Expr.inside_number n
  | string i text => exact Expr.inside_string i text

def output (p : Primitive) (vs : List Expr) : String :=
  if p = print then line vs else ""

theorem apply_leaf (table : Nat) (p : Primitive) (vs : List Expr) (next : Ident) :
    (p.apply table vs).Leaf (Made table vs) (p.output vs) next := by
  have truth (b : Bool) : Run.Leaf (Made table vs) "" next (pure (.truth table b)) := .pure (.keyword _)
  have number (n : Int64) : Run.Leaf (Made table vs) "" next (pure (.number n)) := .pure (.number n)
  cases p with
  | car =>
    apply Run.Leaf.ofExcept_bind
    intro a ha
    cases a with
    | pair i h t => exact .pure (.head (one_mem ha))
    | _ => exact .throw _
  | cdr =>
    apply Run.Leaf.ofExcept_bind
    intro a ha
    cases a with
    | pair i h t => exact .pure (.tail (one_mem ha))
    | _ => exact .throw _
  | cons =>
    apply Run.Leaf.ofExcept_bind
    rintro ⟨a, b⟩ hab
    obtain ⟨ha, hb⟩ := two_mem hab
    exact .fresh (fun i => .pair i ha hb)
  | list => exact .chain .list
  | eq => exact .ofExcept_bind _ fun _ _ => truth _
  | equal => exact .ofExcept_bind _ fun _ _ => truth _
  | atom => exact .ofExcept_bind _ fun _ _ => truth _
  | isList => exact .ofExcept_bind _ fun _ _ => truth _
  | concat => exact Run.Leaf.fresh (fun i => Made.string i _)
  | length =>
    apply Run.Leaf.ofExcept_bind
    intro a _
    cases a with
    | string i s => exact number _
    | _ => exact .throw _
  | add => exact .ofExcept_bind _ fun _ _ => number _
  | sub => exact .ofExcept_bind _ fun _ _ => .ofExcept_bind _ fun _ _ => number _
  | mul => exact .ofExcept_bind _ fun _ _ => number _
  | div => exact .ofExcept_bind _ fun _ _ => .ofExcept_bind _ fun _ _ => number _
  | less => exact .ofExcept_bind _ fun _ _ => .ofExcept_bind _ fun _ _ => .ofExcept_bind _ fun _ _ => truth _
  | greater => exact .ofExcept_bind _ fun _ _ => .ofExcept_bind _ fun _ _ => .ofExcept_bind _ fun _ _ => truth _
  | print =>
    apply Run.Leaf.value (.nil table) 0 (.keyword .nil)
    intro w hw
    subst hw
    exact Run.bind_value (World.emit_apply (line vs) w) _

end Primitive

end Lisp
