namespace Lisp

/-- How a run ends. `exhausted` says that the bound on its depth was too small to tell. -/
inductive Outcome (ε σ α : Type) where
  | value (a : α) (s : σ)
  | error (e : ε) (s : σ)
  | exhausted

/-- A computation over a state that may fail. A failure keeps the changes made before it. -/
def Run (ε σ α : Type) : Type :=
  σ → Outcome ε σ α

namespace Run

variable {ε δ σ τ α β : Type}

@[always_inline, inline]
protected def pure (a : α) : Run ε σ α := fun s => .value a s

@[always_inline, inline]
protected def bind (x : Run ε σ α) (f : α → Run ε σ β) : Run ε σ β := fun s =>
  match x s with
  | .value a s => f a s
  | .error e s => .error e s
  | .exhausted => .exhausted

@[always_inline]
instance : Monad (Run ε σ) where
  pure := Run.pure
  bind := Run.bind

@[always_inline, inline]
def throw (e : ε) : Run ε σ α := fun s => .error e s

@[always_inline, inline]
def get : Run ε σ σ := fun s => .value s s

@[always_inline, inline]
def modify (f : σ → σ) : Run ε σ Unit := fun s => .value () (f s)

def exhaust : Run ε σ α := fun _ => .exhausted

@[always_inline, inline]
def ofExcept : Except ε α → Run ε σ α
  | .ok a => Run.pure a
  | .error e => throw e

@[always_inline, inline]
def attempt (x : Run ε σ α) : Run δ σ (Except ε α) := fun s =>
  match x s with
  | .value a s => .value (.ok a) s
  | .error e s => .value (.error e) s
  | .exhausted => .exhausted

@[always_inline, inline]
def zoom (part : τ → σ) (put : σ → τ → τ) (x : Run ε σ α) : Run ε τ α := fun t =>
  match x (part t) with
  | .value a s => .value a (put s t)
  | .error e s => .error e (put s t)
  | .exhausted => .exhausted

end Run

end Lisp
