import SsaBackend.Error

/-!
# Work on a state

A piece of work changes a state and ends with a result or an error. Work that ends with an
error leaves the state as far as it had got: nothing is rolled back, and what a pass, a read
or the allocator did before it was refused can be seen afterwards.
-/

namespace SsaBackend

/-- Work on a state of type `σ`. -/
abbrev Work (σ : Type) : Type → Type := EStateM Error σ

namespace Work

variable {σ α : Type}

/-- Work that only hands on an answer found without touching the state. -/
def ofExcept (r : Except Error α) : Work σ α :=
  match r with
  | .ok a => pure a
  | .error e => throw e

/-- The answer of work begun in a given state. -/
def result (w : Work σ α) (s : σ) : Except Error α :=
  match w.run s with
  | .ok a _ => .ok a
  | .error e _ => .error e

/-- The state that work begun in a given state leaves behind. -/
def state (w : Work σ α) (s : σ) : σ :=
  match w.run s with
  | .ok _ s => s
  | .error _ s => s

end Work

end SsaBackend
