import SsaBackend.NatMap
import SsaBackend.Value

/-!
# Variable bindings

While a function is being drafted, every block has a current value for some of the source
variables. A block is sealed once it gains no more predecessors; until then a variable read
in it stands for a placeholder phi, which waits for the predecessors to be known. Some phis
must not be folded for the time being: the placeholders, and those whose operands are being
gathered.
-/

namespace SsaBackend

/-- What is known of the source variables, block by block. -/
structure Bindings where
  /-- The value of each variable at the end of each block. -/
  defs : NatMap (NatMap Value) := .empty
  /-- The placeholder phis of unsealed blocks, by variable. -/
  pending : NatMap (NatMap InstId) := .empty
  /-- The blocks that gain no more predecessors. -/
  sealedBlocks : List BlockId := []
  /-- The phis that must not be folded. -/
  guarded : List InstId := []
  deriving DecidableEq, Repr

namespace Bindings

/-- Nothing is known. -/
def empty : Bindings := {}

/-- Whether a block gains no more predecessors. -/
def isSealed (s : Bindings) (b : BlockId) : Bool := s.sealedBlocks.contains b

/-- Records that a block gains no more predecessors. -/
def markSealed (s : Bindings) (b : BlockId) : Bindings :=
  if s.isSealed b then s else { s with sealedBlocks := b :: s.sealedBlocks }

/-- The value of a variable at the end of a block, if it is known. -/
def value? (s : Bindings) (var : Variable) (b : BlockId) : Option Value :=
  (s.defs.get? b.index).bind (·.get? var.index)

/-- Gives a variable a value at the end of a block. -/
def bind (s : Bindings) (var : Variable) (b : BlockId) (v : Value) : Bindings :=
  let vars := (s.defs.get? b.index).getD .empty
  { s with defs := s.defs.insert b.index (vars.insert var.index v) }

/-- The values bound in a block, by variable. -/
def valuesAt (s : Bindings) (b : BlockId) : List Value := (s.defs.get? b.index).elim [] (·.values)

/-- Applies `f` to every value bound anywhere. -/
def mapValues (f : Value → Value) (s : Bindings) : Bindings :=
  { s with defs := s.defs.map (·.map f) }

/-- The placeholders that wait in a block, by variable. -/
def pendingAt (s : Bindings) (b : BlockId) : List (Variable × InstId) :=
  (s.pending.get? b.index).elim [] fun m => m.entries.map fun e => (⟨e.1⟩, e.2)

/-- Lets a placeholder for a variable wait in a block. -/
def addPending (s : Bindings) (var : Variable) (b : BlockId) (phi : InstId) : Bindings :=
  let phis := (s.pending.get? b.index).getD .empty
  { s with pending := s.pending.insert b.index (phis.insert var.index phi) }

/-- No placeholder waits in the block any longer. -/
def dropPending (s : Bindings) (b : BlockId) : Bindings :=
  { s with pending := s.pending.erase b.index }

/-- Keeps a phi from being folded. -/
def guard (s : Bindings) (phi : InstId) : Bindings :=
  if phi ∈ s.guarded then s else { s with guarded := phi :: s.guarded }

/-- Lets a phi be folded again. -/
def unguard (s : Bindings) (phi : InstId) : Bindings :=
  { s with guarded := s.guarded.filter (· ≠ phi) }

end Bindings

end SsaBackend
