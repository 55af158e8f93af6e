import SsaBackend.Pass.Session

/-!
# Folding branches on constants

A conditional branch on a constant becomes a jump, and the block is no longer a predecessor
of the target that is not taken. That target may be out of reach then; removing it is left to
another pass.
-/

namespace SsaBackend

namespace BranchFold

/-- A branch that can be folded. -/
structure Candidate where
  block : BlockId
  taken : BlockId
  untaken : BlockId
  deriving DecidableEq, Repr

/-- The branch at the end of a block, if its condition is a constant. -/
def candidate? (id : BlockId) : Terminator → Option Candidate
  | .branch (.const c) t e => some (if c.isTrue then ⟨id, t, e⟩ else ⟨id, e, t⟩)
  | _ => none

/-- The branches that can be folded. -/
def candidates (f : Func) : List Candidate :=
  f.liveBlocks.filterMap fun e => e.2.terminator.bind (candidate? e.1)

/-- The function with one branch folded. -/
def fold (f : Func) (c : Candidate) : Func × List Replacement :=
  let jumping := f.modifyBlock c.block ({ · with terminator := some (.jump c.taken) })
  if c.untaken = c.taken then (jumping, []) else jumping.removePred c.untaken c.block

/-- Folds the branches on constants. -/
def run : Work Session Bool := do
  let cs := candidates (← get).func
  cs.forM fun c => do
    Session.setFolded (fold (← get).func c)
    Session.note (.branchFolded c.block c.taken)
  return !cs.isEmpty

end BranchFold

end SsaBackend
