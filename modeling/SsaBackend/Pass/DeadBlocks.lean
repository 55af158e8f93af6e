import SsaBackend.Pass.Session

/-!
# Removing unreachable blocks

Blocks that the entry does not reach are deleted one after the other. Blocks that stay and
had a deleted predecessor lose the operands that came from it.
-/

namespace SsaBackend

namespace DeadBlocks

/-- The blocks out of reach, in handle order. -/
def dead (f : Func) (live : BitSet) : List BlockId :=
  f.blockIds.filter (!live.contains ·.index)

/-- Removes the blocks that the entry does not reach. -/
def run : Work Session Bool := do
  let f := (← get).func
  let live ← Work.ofExcept (f.reachable f.entry.index)
  let gone := dead f live
  gone.forM fun b => do
    Session.setFolded (← Work.ofExcept ((← get).func.removeBlock b))
  if !gone.isEmpty then Session.note (.blocksRemoved gone.length)
  return !gone.isEmpty

end DeadBlocks

end SsaBackend
