import SsaBackend.BitSet
import SsaBackend.Iterate
import SsaBackend.Live.Layout

/-!
# Liveness of registers at block boundaries

A register is live out of a block if it is live into a successor, and live into a block if
the block reads it before writing it, or lets it through without writing it. The equations
are solved by sweeping over the blocks from last to first until a sweep changes nothing that
is live into a block. What is live out of a block is written down as the sweeps come by it;
the last of them comes by every block, so what earlier ones wrote is not kept.
-/

namespace SsaBackend

/-- What the equations say about one block: the registers it needs from before, those it
writes, and the places of its successors in the layout. -/
structure FlowBlock where
  needs : BitSet
  writes : BitSet
  succs : List Nat

namespace FlowBlock

/-- The equations of a block of the layout, over `count` registers. -/
def ofLayout (f : Func) (count : Nat) (layout : List BlockLayout) (b : BlockLayout) : FlowBlock :=
  let writes := (BitSet.empty count).insertAll (b.written.map (·.index))
  let reads := (BitSet.empty count).insertAll (b.read.map (·.index))
  { needs := reads.sdiff writes
    writes
    succs := (f.succs b.block).filterMap fun s => layout.findIdx? (·.block = s) }

/-- The registers live out of a block, given those live into each block. -/
def liveOut (count : Nat) (liveIn : Array BitSet) (b : FlowBlock) : BitSet :=
  b.succs.foldl (fun out s => out.union (liveIn.getD s (.empty count))) (.empty count)

/-- The registers live into a block, given those live out of it. -/
def liveInOf (b : FlowBlock) (out : BitSet) : BitSet := (out.sdiff b.writes).union b.needs

end FlowBlock

/-- Brings the registers live into one block up to date. -/
def sweepBlock (count : Nat) (liveIn : Array BitSet) (e : FlowBlock × Nat) : Array BitSet :=
  liveIn.setIfInBounds e.2 (e.1.liveInOf (e.1.liveOut count liveIn))

/-- Brings all blocks up to date, from last to first. -/
def sweep (count : Nat) (blocks : List FlowBlock) (liveIn : Array BitSet) : Array BitSet :=
  blocks.zipIdx.reverse.foldl (sweepBlock count) liveIn

/-- A sweep, if it changes anything. -/
def sweepStep (count : Nat) (blocks : List FlowBlock) (liveIn : Array BitSet) :
    Option (Array BitSet) :=
  let next := sweep count blocks liveIn
  if next = liveIn then none else some next

/-- The registers live into each block: the least solution. Every sweep but the last adds a
register to some block. -/
def solveLiveIn (count : Nat) (blocks : List FlowBlock) : Array BitSet :=
  repeatUpTo (sweepStep count blocks) (blocks.length * count)
    (Array.replicate blocks.length (.empty count))

/-- The registers live into and out of each block. -/
structure FlowTables where
  liveIn : Array BitSet
  liveOut : Array BitSet

/-- Writes down what is live out of one block, and brings what is live into it up to date. -/
def FlowTables.update (count : Nat) (t : FlowTables) (e : FlowBlock × Nat) : FlowTables :=
  let out := e.1.liveOut count t.liveIn
  { liveIn := t.liveIn.setIfInBounds e.2 (e.1.liveInOf out)
    liveOut := t.liveOut.setIfInBounds e.2 out }

/-- Both tables of the least solution, as the last sweep leaves them. -/
def solveFlow (count : Nat) (blocks : List FlowBlock) : FlowTables :=
  blocks.zipIdx.reverse.foldl (FlowTables.update count)
    ⟨solveLiveIn count blocks, Array.replicate blocks.length (.empty count)⟩

/-- Liveness at the boundaries of the blocks of a layout, over `count` registers. -/
def Func.solveLiveness (f : Func) (count : Nat) (layout : List BlockLayout) : FlowTables :=
  solveFlow count (layout.map (FlowBlock.ofLayout f count layout))

end SsaBackend
