import SsaBackend.Event
import SsaBackend.Live.Solve

/-!
# Live intervals of a function

With liveness at the block boundaries known, every block is gone through backwards once, and
liveness becomes segments: a register is live from where it is written, or from the start of
the block, to its last reading, or to the end of the block. A register that is never read is
live at the one slot where it is written.

The weight of a register is what its definition and its uses cost, each ten times as much for
every loop around it, over the number of slots it is live at. A hundred is added to that
number, so that very short intervals do not weigh too much.
-/

namespace SsaBackend

/-- Loops that lie deeper than this no longer raise the cost. -/
def maxCostDepth : Nat := 20

/-- What is added to the size of an interval before the cost is divided by it. -/
def sizeBias : Weight := .ofNat 100

/-- What one definition or use costs inside the given number of loops. -/
def costAt (depth : Nat) : Weight := (Weight.ofNat 10).pow (min depth maxCostDepth)

/-- The state of going through the blocks: the intervals and costs so far, the registers live
at the point reached, and the slot up to which each of them is. -/
structure LiveScan where
  intervals : Intervals
  cost : Array Weight
  stopAt : Array Nat
  live : BitSet

namespace LiveScan

/-- Before the first block: no costs, and nothing is live. -/
def init (regs : Intervals) : LiveScan where
  intervals := regs
  cost := Array.replicate regs.size .zero
  stopAt := Array.replicate regs.size 0
  live := .empty regs.size

/-- Adds to the cost of a register. -/
def charge (s : LiveScan) (r : VirtReg) (c : Weight) : LiveScan :=
  { s with cost := s.cost.modify r.index (·.add c) }

/-- The slot up to which a register is live. -/
def stopOf (s : LiveScan) (r : VirtReg) : Nat := s.stopAt.getD r.index 0

/-- Goes back over the writing of a register. -/
def write (c : Weight) (pos : Nat) (s : LiveScan) (r : VirtReg) : LiveScan :=
  let start := defSlot pos
  let stop := if s.live.contains r.index then s.stopOf r else start + 1
  let s := s.charge r c
  { s with
    intervals := s.intervals.modify r fun li =>
      { li with defAt := some start }.addSegment start stop
    live := s.live.erase r.index }

/-- Goes back over the reading of a register. -/
def read (c : Weight) (pos : Nat) (s : LiveScan) (r : VirtReg) : LiveScan :=
  let s := { s.charge r c with intervals := s.intervals.modify r (·.addUse (useSlot pos)) }
  if s.live.contains r.index then s
  else
    { s with
      live := s.live.insert r.index
      stopAt := s.stopAt.setIfInBounds r.index (defSlot pos) }

/-- Goes back over a point, which writes its result after reading its operands. -/
def point (c : Weight) (s : LiveScan) (e : Point × Nat) : LiveScan :=
  e.1.reads.foldl (read c e.2) (e.1.writes.elim s (write c e.2 s))

/-- Goes back over a block out of which the registers `out` are live. -/
def block (s : LiveScan) (b : BlockLayout) (out : BitSet) : LiveScan :=
  let stopAt := out.toList.foldl (fun m r => m.setIfInBounds r (b.next * 4)) s.stopAt
  let s := (b.points.zipIdx b.start).reverse.foldl (point (costAt b.depth))
    { s with live := out, stopAt }
  { s with
    intervals := s.live.toList.foldl
      (fun ivs r => ivs.modify ⟨r⟩ (·.addSegment (b.start * 4) (s.stopOf ⟨r⟩))) s.intervals }

/-- The intervals with the weights that come of the costs. -/
def weighed (s : LiveScan) : Intervals :=
  { s.intervals with
    intervals := s.intervals.intervals.mapIdx fun i li =>
      { li with weight := (s.cost.getD i .zero).div ((Weight.ofNat li.size).add sizeBias) } }

end LiveScan

namespace Func

/-- The live intervals of the blocks in the given order. -/
def intervalsIn (f : Func) (loops : LoopForest) (order : List BlockId) : Intervals :=
  let regs := f.newRegisters order
  let layout := f.layout regs loops order
  let flow := f.solveLiveness regs.size layout
  let scan := (layout.zip flow.liveOut.toList).foldl (fun s e => s.block e.1 e.2)
    (LiveScan.init regs)
  scan.weighed

/-- The live intervals of all values of a function. -/
def liveIntervals (f : Func) (loops : LoopForest) : Except Error Intervals := do
  let order ← f.reversePostorder f.entry.index
  return f.intervalsIn loops (order.map BlockId.mk)

end Func

/-- The events that tell of the intervals of a function. -/
def Intervals.events (name : String) (ivs : Intervals) : List Event :=
  ivs.toList.map fun li => .inFunction name (.intervalComputed li)

end SsaBackend
