import SsaBackend.Func.Cfg
import SsaBackend.Live.Intervals
import SsaBackend.Loop.Forest

/-!
# Laying out a function

Reachable blocks are laid out in reverse postorder and their program points numbered. A
block has one point for each phi and, in the entry, for each argument, and at least one of
these; then one for each instruction, one for each value it passes to phis of its successors,
and one for its terminator. As no two phis are written and no two values are passed on at one
point, what spilling leaves behind never piles up on one point.
-/

namespace SsaBackend

/-- A program point: the registers it reads, and the one it writes after reading. -/
structure Point where
  reads : List VirtReg := []
  writes : Option VirtReg := none
  deriving DecidableEq, Repr

/-- The points of a block, the terminator's last, from position `start` on. -/
structure BlockLayout where
  block : BlockId
  start : Nat
  points : List Point
  /-- How many loops the block is in. -/
  depth : Nat
  deriving DecidableEq, Repr

namespace BlockLayout

/-- The position after the last one of the block. -/
def next (b : BlockLayout) : Nat := b.start + b.points.length

/-- The registers the block writes. -/
def written (b : BlockLayout) : List VirtReg := b.points.filterMap (·.writes)

/-- The registers the block reads. -/
def read (b : BlockLayout) : List VirtReg := b.points.flatMap (·.reads)

end BlockLayout

namespace Func

/-! ## Registers -/

/-- The values of a function that get a register: the arguments, then the results of the
blocks in layout order. -/
def registerValues (f : Func) (order : List BlockId) : List Value :=
  let results (b : Block) : List InstId :=
    b.insts.filter fun i => (f.inst? i).any (·.inst.hasResult)
  (List.range f.numArgs).map .arg ++ ((order.filterMap f.block?).flatMap results).map .inst

/-- One register for each value, live nowhere yet. -/
def newRegisters (f : Func) (order : List BlockId) : Intervals :=
  (f.registerValues order).foldl (fun ivs v => ivs.addReg (some v)) .empty

/-- The registers that hold the given values, each once, in register order. -/
def regsOf (ivs : Intervals) (vs : List Value) : List VirtReg :=
  ascending VirtReg.index (vs.filterMap ivs.regOf?)

/-! ## Points -/

/-- The points at which arguments and phis are written, at least one. -/
def leadingPoints (f : Func) (ivs : Intervals) (id : BlockId) (b : Block) : List Point :=
  let args := if id = f.entry then (List.range f.numArgs).map Value.arg else []
  match (args ++ b.phis.map Value.inst).filterMap ivs.regOf? with
  | [] => [{}]
  | regs => regs.map fun r => { writes := some r }

/-- The points of the instructions. -/
def bodyPoints (f : Func) (ivs : Intervals) (b : Block) : List Point :=
  b.body.filterMap fun i => (f.inst? i).map fun p =>
    { reads := regsOf ivs p.inst.operands, writes := ivs.regOf? (.inst i) }

/-- The values a block passes to the phis of its successors. -/
def passedValues (f : Func) (id : BlockId) : List Value :=
  let phis := ((f.succs id).filterMap f.block?).flatMap (·.phis)
  phis.filterMap fun i => (f.phi? i).bind (·.incoming? id)

/-- The points at which a block passes values on. -/
def copyPoints (f : Func) (ivs : Intervals) (id : BlockId) : List Point :=
  (regsOf ivs (f.passedValues id)).map fun r => { reads := [r] }

/-- The point of the terminator. -/
def endPoint (ivs : Intervals) (b : Block) : Point :=
  { reads := regsOf ivs (b.terminator.elim [] (·.operands)) }

/-- All the points of a block. -/
def blockPoints (f : Func) (ivs : Intervals) (id : BlockId) (b : Block) : List Point :=
  f.leadingPoints ivs id b ++ f.bodyPoints ivs b ++ f.copyPoints ivs id ++ [endPoint ivs b]

/-- The layout of the blocks, from position `start` on. -/
def layoutFrom (f : Func) (ivs : Intervals) (loops : LoopForest) :
    Nat → List (BlockId × Block) → List BlockLayout
  | _, [] => []
  | start, (id, b) :: rest =>
    let here := ⟨id, start, f.blockPoints ivs id b, loops.depthOf id⟩
    here :: f.layoutFrom ivs loops here.next rest

/-- The layout of the blocks in the given order. -/
def layout (f : Func) (ivs : Intervals) (loops : LoopForest) (order : List BlockId) :
    List BlockLayout :=
  f.layoutFrom ivs loops 0 (order.filterMap fun id => (f.block? id).map (id, ·))

end Func

end SsaBackend
