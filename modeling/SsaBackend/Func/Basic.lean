import SsaBackend.Inst
import SsaBackend.Terminator
import SsaBackend.Error

/-!
# Functions

A function is a control-flow graph of basic blocks with a distinguished entry, in static
single assignment form. Its blocks and instructions stand in two tables, and handles are
places in them. Deleting leaves an empty place behind, so a handle never comes to mean
something else.

This module has the tables and the questions one asks of them; `Func.Edit` changes them.
-/

namespace SsaBackend

/-- A basic block: phis, then other instructions, then a terminator once the block is
complete. The predecessors are listed once each, however many edges come from them. -/
structure Block where
  phis : List InstId := []
  body : List InstId := []
  terminator : Option Terminator := none
  preds : List BlockId := []
  deriving DecidableEq, Repr

namespace Block

/-- The instructions of the block, phis first. -/
def insts (b : Block) : List InstId := b.phis ++ b.body

/-- The blocks control may go to, none while the block is incomplete. -/
def successors (b : Block) : List BlockId := b.terminator.elim [] Terminator.successors

end Block

/-- An instruction and the block it belongs to. -/
structure PlacedInst where
  inst : Inst
  block : BlockId
  deriving DecidableEq, Repr

/-- A function in static single assignment form. -/
structure Func where
  name : String
  numArgs : Nat
  blocks : Array (Option Block)
  insts : Array (Option PlacedInst)
  deriving DecidableEq, Repr

namespace Func

/-- A function with an empty entry block. -/
def new (name : String) (numArgs : Nat) : Func := ⟨name, numArgs, #[some {}], #[]⟩

/-- The entry is the block a function is made with. -/
def entry (_ : Func) : BlockId := ⟨0⟩

/-! ## Blocks -/

/-- The block, unless it was deleted or never made. -/
def block? (f : Func) (b : BlockId) : Option Block := f.blocks[b.index]?.join

/-- Whether the handle names a block. -/
def hasBlock (f : Func) (b : BlockId) : Bool := (f.block? b).isSome

/-- The block, or the complaint that there is none. -/
def getBlock (f : Func) (b : BlockId) : Except Error Block :=
  match f.block? b with
  | some bb => .ok bb
  | none => .error (.malformed (.missingBlock b))

/-- The number of places for blocks, empty ones included. -/
def blockCapacity (f : Func) : Nat := f.blocks.size

/-- The blocks in handle order. -/
def liveBlocks (f : Func) : List (BlockId × Block) :=
  (List.range f.blockCapacity).filterMap fun i => (f.block? ⟨i⟩).map (⟨i⟩, ·)

/-- The handles of the blocks, in order. -/
def blockIds (f : Func) : List BlockId := f.liveBlocks.map (·.1)

/-- The number of blocks. -/
def blockCount (f : Func) : Nat := f.liveBlocks.length

/-- How a block ends, if it does. -/
def terminator? (f : Func) (b : BlockId) : Option Terminator := (f.block? b).bind (·.terminator)

/-- The predecessors of a block, none if it was deleted. -/
def preds (f : Func) (b : BlockId) : List BlockId := (f.block? b).elim [] (·.preds)

/-- The successors of a block, each once. -/
def succs (f : Func) (b : BlockId) : List BlockId := (f.block? b).elim [] Block.successors

/-! ## Instructions -/

/-- The instruction, unless it was removed or never made. -/
def inst? (f : Func) (i : InstId) : Option PlacedInst := f.insts[i.index]?.join

/-- The instruction, or the complaint that there is none. -/
def getInst (f : Func) (i : InstId) : Except Error PlacedInst :=
  match f.inst? i with
  | some p => .ok p
  | none => .error (.malformed (.missingInst i))

/-- The phi node, if the handle names a phi. -/
def phi? (f : Func) (i : InstId) : Option Phi := (f.inst? i).bind (·.inst.phi?)

/-- The number of places for instructions, empty ones included. -/
def instCapacity (f : Func) : Nat := f.insts.size

/-- The handles of the instructions, in order. -/
def instIds (f : Func) : List InstId :=
  ((List.range f.instCapacity).map InstId.mk).filter fun i => (f.inst? i).isSome

/-- The number of instructions. -/
def instCount (f : Func) : Nat := f.instIds.length

/-- The phis of all blocks, block by block. -/
def phiIds (f : Func) : List InstId := f.liveBlocks.flatMap (·.2.phis)

/-- The phis, other than `i` itself, that have `i` among their operands. -/
def phiUsers (f : Func) (i : InstId) : List InstId :=
  f.phiIds.filter fun p => p ≠ i && (f.phi? p).any (·.values.contains (.inst i))

end Func

end SsaBackend
