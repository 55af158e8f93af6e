import SsaBackend.Func.Basic
import SsaBackend.Total

/-!
# Editing functions

The operations that add, move, change and remove blocks and instructions. An operation that
is refused changes nothing: everything that can go wrong is looked at before the tables are
touched.
-/

namespace SsaBackend

namespace Block

/-- Lists an instruction at the end of its part of the block. -/
def append (b : Block) (i : InstId) (phi : Bool) : Block :=
  if phi then { b with phis := b.phis ++ [i] } else { b with body := b.body ++ [i] }

/-- Takes an instruction out of the lists of the block. -/
def unlist (b : Block) (i : InstId) : Block :=
  { b with phis := b.phis.filter (· ≠ i), body := b.body.filter (· ≠ i) }

/-- Lists `pred` as a predecessor, once. -/
def addPred (b : Block) (pred : BlockId) : Block :=
  if pred ∈ b.preds then b else { b with preds := b.preds ++ [pred] }

/-- Takes a predecessor out of the list. -/
def dropPred (b : Block) (pred : BlockId) : Block :=
  { b with preds := b.preds.filter (· ≠ pred) }

end Block

namespace Func

/-! ## Places in the tables -/

/-- Changes a block, if there is one. -/
def modifyBlock (f : Func) (b : BlockId) (g : Block → Block) : Func :=
  { f with blocks := f.blocks.modify b.index (·.map g) }

/-- Changes what an instruction computes, if there is one. -/
def modifyInst (f : Func) (i : InstId) (g : Inst → Inst) : Func :=
  { f with insts := f.insts.modify i.index (·.map fun p => { p with inst := g p.inst }) }

/-- Changes a phi node, if the handle names one. -/
def modifyPhi (f : Func) (i : InstId) (g : Phi → Phi) : Func :=
  f.modifyInst i fun
    | .phi node => .phi (g node)
    | inst => inst

/-! ## Adding -/

/-- The handle the next block gets. -/
def nextBlock (f : Func) : BlockId := ⟨f.blockCapacity⟩

/-- Adds an empty block at the end. -/
def addBlock (f : Func) : Func := { f with blocks := f.blocks.push (some {}) }

/-- The handle the next instruction gets. -/
def nextInst (f : Func) : InstId := ⟨f.instCapacity⟩

/-- Adds an instruction at the end of a block, a phi behind the other phis. -/
def appendInst (f : Func) (b : BlockId) (inst : Inst) : Except Error (InstId × Func) := do
  let _ ← f.getBlock b
  let f' := f.modifyBlock b (·.append f.nextInst inst.isPhi)
  return (f.nextInst, { f' with insts := f'.insts.push (some ⟨inst, b⟩) })

/-- Adds a phi without operands to a block. -/
def createPhi (f : Func) (b : BlockId) : Except Error (InstId × Func) :=
  f.appendInst b (.phi .empty)

/-- Sets the value that a phi receives from `pred`. -/
def setPhiIncoming (f : Func) (i : InstId) (pred : BlockId) (value : Value) :
    Except Error Func := do
  let p ← f.getInst i
  if p.inst.isPhi then return f.modifyPhi i (·.setIncoming pred value)
  else throw (.malformed (.notPhi i))

/-! ## Removing and moving instructions -/

/-- Empties the place of an instruction. -/
def clearInst (f : Func) (i : InstId) : Func :=
  { f with insts := f.insts.modify i.index fun _ => none }

/-- Removes an instruction and takes it out of its block. Operands that name it stay. -/
def removeInst (f : Func) (i : InstId) : Func :=
  match f.inst? i with
  | some p => (f.clearInst i).modifyBlock p.block (·.unlist i)
  | none => f

/-- Moves an instruction that is not a phi to the end of a block. -/
def moveInst (f : Func) (i : InstId) (b : BlockId) : Except Error Func := do
  let p ← f.getInst i
  if p.inst.isPhi then throw (.malformed (.immovablePhi i))
  let _ ← f.getBlock b
  let _ ← f.getBlock p.block
  let unlisted := f.modifyBlock p.block fun bb => { bb with body := bb.body.filter (· ≠ i) }
  let listed := unlisted.modifyBlock b fun bb => { bb with body := bb.body ++ [i] }
  return { listed with insts := listed.insts.modify i.index (·.map fun q => { q with block := b }) }

/-! ## Operands -/

/-- How many operands name the instruction `old`. -/
def useCount (f : Func) (old : InstId) : Nat :=
  let inInsts := f.insts.toList.map fun p => p.elim 0 (·.inst.operands.count (.inst old))
  let inEnds := f.blocks.toList.map fun b =>
    (b.bind (·.terminator)).elim 0 (·.operands.count (.inst old))
  total inInsts + total inEnds

/-- Applies `g` to the operands of every instruction and terminator. -/
def mapOperands (f : Func) (g : Value → Value) : Func :=
  { f with
    insts := f.insts.map (·.map fun p => { p with inst := p.inst.mapOperands g })
    blocks := f.blocks.map (·.map fun b =>
      { b with terminator := b.terminator.map (·.mapOperands g) }) }

/-- Makes every operand that names `old` be `new`. -/
def replaceUses (f : Func) (old : InstId) (new : Value) : Func :=
  f.mapOperands (Value.subst (.inst old) new)

/-! ## Edges -/

/-- Records `pred` as a predecessor of a block. -/
def addPred (f : Func) (b pred : BlockId) : Except Error Func := do
  let _ ← f.getBlock b
  return f.modifyBlock b (·.addPred pred)

/-- Completes a block, and records it as a predecessor of its successors. -/
def setTerminator (f : Func) (b : BlockId) (t : Terminator) : Except Error Func := do
  match t.successors.find? (!f.hasBlock ·) with
  | some s => throw (.malformed (.missingTarget s))
  | none =>
    let bb ← f.getBlock b
    if bb.terminator.isSome then throw (.malformed (.alreadyTerminated b))
    let ended := f.modifyBlock b ({ · with terminator := some t })
    return t.successors.foldl (fun g s => g.modifyBlock s (·.addPred b)) ended

/-- Puts another terminator in place of the one a block has, and leaves the predecessors to
the caller. -/
def replaceTerminator (f : Func) (b : BlockId) (t : Terminator) : Except Error Func := do
  let _ ← f.getBlock b
  return f.modifyBlock b ({ · with terminator := some t })

end Func

end SsaBackend
