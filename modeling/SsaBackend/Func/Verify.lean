import SsaBackend.Func.Basic

/-!
# Structural checks

`Func.verify` looks for the first structural defect of a function, block by block. A function
that passes has every block completed, predecessors and edges that agree, phis with exactly
one operand per predecessor, and operands that name instructions and arguments that exist.
-/

namespace SsaBackend

namespace Func

/-- Refuses unless a condition holds. -/
def require (f : Func) (cond : Bool) (defect : FuncDefect) : Except Error Unit :=
  if cond then .ok () else .error (.malformed (.inFunction f.name defect))

/-- A block is one of the predecessors of each of its successors. -/
def verifySuccs (f : Func) (id : BlockId) (t : Terminator) : Except Error Unit :=
  t.successors.forM fun s => f.require ((f.preds s).contains id) (.unlinkedEdge id s)

/-- The listed predecessors are distinct, and each has an edge to the block. `seen` are the
ones already looked at. -/
def verifyPreds (f : Func) (id : BlockId) : List BlockId → List BlockId → Except Error Unit
  | _, [] => .ok ()
  | seen, p :: rest => do
    f.require (!seen.contains p) (.repeatedPred id p)
    f.require ((f.succs p).contains id) (.edgelessPred id p)
    f.verifyPreds id (p :: seen) rest

/-- A listed phi belongs to the block and has one operand per predecessor. -/
def verifyPhi (f : Func) (id : BlockId) (preds : List BlockId) (i : InstId) : Except Error Unit :=
  match (f.inst? i).filter (·.block = id) |>.bind (·.inst.phi?) with
  | none => f.require false (.stalePhi id i)
  | some node =>
    f.require (node.arity = preds.length && preds.all fun p => (node.incoming? p).isSome)
      (.phiArity i id preds.length)

/-- Any other listed instruction belongs to the block and is not a phi. -/
def verifyInst (f : Func) (id : BlockId) (i : InstId) : Except Error Unit :=
  f.require ((f.inst? i).any fun p => p.block = id && !p.inst.isPhi) (.staleInst id i)

/-- An operand names something that exists. -/
def verifyOperand (f : Func) (id : BlockId) : Value → Except Error Unit
  | .inst i => f.require (f.inst? i).isSome (.removedOperand id i)
  | .arg n => f.require (n < f.numArgs) (.unknownArg id n f.numArgs)
  | _ => .ok ()

/-- The operands of the instructions of a block and of its terminator. -/
def blockOperands (f : Func) (b : Block) : List Value :=
  (b.insts.filterMap f.inst?).flatMap (·.inst.operands) ++ b.terminator.elim [] (·.operands)

/-- All the checks of one block. -/
def verifyBlock (f : Func) (id : BlockId) (b : Block) : Except Error Unit :=
  match b.terminator with
  | none => f.require false (.unterminated id)
  | some t => do
    f.verifySuccs id t
    f.verifyPreds id [] b.preds
    b.phis.forM (f.verifyPhi id b.preds)
    b.body.forM (f.verifyInst id)
    (f.blockOperands b).forM (f.verifyOperand id)

/-- Looks for the first structural defect. -/
def verify (f : Func) : Except Error Unit := do
  f.require (f.hasBlock f.entry) .entryMissing
  f.liveBlocks.forM fun e => f.verifyBlock e.1 e.2

end Func

end SsaBackend
