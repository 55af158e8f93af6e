import SsaBackend.Name
import SsaBackend.Live.Segment

/-!
# Errors

Why an operation was refused. A `Defect` is something structurally wrong with a function, an
allocation or a request; the other errors concern sealing, loops, schedules and registers.
`Error.message` is the one place where they are put into words.

Two errors are not about the caller's data being refused but about the work itself:
`outOfRange` is an index outside the table it belongs to, after which nothing that was being
worked on can be trusted, and `endless` is work that would never come to an end.
-/

namespace SsaBackend

/-- What can be wrong with the structure of a function. -/
inductive FuncDefect where
  | entryMissing
  | unterminated (block : BlockId)
  | unlinkedEdge (block succ : BlockId)
  | repeatedPred (block pred : BlockId)
  | edgelessPred (block pred : BlockId)
  | stalePhi (block : BlockId) (phi : InstId)
  | phiArity (phi : InstId) (block : BlockId) (preds : Nat)
  | staleInst (block : BlockId) (inst : InstId)
  | removedOperand (block : BlockId) (inst : InstId)
  | unknownArg (block : BlockId) (arg numArgs : Nat)
  deriving DecidableEq, Repr

/-- The wording of a defect of a function. -/
def FuncDefect.message : FuncDefect → String
  | entryMissing => "entry block is missing"
  | unterminated b => s!"block {b} has no terminator"
  | unlinkedEdge b s => s!"{b} branches to {s} but is not one of its predecessors"
  | repeatedPred b p => s!"{b} lists predecessor {p} twice"
  | edgelessPred b p => s!"{b} lists {p} as predecessor without an edge"
  | stalePhi b i => s!"{b} lists a stale phi {i}"
  | phiArity i b n => s!"phi {i} in {b} does not match the block's {n} predecessors"
  | staleInst b i => s!"{b} lists a stale or misplaced instruction {i}"
  | removedOperand b i => s!"{b} uses removed instruction {i}"
  | unknownArg b n total => s!"{b} uses argument {n} of {total}"

/-- What can be wrong with an allocation. -/
inductive AllocDefect where
  | unassigned (reg : VirtReg)
  | assignedReserved (reg : VirtReg) (phys : PhysReg)
  | outsideClass (phys : PhysReg) (reg : VirtReg)
  | overlapsFixed (reg : VirtReg) (segment : Segment) (phys : PhysReg)
  | outsideFile (phys : PhysReg)
  | sharedRegister (first second : VirtReg) (phys : PhysReg)
  | uncoveredDef (slot : Nat) (reg : VirtReg)
  | uncoveredUse (slot : Nat) (reg : VirtReg)
  deriving DecidableEq, Repr

/-- The wording of a defect of an allocation. -/
def AllocDefect.message : AllocDefect → String
  | unassigned v => s!"{v} is live but has no register"
  | assignedReserved v r => s!"{v} is assigned reserved {r}"
  | outsideClass r v => s!"{r} is outside the class of {v}"
  | overlapsFixed v s r => s!"{v} overlaps fixed {s} of {r}"
  | outsideFile r => s!"{r} is outside the register file"
  | sharedRegister a b r => s!"{a} and {b} overlap but share {r}"
  | uncoveredDef d v => s!"Def {d} of spilled {v} is not covered"
  | uncoveredUse u v => s!"Use {u} of spilled {v} is not covered"

/-- What can be wrong with a request, or with the data it is about. -/
inductive Defect where
  | missingBlock (block : BlockId)
  | missingInst (inst : InstId)
  | notPhi (inst : InstId)
  | immovablePhi (inst : InstId)
  | missingTarget (block : BlockId)
  | alreadyTerminated (block : BlockId)
  | entryDeleted
  | appendAfterEnd (block : BlockId) (opcode : String)
  | castWidth (bits : Nat)
  | unknownSpill (reg : VirtReg)
  | inFunction (name : String) (defect : FuncDefect)
  | inAllocation (defect : AllocDefect)
  deriving DecidableEq, Repr

/-- The wording of a defect. -/
def Defect.message : Defect → String
  | missingBlock b => s!"Block {b} does not exist"
  | missingInst i => s!"Instruction {i} does not exist"
  | notPhi i => s!"Instruction {i} is not a phi"
  | immovablePhi i => s!"Phi {i} can not be moved"
  | missingTarget b => s!"Branch target {b} does not exist"
  | alreadyTerminated b => s!"Block {b} already has a terminator"
  | entryDeleted => "The entry block can not be deleted"
  | appendAfterEnd b opcode => s!"Block {b} is already terminated, can not append {opcode}"
  | castWidth bits => s!"Invalid cast width {bits}"
  | unknownSpill v => s!"Spilling unknown register {v}"
  | inFunction name d => s!"{name}: {d.message}"
  | inAllocation d => d.message

/-- Why an operation was refused. -/
inductive Error where
  | malformed (defect : Defect)
  | sealedBlock (block : BlockId)
  | missingPreheader (header : BlockId)
  | passOrder (pass requires : String)
  | allocationFailed (reg : VirtReg)
  | notSupported
  | outOfRange
  | endless
  deriving DecidableEq, Repr

/-- The wording of an error. -/
def Error.message : Error → String
  | malformed d => d.message
  | sealedBlock b => s!"Block {b} is sealed and can not gain new predecessors"
  | missingPreheader h => s!"Loop with header {h} has no preheader"
  | passOrder p r => s!"Pass '{p}' requires '{r}' to run first"
  | allocationFailed v => s!"Ran out of registers during allocation of {v}"
  | notSupported => "This target description is not supported"
  | outOfRange => "An index lies outside its table"
  | endless => "The work never comes to an end"

end SsaBackend
