import SsaBackend.Draft.Basic
import SsaBackend.Func.Verify

/-!
# Building functions

The front end's view of a draft: an insertion point to which instructions are appended and at
which variables are written and read. The front end seals every block once all its
predecessors exist; finishing seals what is left and checks the result.
-/

namespace SsaBackend

/-- A draft with an insertion point. -/
structure Builder where
  draft : Draft
  current : BlockId

namespace Builder

/-- Starts a function at its entry, which is sealed. -/
def new (name : String) (numArgs : Nat) : Builder :=
  let f := Func.new name numArgs
  ⟨{ func := f, vars := Bindings.empty.markSealed f.entry }, f.entry⟩

/-- The function as far as it is built. -/
def func (b : Builder) : Func := b.draft.func

/-- Whether a block is sealed. -/
def isSealed (b : Builder) (block : BlockId) : Bool := b.draft.vars.isSealed block

/-- Whether the block at the insertion point is complete. -/
def isTerminated (b : Builder) : Bool := (b.func.terminator? b.current).isSome

/-- Work on the draft of a builder. -/
def onDraft {α : Type} (w : Work Draft α) : Work Builder α := fun b =>
  match w.run b.draft with
  | .ok a d => .ok a { b with draft := d }
  | .error e d => .error e { b with draft := d }

/-- Makes an unsealed block and leaves the insertion point where it is. -/
def createBlock : Work Builder BlockId := onDraft do
  let f := (← get).func
  Draft.setFunc f.addBlock
  return f.nextBlock

/-- Moves the insertion point to the end of a block. -/
def switchTo (block : BlockId) : Work Builder Unit := do
  let _ ← Work.ofExcept ((← get).func.getBlock block)
  modify fun b => { b with current := block }

/-- Declares that a block gains no more predecessors. -/
def sealBlock (block : BlockId) : Work Builder Unit := onDraft (Draft.sealBlock block)

/-- Assigns to a variable at the insertion point. -/
def defVar (var : Variable) (v : Value) : Work Builder Unit := do
  let b ← get
  onDraft (Draft.write var b.current v)

/-- Reads a variable at the insertion point. -/
def useVar (var : Variable) : Work Builder Value := do
  let b ← get
  onDraft (Draft.read var b.current)

/-- The widths a conversion may work on. -/
def checkWidth : Inst → Except Error Unit
  | .cast _ _ bits => if 1 ≤ bits ∧ bits ≤ 64 then .ok () else .error (.malformed (.castWidth bits))
  | _ => .ok ()

/-- Appends an instruction at the insertion point. -/
def emit (inst : Inst) : Work Builder Value := do
  Work.ofExcept (checkWidth inst)
  let b ← get
  if b.isTerminated then throw (.malformed (.appendAfterEnd b.current inst.opcode))
  let (id, f) ← Work.ofExcept (b.func.appendInst b.current inst)
  onDraft (Draft.setFunc f)
  return .inst id

/-- Completes the block at the insertion point. A sealed block takes no new edge. -/
def terminate (t : Terminator) : Work Builder Unit := do
  let b ← get
  match t.successors.find? b.isSealed with
  | some s => throw (.sealedBlock s)
  | none => onDraft (Draft.setFunc (← Work.ofExcept (b.func.setTerminator b.current t)))

/-- Seals a block that is still unsealed when the function is finished. -/
def sealLate (block : BlockId) : Work Draft Unit := do
  let d ← get
  if !d.vars.isSealed block then
    set { d with journal := d.journal.push (.inFunction d.func.name (.sealedAtFinish block)) }
    Draft.sealBlock block

/-- Seals the remaining blocks and checks the function. -/
def finish : Work Builder Func := onDraft do
  (← get).func.blockIds.forM sealLate
  let f := (← get).func
  Work.ofExcept f.verify
  return f

end Builder

end SsaBackend
