import SsaBackend.Pass.Session

/-!
# Inserting preheaders

Every loop that is entered from outside gets a preheader: a block whose only successor is the
header and through which all entering edges are led. What the phis of the header received from
outside moves into a phi of the preheader, or is the one value on which the entering edges
agree, and the header receives it from the preheader. A loop whose header is the entry has no
entering edge and is left alone.
-/

namespace SsaBackend

namespace Preheaders

/-- A loop that needs a preheader: its header, and the blocks from which it is entered. -/
structure Candidate where
  header : BlockId
  outside : List BlockId
  deriving DecidableEq, Repr

/-- The first loop that needs a preheader. -/
def candidate? (f : Func) (lf : LoopForest) : Option Candidate :=
  lf.loops.findSome? fun l =>
    let outside := l.outsidePreds f
    if l.preheader.isNone && !outside.isEmpty then some ⟨l.header, outside⟩ else none

/-- Leads the edges from `pred` to the header to the preheader instead. -/
def reroute (header pre : BlockId) (f : Func) (pred : BlockId) : Func :=
  let turned := f.modifyBlock pred fun b =>
    { b with terminator := b.terminator.map (·.retarget header pre) }
  turned.modifyBlock pre (·.addPred pred)

/-- What a phi receives over the given edges. -/
def entering (phi : Phi) (outside : List BlockId) : List PhiOperand :=
  outside.filterMap fun p => (phi.incoming? p).map (⟨p, ·⟩)

/-- The one value that all operands have. -/
def agreed? : List PhiOperand → Option Value
  | [] => none
  | op :: rest => if rest.all (·.value = op.value) then some op.value else none

/-- Adds a phi with the given operands to a block. -/
def addPhi (f : Func) (b : BlockId) (phi : Phi) : Func :=
  let f' := f.modifyBlock b (·.append f.nextInst true)
  { f' with insts := f'.insts.push (some ⟨.phi phi, b⟩) }

/-- Moves what one phi of the header receives from outside into the preheader. -/
def splitPhi (outside : List BlockId) (pre : BlockId) (f : Func) (i : InstId) : Func :=
  let ops := (f.phi? i).elim [] (entering · outside)
  let emptied := f.modifyPhi i fun phi => outside.foldl Phi.dropIncoming phi
  match ops with
  | [] => emptied
  | ops =>
    match agreed? ops with
    | some v => emptied.modifyPhi i (·.setIncoming pre v)
    | none =>
      (addPhi emptied pre ⟨ops⟩).modifyPhi i (·.setIncoming pre (.inst emptied.nextInst))

/-- Gives the header its preheader, to which the entering edges lead already. -/
def attach (c : Candidate) (pre : BlockId) (f : Func) : Func :=
  let phis := (f.block? c.header).elim [] (·.phis)
  let detached := f.modifyBlock c.header fun b =>
    { b with preds := b.preds.filter (!c.outside.contains ·) }
  let split := phis.foldl (splitPhi c.outside pre) detached
  let ended := split.modifyBlock pre ({ · with terminator := some (.jump c.header) })
  ended.modifyBlock c.header (·.addPred pre)

/-- Inserts the preheader of one loop. -/
def insert (c : Candidate) : Work Session BlockId := do
  let pre := (← get).func.nextBlock
  Session.modifyFunc (·.addBlock)
  c.outside.forM fun p => do
    let _ ← Work.ofExcept ((← get).func.getBlock p)
    Session.modifyFunc (reroute c.header pre · p)
  Session.modifyFunc (attach c pre)
  return pre

/-- Inserts preheaders until no loop needs one, at most `bound` of them, and answers how many
were inserted. -/
def insertAll : Nat → Work Session Nat
  | 0 => throw .endless
  | bound + 1 => do
    let lf ← Session.loops
    match candidate? (← get).func lf with
    | none => return 0
    | some c =>
      let pre ← insert c
      Session.setCache .empty
      Session.note (.preheaderInserted pre c.header c.outside.length)
      return (← insertAll bound) + 1

/-- Inserts all preheaders that are missing. Every header gets at most one. -/
def run : Work Session Bool := do
  return (← insertAll ((← get).func.blockCapacity + 2)) > 0

end Preheaders

end SsaBackend
