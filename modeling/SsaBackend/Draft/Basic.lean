import SsaBackend.Draft.Bindings
import SsaBackend.Func.PhiFold
import SsaBackend.Work

/-!
# Drafts

A draft is a function under construction with the bindings of its source variables. The
front end writes and reads variables while it makes blocks, and gets for every read the value
that reaches it; phis appear where several values meet. No other form of the function is ever
built first.

A read walks back over sealed blocks with one predecessor. It ends at a block that binds the
variable, at an unsealed block, where a placeholder phi is put, at a block without
predecessors, where nothing was written and the value is `undef`, or at a join, where a phi
gathers the values that come from the predecessors. The join binds its phi before the
predecessors are read, so that a read around a loop ends at the phi. Phis that turn out to
merge one value only are folded at once.
-/

namespace SsaBackend

/-- A function under construction. -/
structure Draft where
  func : Func
  vars : Bindings := .empty
  journal : Journal := #[]

namespace Draft

/-! ## Small steps -/

/-- Changes the bindings. -/
def modifyVars (g : Bindings → Bindings) : Work Draft Unit :=
  modify fun d => { d with vars := g d.vars }

/-- Replaces the function by an edited one. -/
def setFunc (f : Func) : Work Draft Unit := modify fun d => { d with func := f }

/-- Adds a phi without operands to a block. -/
def newPhi (b : BlockId) : Work Draft InstId := do
  let (phi, f) ← Work.ofExcept ((← get).func.createPhi b)
  setFunc f
  return phi

/-- Folds trivial phis that are not guarded, and brings the bindings up to date. -/
def foldPhis (candidates : List InstId) : Work Draft (List Replacement) := do
  let d ← get
  let (func, rs) := d.func.foldTrivialPhis candidates (!d.vars.guarded.contains ·)
  set ({ func
         vars := if rs.isEmpty then d.vars else d.vars.mapValues (Replacement.resolve rs)
         journal := d.journal ++ rs.map (Replacement.event func.name) } : Draft)
  return rs

/-! ## Reading -/

/-- Where a walk back from a read comes to its end. -/
inductive Source where
  | bound (v : Value)
  | unsealed
  | nothing
  | join (preds : List BlockId)

/-- A walk back from a read: the blocks passed, the block where it ends, and why. -/
structure Trail where
  passed : List BlockId
  last : BlockId
  source : Source

/-- Walks back from `b` over sealed blocks with one predecessor, at most `bound` blocks. -/
def trailFrom (d : Draft) (var : Variable) : Nat → List BlockId → BlockId → Option Trail
  | 0, _, _ => none
  | bound + 1, passed, b =>
    match d.vars.value? var b with
    | some v => some ⟨passed, b, .bound v⟩
    | none =>
      if d.vars.isSealed b then
        match d.func.preds b with
        | [] => some ⟨passed, b, .nothing⟩
        | [p] => d.trailFrom var bound (b :: passed) p
        | preds => some ⟨passed, b, .join preds⟩
      else some ⟨passed, b, .unsealed⟩

/-- The walk back from a read. It has no end exactly if it comes round to a block again. -/
def trail (var : Variable) (b : BlockId) : Work Draft Trail := do
  let d ← get
  match d.trailFrom var (d.func.blockCapacity + 1) [] b with
  | some t => return t
  | none => throw .endless

/-- Puts a placeholder for a variable into an unsealed block. -/
def newPlaceholder (var : Variable) (b : BlockId) : Work Draft Value := do
  let phi ← newPhi b
  modifyVars fun s => (s.addPending var b phi).guard phi
  return .inst phi

/-- Gathers the operands of a phi from the predecessors of its block, with `read` giving the
value at the end of each. The phi is guarded meanwhile and folded afterwards if it is
trivial; the answer is the value it stands for. -/
def fillPhi (read : BlockId → Work Draft Value) (phi : InstId) (preds : List BlockId) :
    Work Draft Value := do
  modifyVars (·.guard phi)
  preds.forM fun p => do
    let v ← read p
    setFunc (← Work.ofExcept ((← get).func.setPhiIncoming phi p v))
  modifyVars (·.unguard phi)
  let rs ← foldPhis [phi]
  return Replacement.resolve rs (.inst phi)

/-- The value of a variable at the end of a block, with at most `depth` joins inside one
another on the way. All the blocks passed are bound to it. -/
def readWithin (var : Variable) : Nat → BlockId → Work Draft Value
  | 0, _ => throw .endless
  | depth + 1, b => do
    let t ← trail var b
    let v ← match t.source with
      | .bound v => pure v
      | .unsealed => newPlaceholder var t.last
      | .nothing => pure .undef
      | .join preds => do
        let phi ← newPhi t.last
        modifyVars (·.bind var t.last (.inst phi))
        fillPhi (readWithin var depth) phi preds
    (t.last :: t.passed).forM fun b => modifyVars (·.bind var b v)
    return v

/-- How many joins can lie inside one another: each binds the variable in a block that did
not bind it before. -/
def readDepth (d : Draft) : Nat := d.func.blockCapacity + 1

/-- The value of a variable at the end of a block. -/
def read (var : Variable) (b : BlockId) : Work Draft Value := do
  readWithin var (← get).readDepth b

/-! ## Writing and sealing -/

/-- Gives a variable a value at the end of a block. -/
def write (var : Variable) (b : BlockId) (v : Value) : Work Draft Unit :=
  modifyVars (·.bind var b v)

/-- Seals a block: fills its placeholders from the predecessors, and folds the phis bound in
it that turn out to be trivial. A sealed block is left as it is. -/
def sealBlock (b : BlockId) : Work Draft Unit := do
  let d ← get
  if d.vars.isSealed b then return
  modifyVars (·.dropPending b)
  (d.vars.pendingAt b).forM fun e => do
    let _ ← fillPhi (read e.1) e.2 ((← get).func.preds b)
  modifyVars (·.markSealed b)
  let d ← get
  let _ ← foldPhis ((d.vars.valuesAt b).filterMap fun v => v.inst?.filter (d.func.phi? · |>.isSome))

end Draft

end SsaBackend
