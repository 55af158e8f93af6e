import SsaBackend.Func.Edit
import SsaBackend.Event
import SsaBackend.Iterate

/-!
# Folding trivial phis

A phi that merges a single value is replaced by it. That can make phis which used it trivial
in turn, so they are looked at again. Removing an edge of the graph, and with it a block,
goes through the same folding: the phis at the end of the edge lose an operand.

Folding answers with the replacements it made, in order. A later one may remove the value
that an earlier one put in; `resolve` follows such chains to their end.
-/

namespace SsaBackend

/-- A removed phi and the value that took its place. -/
structure Replacement where
  phi : InstId
  same : Value
  deriving DecidableEq, Repr

namespace Replacement

/-- The event that tells of a replacement. -/
def event (name : String) (r : Replacement) : Event := .inFunction name (.phiReplaced r.phi r.same)

/-- The value that took the place of `i`. -/
def find? (rs : List Replacement) (i : InstId) : Option Value :=
  (rs.find? (·.phi = i)).map (·.same)

/-- One step along a chain of replacements. -/
def next? (rs : List Replacement) (v : Value) : Option Value := v.inst?.bind (find? rs)

/-- Follows replacements to a value that was not replaced. -/
def resolve (rs : List Replacement) (v : Value) : Value := repeatUpTo (next? rs) rs.length v

end Replacement

namespace Func

/-! ## The worklist -/

/-- The state of folding: the function, the phis still to look at, those of them that need
not be put on the list again, and what was replaced so far. -/
structure PhiFold where
  func : Func
  work : List InstId
  queued : List InstId
  replaced : List Replacement

namespace PhiFold

/-- Puts a phi on the list unless it waits there already. -/
def enqueue (s : PhiFold) (i : InstId) : PhiFold :=
  if i ∈ s.queued then s else { s with work := s.work ++ [i], queued := i :: s.queued }

/-- Replaces the phi `i` by `same` and puts the phis that used it on the list. -/
def replace (s : PhiFold) (i : InstId) (same : Value) : PhiFold :=
  let folded :=
    { s with
      func := (s.func.replaceUses i same).removeInst i
      replaced := s.replaced ++ [⟨i, same⟩] }
  (s.func.phiUsers i).foldl enqueue folded

/-- Looks at the first phi of the list. -/
def step (mayFold : InstId → Bool) (s : PhiFold) : Option PhiFold :=
  match s.work with
  | [] => none
  | i :: rest =>
    let s := { s with work := rest, queued := s.queued.filter (· ≠ i) }
    if mayFold i then
      match (s.func.phi? i).bind (·.trivial? i) with
      | some same => some (s.replace i same)
      | none => some s
    else some s

end PhiFold

/-- A number of steps in which folding ends: every phi on the list is looked at once, and
each of at most `n` replacements puts at most `n` phis on the list. -/
def phiFoldBound (f : Func) (candidates : List InstId) : Nat :=
  candidates.length + f.instCapacity * f.instCapacity

/-- Replaces the trivial phis among `candidates` and among the phis that turn trivial on the
way, of those that `mayFold` lets go. -/
def foldTrivialPhis (f : Func) (candidates : List InstId) (mayFold : InstId → Bool) :
    Func × List Replacement :=
  let done := repeatUpTo (PhiFold.step mayFold) (f.phiFoldBound candidates)
    ⟨f, candidates, candidates, []⟩
  (done.func, done.replaced)

/-! ## Removing edges and blocks -/

/-- Removes `pred` from the predecessors of a block. Its phis lose the operand that came
from there, and those that are trivial then are folded. A deleted block is passed over. -/
def removePred (f : Func) (b pred : BlockId) : Func × List Replacement :=
  match f.block? b with
  | none => (f, [])
  | some bb =>
    let unlinked := f.modifyBlock b (·.dropPred pred)
    let dropped := bb.phis.foldl (fun g i => g.modifyPhi i (·.dropIncoming pred)) unlinked
    dropped.foldTrivialPhis bb.phis fun _ => true

/-- Empties the place of a block and those of its instructions. -/
def clearBlock (f : Func) (b : BlockId) (bb : Block) : Func :=
  bb.insts.foldl clearInst { f with blocks := f.blocks.modify b.index fun _ => none }

/-- Deletes a block, and removes it from the predecessors of its successors. -/
def removeBlock (f : Func) (b : BlockId) : Except Error (Func × List Replacement) := do
  if b = f.entry then throw (.malformed .entryDeleted)
  let bb ← f.getBlock b
  return bb.successors.foldl
    (fun acc s => let r := acc.1.removePred s b; (r.1, acc.2 ++ r.2)) (f.clearBlock b bb, [])

end Func

end SsaBackend
