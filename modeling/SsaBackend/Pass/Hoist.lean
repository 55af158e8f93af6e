import SsaBackend.Pass.Session

/-!
# Hoisting loop-invariant code

A computation that gives the same result in every round of a loop moves to the preheader, if
running it there can do no harm and its operands come from outside the loop. Blocks are
visited along the dominator tree from the header down, so operands that were just hoisted
count as coming from outside. Loops are dealt with innermost first: what leaves an inner loop
lands in the loop around it, and can leave that in turn.
-/

namespace SsaBackend

namespace Hoist

/-- Whether an operand is computed outside the loop, or not computed at all. -/
def fromOutside (f : Func) (l : Loop) : Value → Bool
  | .inst i => (f.inst? i).any (!l.contains ·.block)
  | _ => true

/-- Whether an instruction can move out of the loop. -/
def isInvariant (f : Func) (l : Loop) (i : InstId) : Bool :=
  (f.inst? i).any fun p =>
    p.inst.isHoistable && p.inst.isSpeculatable && p.inst.operands.all (fromOutside f l)

/-- Moves one instruction to the preheader if it is invariant, and counts it. -/
def hoistInst (l : Loop) (pre b : BlockId) (count : Nat) (i : InstId) : Work Session Nat := do
  let f := (← get).func
  if isInvariant f l i then
    let moved ← Work.ofExcept (f.moveInst i pre)
    Session.modifyFunc fun _ => moved
    Session.note (.instHoisted i b pre)
    return count + 1
  else return count

/-- Moves the invariant instructions of a block to the preheader. -/
def hoistBlock (l : Loop) (pre : BlockId) (count : Nat) (b : BlockId) : Work Session Nat := do
  let body := ((← get).func.block? b).elim [] (·.body)
  body.foldlM (hoistInst l pre b) count

/-- The blocks of a loop, down the dominator tree from the header. -/
def blocksOf (dom : DomTree) (l : Loop) : List BlockId :=
  (dom.preorderFrom l.header.index fun n => l.contains ⟨n⟩).map BlockId.mk

/-- Moves the invariant instructions of a loop to its preheader. -/
def hoistLoop (dom : DomTree) (count : Nat) (l : Loop) : Work Session Nat := do
  match l.preheader with
  | none => throw (.missingPreheader l.header)
  | some pre => (blocksOf dom l).foldlM (hoistBlock l pre) count

/-- Hoists the invariant instructions of all loops. -/
def run : Work Session Bool := do
  Session.compute ⟨false, true⟩
  let s ← get
  let dom ← Work.ofExcept (s.cache.getDominators s.func)
  let lf ← Work.ofExcept (s.cache.getLoops s.func)
  let count ← lf.innermostFirst.foldlM (hoistLoop dom) 0
  if count > 0 then Session.note (.instsHoisted count)
  return count > 0

end Hoist

end SsaBackend
