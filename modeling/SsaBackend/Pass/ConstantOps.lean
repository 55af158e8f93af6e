import SsaBackend.Pass.Fold
import SsaBackend.Pass.Session

/-!
# Folding constant operations

Instructions whose value is known are replaced by it, round by round: a round looks for all
of them, then replaces one after the other. A select may amount to an instruction that was
replaced earlier in the same round; it then waits for the next round, which sees what its
operand has become. When a round finds nothing, trivial phis are folded.

A select that chooses itself is removed although it is used. A select that amounts to it then
waits in vain, and there is no round that finds nothing.
-/

namespace SsaBackend

namespace ConstantOps

/-- The instructions whose value is known, with their values. -/
def candidates (f : Func) : List (InstId × Value) :=
  (f.liveBlocks.flatMap (·.2.body)).filterMap fun i =>
    (f.inst? i).bind fun p => p.inst.fold?.map (i, ·)

/-- Folding in progress: the function, and how many instructions were replaced. -/
structure Progress where
  func : Func
  folded : Nat

/-- Replaces an instruction by its value, unless that was itself removed meanwhile. -/
def apply (s : Progress) (c : InstId × Value) : Progress :=
  if c.2.inst?.any fun i => (s.func.inst? i).isNone then s
  else ⟨(s.func.replaceUses c.1 c.2).removeInst c.1, s.folded + 1⟩

/-- One round, if it finds anything. -/
def round (s : Progress) : Option Progress :=
  match candidates s.func with
  | [] => none
  | cs => some (cs.foldl apply s)

/-- All rounds. A round that finds something removes an instruction, or nothing changes from
then on. -/
def foldAll (f : Func) : Progress := repeatUpTo round f.instCapacity ⟨f, 0⟩

/-- Folds constant operations, then trivial phis. -/
def run : Work Session Bool := do
  let done := foldAll (← get).func
  if !(candidates done.func).isEmpty then throw .endless
  let folded := done.func.foldTrivialPhis done.func.phiIds fun _ => true
  Session.setFolded folded
  let phis := folded.2.length
  if done.folded + phis > 0 then Session.note (.constantsFolded done.folded phis)
  return done.folded + phis > 0

end ConstantOps

end SsaBackend
