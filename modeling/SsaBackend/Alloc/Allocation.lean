import SsaBackend.Alloc.Spill
import SsaBackend.Alloc.Target
import SsaBackend.NatMap

/-!
# Allocations

The result of register allocation, and the check of one against the intervals it is for:
every register that is live somewhere has a register of its class that is not reserved and
not taken at a slot of its own, no two that are live together share a register, and the
pieces of a spilled register cover its definition and its uses.
-/

namespace SsaBackend

/-- Which register went where. -/
structure Allocation where
  /-- The physical register of each virtual register that got one. -/
  assignment : NatMap PhysReg := .empty
  /-- The spills in the order they happened. -/
  spills : List SpillRecord := []
  deriving DecidableEq, Repr

namespace Allocation

/-- The physical register of a virtual register. -/
def assigned? (a : Allocation) (r : VirtReg) : Option PhysReg := a.assignment.get? r.index

/-- The virtual registers that got a register, with it, in order. -/
def assignments (a : Allocation) : List (VirtReg × PhysReg) :=
  a.assignment.entries.map fun e => (⟨e.1⟩, e.2)

/-- How a register was spilled. -/
def spillOf? (a : Allocation) (r : VirtReg) : Option SpillRecord := a.spills.find? (·.reg = r)

/-- Whether a register was spilled. -/
def isSpilled (a : Allocation) (r : VirtReg) : Bool := (a.spillOf? r).isSome

/-! ## Checking -/

/-- Refuses unless a condition holds. -/
def require (cond : Bool) (defect : AllocDefect) : Except Error Unit :=
  if cond then .ok () else .error (.malformed (.inAllocation defect))

/-- Checks a register that is live somewhere against those already met in its physical
register, and lists it there. -/
def verifyInterval (a : Allocation) (t : Target) (ivs : Intervals)
    (met : Array (List VirtReg)) (li : Interval) : Except Error (Array (List VirtReg)) := do
  match a.assigned? li.reg with
  | none => throw (.malformed (.inAllocation (.unassigned li.reg)))
  | some p =>
    require (!t.isReserved p) (.assignedReserved li.reg p)
    require (t.inClass li.regClass p) (.outsideClass p li.reg)
    t.fixed.forM fun e =>
      require (!(e.1 = p && segmentsOverlap li.segments [e.2])) (.overlapsFixed li.reg e.2 p)
    require (p.index < met.size) (.outsideFile p)
    (met.getD p.index []).forM fun o =>
      require (!(ivs.get? o).any (·.overlaps li)) (.sharedRegister o li.reg p)
    return met.modify p.index (· ++ [li.reg])

/-- Whether a slot is covered by one of the pieces of a spilled register. -/
def covered (ivs : Intervals) (s : SpillRecord) (slot : Nat) : Bool :=
  (s.products.filterMap ivs.get?).any (·.covers slot)

/-- Checks that the pieces of a spilled register cover its definition and its uses. -/
def verifySpill (ivs : Intervals) (s : SpillRecord) : Except Error Unit := do
  s.defAt.toList.forM fun d => require (covered ivs s d) (.uncoveredDef d s.reg)
  s.usedAt.forM fun u => require (covered ivs s u) (.uncoveredUse u s.reg)

/-- Looks for the first defect of an allocation. -/
def verify (a : Allocation) (ivs : Intervals) (t : Target) : Except Error Unit := do
  let live := ivs.toList.filter (!·.isEmpty)
  let _ ← live.foldlM (a.verifyInterval t ivs) (Array.replicate t.numRegs [])
  a.spills.forM (verifySpill ivs)

end Allocation

end SsaBackend
