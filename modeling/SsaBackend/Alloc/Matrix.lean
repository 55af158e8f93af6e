import SsaBackend.Alloc.Target
import SsaBackend.Live.Intervals
import SsaBackend.NatMap

/-!
# Who occupies which register

For every physical register the virtual registers that live in it, the ranges at which it is
taken anyway, and whether it is reserved.
-/

namespace SsaBackend

/-- What stands in the way of putting a virtual register into a physical one. -/
inductive Interference where
  | free
  | occupied (regs : List VirtReg)
  | fixed
  deriving DecidableEq, Repr

/-- The occupants of the physical registers. -/
structure RegMatrix where
  units : Array (List VirtReg)
  /-- The ranges at which each register is taken anyway, sorted. -/
  fixed : Array (List Segment)
  reserved : Array Bool
  /-- The physical register of each virtual register that has one. -/
  assignment : NatMap PhysReg
  deriving DecidableEq, Repr

namespace RegMatrix

/-- All registers of a target, none of them occupied. -/
def ofTarget (t : Target) : RegMatrix :=
  let fixedOf (i : Nat) : List Segment :=
    Segment.sort (t.fixed.filterMap fun e => if e.1.index = i then some e.2 else none)
  { units := Array.replicate t.numRegs []
    fixed := (Array.range t.numRegs).map fixedOf
    reserved := (Array.range t.numRegs).map fun i => t.isReserved ⟨i⟩
    assignment := .empty }

/-- The occupants of a physical register that are live together with an interval. -/
def occupants (m : RegMatrix) (ivs : Intervals) (li : Interval) (p : PhysReg) : List VirtReg :=
  (m.units.getD p.index []).filter fun o => (ivs.get? o).any li.overlaps

/-- What stands in the way of putting `r` into `p`. A register outside the file counts as
reserved, and nothing stands in the way of a register that does not exist. -/
def check (m : RegMatrix) (ivs : Intervals) (r : VirtReg) (p : PhysReg) : Interference :=
  match ivs.get? r with
  | none => .free
  | some li =>
    if m.reserved.getD p.index true || segmentsOverlap li.segments (m.fixed.getD p.index []) then
      .fixed
    else
      match m.occupants ivs li p with
      | [] => .free
      | os => .occupied os

/-- Puts `r` into `p`; a register outside the file is passed over. -/
def assign (m : RegMatrix) (r : VirtReg) (p : PhysReg) : RegMatrix :=
  if p.index < m.units.size then
    { m with
      units := m.units.modify p.index (· ++ [r])
      assignment := m.assignment.insert r.index p }
  else m

/-- The physical register of `r`. -/
def assigned? (m : RegMatrix) (r : VirtReg) : Option PhysReg := m.assignment.get? r.index

/-- Takes `r` out of its physical register. -/
def unassign (m : RegMatrix) (r : VirtReg) : RegMatrix :=
  match m.assigned? r with
  | none => m
  | some p =>
    { m with
      units := m.units.modify p.index (·.filter (· ≠ r))
      assignment := m.assignment.erase r.index }

end RegMatrix

end SsaBackend
