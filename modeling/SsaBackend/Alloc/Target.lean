import SsaBackend.Error

/-!
# Target registers

The register file that registers are allocated from: classes of interchangeable registers,
registers that are never handed out, and registers that are taken at known program points,
for instance by a calling convention.
-/

namespace SsaBackend

/-- A named set of interchangeable registers, in the order they are tried. -/
structure RegClass where
  name : String
  regs : List PhysReg
  deriving DecidableEq, Repr

/-- A register file. Class 0 is the one every virtual register starts in. -/
structure Target where
  classes : List RegClass
  reserved : List PhysReg := []
  fixed : List (PhysReg × Segment) := []
  deriving DecidableEq, Repr

namespace Target

/-- One class of the registers `r0` up to, not including, `r` with the given number. -/
def uniform (count : Nat) : Target := { classes := [⟨"gpr", (List.range count).map PhysReg.mk⟩] }

/-- A register file of four registers. -/
def standard : Target := uniform 4

/-- Reserves a register. -/
def reserve (t : Target) (r : PhysReg) : Target :=
  if r ∈ t.reserved then t else { t with reserved := t.reserved ++ [r] }

/-- Takes a register over a range of slots. -/
def fix (t : Target) (r : PhysReg) (s : Segment) : Target := { t with fixed := t.fixed ++ [(r, s)] }

/-- Whether a register is never handed out. -/
def isReserved (t : Target) (r : PhysReg) : Bool := t.reserved.contains r

/-- One more than the highest register number of any class. -/
def numRegs (t : Target) : Nat :=
  ((t.classes.flatMap (·.regs)).map (·.index + 1)).foldl max 0

/-- Whether a register belongs to a class. -/
def inClass (t : Target) (index : Nat) (r : PhysReg) : Bool :=
  t.classes[index]?.any (·.regs.contains r)

/-- The registers of a class that may be handed out, in the order they are tried. -/
def candidates (t : Target) (index : Nat) : List PhysReg :=
  (t.classes[index]?.elim [] (·.regs)).filter (!t.isReserved ·)

/-- Checks that there is a class and that every class has a register to hand out. -/
def validate (t : Target) : Except Error Unit :=
  if t.classes.isEmpty || (List.range t.classes.length).any fun i => (t.candidates i).isEmpty then
    .error .notSupported
  else .ok ()

end Target

end SsaBackend
