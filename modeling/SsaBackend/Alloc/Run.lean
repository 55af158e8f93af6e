import SsaBackend.Alloc.Allocation
import SsaBackend.Alloc.Matrix
import SsaBackend.Alloc.Simplify

/-!
# Allocating registers

Registers wait in a queue, those removed last from the interference graph first. Each is
tried against the registers of its class in order. A free one is taken at once. Otherwise the
first one whose occupants are all spillable and no heavier is taken from them, and they are
spilled. Otherwise the register is spilled itself, and if it may not be, allocation has
failed. The pieces that spilling leaves wait behind everything else.
-/

namespace SsaBackend

/-- A register that waits, with its priority. -/
structure Waiting where
  priority : Nat
  reg : VirtReg
  deriving DecidableEq, Repr

namespace Waiting

/-- Whether `a` has its turn before `b`: by priority, then by register. -/
def before (a b : Waiting) : Bool :=
  b.priority < a.priority || (a.priority = b.priority && a.reg.index ≤ b.reg.index)

/-- Places a register in a queue. -/
def enqueue (w : Waiting) : List Waiting → List Waiting
  | [] => [w]
  | v :: rest => if w.before v then w :: v :: rest else v :: enqueue w rest

end Waiting

/-- The priority of the pieces of a spilled register. -/
def productPriority : Nat := 0

/-- Allocation in progress. -/
structure AllocState where
  spilling : SpillState
  matrix : RegMatrix
  queue : List Waiting := []
  spills : List SpillRecord := []

namespace AllocState

/-- The intervals as they are now. -/
def intervals (s : AllocState) : Intervals := s.spilling.intervals

/-- Whether a register may be spilled. -/
def isSpillable (s : AllocState) (r : VirtReg) : Bool := (s.intervals.get? r).any (·.spillable)

/-- The weight of a register. -/
def weightOf (s : AllocState) (r : VirtReg) : Weight := (s.intervals.get? r).elim .zero (·.weight)

/-- Records an event. -/
def note (e : Event) : Work AllocState Unit :=
  modify fun s => { s with spilling := { s.spilling with journal := s.spilling.journal.push e } }

/-- Puts a register into a physical one. -/
def assign (r : VirtReg) (p : PhysReg) : Work AllocState Unit := do
  note (.assigned r p)
  modify fun s => { s with matrix := s.matrix.assign r p }

/-- Spills a register, and lets its pieces wait. -/
def spillReg (r : VirtReg) : Work AllocState Unit := do
  let s ← get
  match (spill r).run s.spilling with
  | .error e st =>
    set { s with spilling := st }
    throw e
  | .ok record st =>
    set { s with
      spilling := st
      queue := record.products.foldl
        (fun q v => Waiting.enqueue ⟨productPriority, v⟩ q) s.queue
      spills := s.spills ++ [record] }

/-- Takes a physical register from an occupant, which is spilled. -/
def evict (p : PhysReg) (winner occupant : VirtReg) : Work AllocState Unit := do
  note (.evicted occupant p winner)
  modify fun s => { s with matrix := s.matrix.unassign occupant }
  spillReg occupant

/-- Whether all occupants may be spilled and are no heavier than `weight`. -/
def evictable (s : AllocState) (weight : Weight) (occupants : List VirtReg) : Bool :=
  occupants.all fun o => s.isSpillable o && (s.weightOf o).le weight

/-- What is to become of a register. -/
inductive Choice where
  | take (p : PhysReg)
  | evictFrom (p : PhysReg) (occupants : List VirtReg)
  | giveUp
  deriving DecidableEq, Repr

/-- Tries the candidates in order: the first that is free, else the first that can be taken
from its occupants, which is `site` if it was found already. -/
def choose (s : AllocState) (r : VirtReg) (weight : Weight) (site : Choice) :
    List PhysReg → Choice
  | [] => site
  | p :: rest =>
    match s.matrix.check s.intervals r p, site with
    | .free, _ => .take p
    | .occupied os, .giveUp =>
      s.choose r weight (if s.evictable weight os then .evictFrom p os else .giveUp) rest
    | _, _ => s.choose r weight site rest

/-- Finds a place for a register, or spills it. A register that is live nowhere, or has a
place, needs none. -/
def selectOrSpill (t : Target) (r : VirtReg) : Work AllocState Unit := do
  let s ← get
  match s.intervals.get? r with
  | none => return
  | some li =>
    if li.isEmpty || (s.matrix.assigned? r).isSome then return
    match s.choose r li.weight .giveUp (t.candidates li.regClass) with
    | .take p => assign r p
    | .evictFrom p os =>
      os.forM (evict p r)
      assign r p
    | .giveUp => if s.isSpillable r then spillReg r else throw (.allocationFailed r)

/-- Gives the registers of the queue their places, at most `bound` of them. -/
def drain (t : Target) : Nat → Work AllocState Unit
  | 0 => throw .endless
  | bound + 1 => do
    let s ← get
    match s.queue with
    | [] => return
    | w :: rest =>
      set { s with queue := rest }
      selectOrSpill t w.reg
      drain t bound

/-- A number of turns in which the queue runs empty: one for every register and for every
piece that spilling can leave, and one to find the queue empty. -/
def turns (ivs : Intervals) : Nat := total (ivs.toList.map fun li => li.usedAt.length + 2) + 1

/-- Simplifies the interference graph and lets the registers wait by priority. -/
def prepare (colors : Nat) : Work AllocState Unit := do
  let ivs := (← get).intervals
  let simple := ((InterferenceGraph.build ivs).simplify ivs colors).1
  modify fun s =>
    { s with
      queue := simple.order.foldl (fun q r => Waiting.enqueue ⟨simple.priority r, r⟩ q) []
      spilling := { s.spilling with journal := s.spilling.journal ++ simple.events } }

end AllocState

/-- Gives every live register a place. What spilling did to the intervals is kept even if the
allocation fails. -/
def allocate (t : Target) (colors : Nat) : Work SpillState Allocation := fun st =>
  let work : Work AllocState Allocation := do
    Work.ofExcept t.validate
    if colors = 0 then throw .notSupported
    AllocState.prepare colors
    AllocState.drain t (AllocState.turns st.intervals)
    let s ← get
    AllocState.note (.allocated s.matrix.assignment.size s.spills.length)
    return ⟨s.matrix.assignment, s.spills⟩
  match work.run ⟨st, .ofTarget t, [], []⟩ with
  | .ok a s => .ok a s.spilling
  | .error e s => .error e s.spilling

end SsaBackend
