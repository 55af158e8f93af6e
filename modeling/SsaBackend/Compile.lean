import SsaBackend.Alloc.Run
import SsaBackend.Live.Liveness
import SsaBackend.Pass.Schedule

/-!
# Compiling a function

The passes run to a fixpoint, live intervals are computed of what they leave, and registers
are allocated for those.
-/

namespace SsaBackend

/-- What a compilation is to do. -/
structure Config where
  /-- The number of colours the interference graph is simplified with. -/
  colors : Nat := 4
  /-- The register file. -/
  target : Target := .standard
  /-- Whether loop-invariant code is hoisted. -/
  hoist : Bool := true
  /-- Whether the function is checked after every change and the allocation at the end. -/
  verify : Bool := true
  /-- How often the passes are repeated at most. -/
  maxRounds : Nat := 8
  deriving DecidableEq, Repr

namespace Config

/-- A register file of `count` registers, and as many colours. -/
def uniform (count : Nat) : Config := { colors := count, target := .uniform count }

/-- The passes a compilation runs. -/
def schedule (c : Config) : Schedule where
  passes :=
    [.constantOps, .branchFold, .deadBlocks] ++ if c.hoist then [.preheaders, .hoist] else []
  verify := c.verify

end Config

/-- A function with its registers. -/
structure Compiled where
  func : Func
  /-- The intervals, pieces of spilled registers included. -/
  intervals : Intervals
  allocation : Allocation

namespace Compiled

/-- The register that holds a value all the time, if one does. -/
def registerOf? (c : Compiled) (v : Value) : Option PhysReg :=
  (c.intervals.regOf? v).bind c.allocation.assigned?

/-- Whether a value lives in a stack slot. -/
def isSpilled (c : Compiled) (v : Value) : Bool :=
  (c.intervals.regOf? v).any c.allocation.isSpilled

end Compiled

/-- Computes the live intervals of the function of a session, with the loops that are known
of it or found now. -/
def Session.intervals : Work Session Intervals := do
  let lf ← Session.loops
  let s ← get
  let ivs ← Work.ofExcept (s.func.liveIntervals lf)
  modify fun s => { s with journal := s.journal ++ ivs.events s.func.name }
  return ivs

/-- Allocates registers for intervals from stack slot 0 on, and answers with the intervals
afterwards too. -/
def Session.allocate (t : Target) (colors : Nat) (ivs : Intervals) :
    Work Session (Allocation × SpillState) := fun s =>
  match (SsaBackend.allocate t colors).run { intervals := ivs, journal := s.journal } with
  | .ok a st => .ok (a, st) { s with journal := st.journal }
  | .error e st => .error e { s with journal := st.journal }

/-- Optimizes the function of a session and allocates its registers. -/
def compile (c : Config) : Work Session Compiled := do
  let changed ← c.schedule.runToFixpoint c.maxRounds
  let f := (← get).func
  Session.note (.optimized changed f.blockCount f.instCount)
  let ivs ← Session.intervals
  let (a, st) ← Session.allocate c.target c.colors ivs
  if c.verify then Work.ofExcept (a.verify st.intervals c.target)
  return ⟨f, st.intervals, a⟩

end SsaBackend
