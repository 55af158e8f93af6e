import SsaBackend.Value
import SsaBackend.Live.Interval

/-!
# The live intervals of a function

All virtual registers of a function with their intervals, in register order, and the value
that each of them holds. A register made for a value answers for that value; the pieces of a
spilled register hold its value too but do not answer for it.
-/

namespace SsaBackend

/-- The virtual registers of a function. -/
structure Intervals where
  intervals : Array Interval := #[]
  values : Array (Option Value) := #[]
  /-- The register that answers for a value, latest first. -/
  holders : List (Value × VirtReg) := []
  deriving DecidableEq, Repr

namespace Intervals

/-- No registers. -/
def empty : Intervals := {}

/-- The number of registers. -/
def size (ivs : Intervals) : Nat := ivs.intervals.size

/-- The intervals in register order. -/
def toList (ivs : Intervals) : List Interval := ivs.intervals.toList

/-- The interval of a register. -/
def get? (ivs : Intervals) (reg : VirtReg) : Option Interval := ivs.intervals[reg.index]?

/-- Changes the interval of a register, if there is one. -/
def modify (ivs : Intervals) (reg : VirtReg) (f : Interval → Interval) : Intervals :=
  { ivs with intervals := ivs.intervals.modify reg.index f }

/-- The register that answers for a value. -/
def regOf? (ivs : Intervals) (value : Value) : Option VirtReg := ivs.holders.lookup value

/-- The value a register holds. -/
def valueOf? (ivs : Intervals) (reg : VirtReg) : Option Value := ivs.values[reg.index]?.join

/-- The handle the next register gets. -/
def nextReg (ivs : Intervals) : VirtReg := ⟨ivs.size⟩

/-- Adds a register that is live nowhere, and answers for `value` if one is given. -/
def addReg (ivs : Intervals) (value : Option Value) : Intervals :=
  { intervals := ivs.intervals.push { reg := ivs.nextReg }
    values := ivs.values.push value
    holders := value.toList.map (·, ivs.nextReg) ++ ivs.holders }

/-- Adds a piece of `origin`: a register of its class that holds its value, may not be
spilled and weighs infinitely much. -/
def addProduct (ivs : Intervals) (origin : VirtReg) : Intervals :=
  { ivs with
    intervals := ivs.intervals.push
      { reg := ivs.nextReg
        weight := .infinity
        spillable := false
        regClass := (ivs.get? origin).elim 0 (·.regClass)
        origin := some origin }
    values := ivs.values.push (ivs.valueOf? origin) }

end Intervals

end SsaBackend
