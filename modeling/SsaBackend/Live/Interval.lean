import SsaBackend.Ascending
import SsaBackend.Name
import SsaBackend.Total
import SsaBackend.Weight
import SsaBackend.Live.Segment

/-!
# Live intervals

The live interval of a virtual register is the set of slots at which its value is needed,
kept as sorted segments that are neither empty nor adjacent, together with what the
allocator wants to know of the register: how dear it is to spill, whether it may be spilled,
its class, and where it is defined and used.
-/

namespace SsaBackend

/-- The slots one virtual register is live at, and its allocation attributes. -/
structure Interval where
  reg : VirtReg
  segments : List Segment := []
  weight : Weight := .zero
  spillable : Bool := true
  regClass : Nat := 0
  defAt : Option Nat := none
  usedAt : List Nat := []
  origin : Option VirtReg := none
  deriving DecidableEq, Repr

namespace Interval

/-! ## Slots -/

/-- Whether no slot is covered. -/
def isEmpty (li : Interval) : Bool := li.segments.isEmpty

/-- The first slot covered. -/
def start? (li : Interval) : Option Nat := li.segments.head?.map (·.start)

/-- The slot past the last one covered. -/
def stop? (li : Interval) : Option Nat := li.segments.getLast?.map (·.stop)

/-- The number of slots covered. -/
def size (li : Interval) : Nat := total (li.segments.map Segment.size)

/-- Adds the slots of `s` to sorted segments. Those that end before `s` begins stay in
front; those that overlap or touch `s` melt into it; the rest stay behind. -/
def mergeInto (s : Segment) (l : List Segment) : List Segment :=
  let before := l.takeWhile (·.stop < s.start)
  let rest := l.dropWhile (·.stop < s.start)
  let touched := rest.takeWhile (·.start ≤ s.stop)
  let start := (touched.head?.map (·.start)).elim s.start (min s.start)
  let stop := (touched.getLast?.map (·.stop)).elim s.stop (max s.stop)
  before ++ ⟨start, stop⟩ :: rest.dropWhile (·.start ≤ s.stop)

/-- Makes the register live from `start` up to `stop`; an empty range adds nothing. -/
def addSegment (li : Interval) (start stop : Nat) : Interval :=
  if stop ≤ start then li else { li with segments := mergeInto ⟨start, stop⟩ li.segments }

/-- Makes the register live nowhere. -/
def clear (li : Interval) : Interval := { li with segments := [] }

/-- Whether `slot` is covered: the first segment that does not end before it has begun. -/
def covers (li : Interval) (slot : Nat) : Bool :=
  match li.segments.find? (slot < ·.stop) with
  | some s => s.start ≤ slot
  | none => false

/-- Whether the two registers are live at a common slot. -/
def overlaps (a b : Interval) : Bool := segmentsOverlap a.segments b.segments

/-! ## Definition and uses -/

/-- Records a slot at which the register is read. -/
def addUse (li : Interval) (slot : Nat) : Interval :=
  { li with usedAt := insertAscending id slot li.usedAt }

/-! ## Written form -/

/-- The register, its segments and its weight: `v0 [2, 6) w=0.0192 unspillable`. -/
def text (li : Interval) : String :=
  toString li.reg ++ String.join (li.segments.map fun s => s!" {s}") ++ s!" w={li.weight}"
    ++ (if li.spillable then "" else " unspillable")

instance : ToString Interval := ⟨text⟩

end Interval

end SsaBackend
