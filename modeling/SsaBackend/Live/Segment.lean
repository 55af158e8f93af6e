/-!
# Slots and segments

Program points are numbered by slot, four to a position: at `4k` a spilled operand is
reloaded, at `4k + 1` operands are read, at `4k + 2` the result is written, and at `4k + 3`
a spilled result is stored. A segment is a half-open range of slots.
-/

namespace SsaBackend

/-- Slots are numbered below this: a number fills a word of 32 bits. -/
def slotLimit : Nat := UInt32.size

/-! ## Slots of a position -/

/-- The reload slot of the position that `slot` belongs to. -/
def baseSlot (slot : Nat) : Nat := slot / 4 * 4

/-- The slot at which position `pos` reads its operands. -/
def useSlot (pos : Nat) : Nat := pos * 4 + 1

/-- The slot at which position `pos` writes its result. -/
def defSlot (pos : Nat) : Nat := pos * 4 + 2

/-! ## Segments -/

/-- The slots from `start` up to, not including, `stop`. -/
structure Segment where
  start : Nat
  stop : Nat
  deriving DecidableEq, Repr

namespace Segment

/-- The number of slots covered. -/
def size (s : Segment) : Nat := s.stop - s.start

/-- Whether no slot is covered. -/
def isEmpty (s : Segment) : Bool := s.stop ≤ s.start

/-- The order by start, then by end. -/
def le (a b : Segment) : Bool := a.start < b.start || (a.start = b.start && a.stop ≤ b.stop)

instance : ToString Segment := ⟨fun s => s!"[{s.start}, {s.stop})"⟩

/-- Places a segment among segments sorted by `le`. -/
def insertSorted (s : Segment) : List Segment → List Segment
  | [] => [s]
  | t :: rest => if s.le t then s :: t :: rest else t :: insertSorted s rest

/-- Sorts segments by start, then by end. -/
def sort (l : List Segment) : List Segment := l.foldr insertSorted []

end Segment

/-- Whether two sorted lists of segments share a slot. For each segment of the first list,
those of the second that end before it begins are dropped; if the next one begins before it
ends, the two overlap, and otherwise the walk goes on with the next segment. -/
def segmentsOverlap : List Segment → List Segment → Bool
  | [], _ => false
  | a :: as, bs =>
    match bs.dropWhile fun b => b.start < a.stop && b.stop ≤ a.start with
    | [] => false
    | b :: rest => if a.stop ≤ b.start then segmentsOverlap as (b :: rest) else true

end SsaBackend
