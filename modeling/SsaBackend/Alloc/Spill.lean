import SsaBackend.Event
import SsaBackend.Live.Intervals
import SsaBackend.Work

/-!
# Spilling

A register that can not be kept is spilled: its value lives in a stack slot, is stored right
after its definition and reloaded right before every use. What is left of it are short pieces
that may not be spilled again: one over the definition and the store, and one over the reload
and the use for every position that uses it.
-/

namespace SsaBackend

/-- How a spilled register was taken apart. -/
structure SpillRecord where
  reg : VirtReg
  slot : SpillSlot
  /-- The pieces that take its place, the definition's first. -/
  products : List VirtReg
  defAt : Option Nat
  usedAt : List Nat
  deriving DecidableEq, Repr

/-- What spilling works on: the intervals, the number of stack slots handed out, and the
journal. -/
structure SpillState where
  intervals : Intervals
  slots : Nat := 0
  journal : Journal := #[]

namespace SpillRecord

/-- The positions that use a spilled register, each once, by reload slot. -/
def bases (usedAt : List Nat) : List Nat := ascending id (usedAt.map baseSlot)

/-- The slot past a piece that begins at the slot `start`. It is counted in 32 bits and comes round
to the first slots from the last two, so that a piece that begins there is empty. Numbers that no
slot has are counted on. -/
def pieceStop (start : Nat) : Nat :=
  if start < slotLimit then (start + 2) % slotLimit else start + 2

/-- The piece over the definition. -/
def defPiece (start : Nat) (li : Interval) : Interval :=
  { li with defAt := some start }.addSegment start (pieceStop start)

/-- The piece over the uses of one position. -/
def usePiece (usedAt : List Nat) (base : Nat) (li : Interval) : Interval :=
  (usedAt.filter (baseSlot · = base)).foldl Interval.addUse (li.addSegment base (pieceStop base))

/-- Adds a piece of `origin`, with the given shape. -/
def addPiece (origin : VirtReg) (ivs : Intervals) (shape : Interval → Interval) : Intervals :=
  (ivs.addProduct origin).modify ivs.nextReg shape

/-- The shapes of the pieces of a register. -/
def pieces (li : Interval) : List (Interval → Interval) :=
  li.defAt.toList.map defPiece ++ (bases li.usedAt).map (usePiece li.usedAt)

/-- The intervals once a register is spilled: it is live nowhere and may not be spilled
again, and its pieces are added behind the other registers. -/
def apply (ivs : Intervals) (r : VirtReg) (li : Interval) : Intervals :=
  (pieces li).foldl (addPiece r) (ivs.modify r fun li => { li.clear with spillable := false })

end SpillRecord

/-- Spills a register, which must exist and be spillable. -/
def spill (r : VirtReg) : Work SpillState SpillRecord := do
  let s ← get
  match s.intervals.get? r with
  | none => throw (.malformed (.unknownSpill r))
  | some li =>
    if !li.spillable then throw (.allocationFailed r)
    let products := (List.range (SpillRecord.pieces li).length).map fun i => ⟨s.intervals.size + i⟩
    set ({ intervals := SpillRecord.apply s.intervals r li
           slots := s.slots + 1
           journal := s.journal.push (.spilled r ⟨s.slots⟩ products.length) } : SpillState)
    return ⟨r, ⟨s.slots⟩, products, li.defAt, li.usedAt⟩

end SsaBackend
