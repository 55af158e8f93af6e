import SsaBackend.Alloc.Interference
import SsaBackend.Event
import SsaBackend.Iterate

/-!
# Simplifying the interference graph

Vertices are removed one at a time. A vertex with fewer present neighbours than there are
colours can always be coloured after them, so the first such vertex goes; if there is none,
the lightest goes, the first among equals, and may have to be spilled. The later a register is
removed, the earlier it is given a register.
-/

namespace SsaBackend

/-- The removal of one vertex. -/
structure Removal where
  reg : VirtReg
  /-- Whether it had as many neighbours as there are colours, or more. -/
  spill : Bool
  degree : Nat
  weight : Weight
  deriving DecidableEq, Repr

namespace Removal

/-- The event that tells of the removal at a place in the order. -/
def event (index : Nat) (r : Removal) : Event := .simplified index r.spill r.reg r.degree r.weight

end Removal

/-- The removals in order. -/
structure Simplification where
  removals : List Removal
  deriving DecidableEq, Repr

namespace Simplification

/-- The registers in the order of their removal. -/
def order (s : Simplification) : List VirtReg := s.removals.map (·.reg)

/-- The registers that may have to be spilled, in order. -/
def potentialSpills (s : Simplification) : List VirtReg := (s.removals.filter (·.spill)).map (·.reg)

/-- One more than the place of a register in the order; 0 if it took no part. -/
def priority (s : Simplification) (r : VirtReg) : Nat := (s.order.findIdx? (· = r)).elim 0 (· + 1)

/-- The events that tell of the removals. -/
def events (s : Simplification) : List Event := s.removals.zipIdx.map fun e => e.1.event e.2

end Simplification

namespace InterferenceGraph

/-- The weight of a vertex. -/
def weightOf (g : InterferenceGraph) (ivs : Intervals) (v : Nat) : Weight :=
  ((g.reg? v).bind ivs.get?).elim .infinity (·.weight)

/-- The lighter of two vertices, the first unless the second is lighter. -/
def lighter (weight : Nat → Weight) (best : Option Nat) (v : Nat) : Option Nat :=
  match best with
  | some b => if (weight b).le (weight v) then some b else some v
  | none => some v

/-- The vertex to remove next, and whether it may have to be spilled. -/
def next? (g : InterferenceGraph) (ivs : Intervals) (colors : Nat) : Option (Nat × Bool) :=
  let present := g.present.toList
  match present.find? (g.degree · < colors) with
  | some v => some (v, false)
  | none => (present.foldl (lighter (g.weightOf ivs)) none).map (·, true)

/-- Simplification in progress, with the removals latest first. -/
structure Simplifying where
  graph : InterferenceGraph
  removals : List Removal

/-- Removes one vertex. -/
def Simplifying.step (ivs : Intervals) (colors : Nat) (s : Simplifying) : Option Simplifying := do
  let (v, spill) ← s.graph.next? ivs colors
  let reg ← s.graph.reg? v
  return ⟨s.graph.erase v, ⟨reg, spill, s.graph.degree v, s.graph.weightOf ivs v⟩ :: s.removals⟩

/-- Removes every vertex, and answers with the removals and the graph that is left. -/
def simplify (g : InterferenceGraph) (ivs : Intervals) (colors : Nat) :
    Simplification × InterferenceGraph :=
  let done := repeatUpTo (Simplifying.step ivs colors) g.size ⟨g, []⟩
  (⟨done.removals.reverse⟩, done.graph)

end InterferenceGraph

end SsaBackend
