import SsaBackend.BitSet
import SsaBackend.Live.Intervals

/-!
# The interference graph

One vertex for every virtual register that is live somewhere, in register order, and an edge
between any two that are live at a common slot. Removing a vertex only marks it as absent, so
the degree of a vertex is the number of its neighbours that are present.
-/

namespace SsaBackend

/-- Which virtual registers are live at a common slot. -/
structure InterferenceGraph where
  regs : Array VirtReg
  rows : Array BitSet
  present : BitSet
  deriving DecidableEq, Repr

namespace InterferenceGraph

/-- Whether the intervals at two places of a list interfere; the one in front is compared with
the one behind. -/
def interfere (live : Array Interval) (i j : Nat) : Bool :=
  match live[min i j]?, live[max i j]? with
  | some a, some b => i != j && a.overlaps b
  | _, _ => false

/-- The graph of the given intervals, all vertices present. -/
def build (ivs : Intervals) : InterferenceGraph :=
  let live := ivs.intervals.filter (!·.isEmpty)
  let n := live.size
  let row (i : Nat) : BitSet :=
    (BitSet.empty n).insertAll ((List.range n).filter (interfere live i))
  { regs := live.map (·.reg), rows := (Array.range n).map row, present := .full n }

/-- The number of vertices, removed ones included. -/
def size (g : InterferenceGraph) : Nat := g.regs.size

/-- The register of a vertex. -/
def reg? (g : InterferenceGraph) (v : Nat) : Option VirtReg := g.regs[v]?

/-- The vertex of a register. -/
def vertex? (g : InterferenceGraph) (r : VirtReg) : Option Nat := g.regs.toList.findIdx? (· = r)

/-- Whether a vertex has not been removed. -/
def isPresent (g : InterferenceGraph) (v : Nat) : Bool := g.present.contains v

/-- The number of neighbours that are present. -/
def degree (g : InterferenceGraph) (v : Nat) : Nat := g.rows[v]?.elim 0 (·.interCount g.present)

/-- Whether two vertices interfere, present or not. -/
def interferes (g : InterferenceGraph) (a b : Nat) : Bool := g.rows[a]?.any (·.contains b)

/-- All neighbours of a vertex, present or not. -/
def neighbors (g : InterferenceGraph) (v : Nat) : List Nat := g.rows[v]?.elim [] BitSet.toList

/-- Removes a vertex. -/
def erase (g : InterferenceGraph) (v : Nat) : InterferenceGraph :=
  { g with present := g.present.erase v }

/-- Removes a vertex, which must exist, and answers whether it was present. -/
def erase? (g : InterferenceGraph) (v : Nat) : Except Error (Bool × InterferenceGraph) := do
  let (was, present) ← g.present.erase? v
  return (was, { g with present })

end InterferenceGraph

end SsaBackend
