import SsaBackend.Total

/-!
# Directed graphs

A graph has nodes `0, 1, …` below its size, one of them the entry, and for every node the
lists of its successors and predecessors in edge order. Both are functions, so a
control-flow graph is a view of a function and not a copy of it. A node without edges that
nothing leads to is a hole: no search ever meets it.
-/

namespace SsaBackend

/-- A directed graph with an entry. -/
structure Digraph where
  size : Nat
  entry : Nat
  succs : Nat → List Nat
  preds : Nat → List Nat

namespace Digraph

/-- The graph with the given edges, which keep their order and are kept as often as they
are listed. -/
def ofEdges (size : Nat) (edges : List (Nat × Nat)) (entry : Nat) : Digraph where
  size := size
  entry := entry
  succs n := edges.filterMap fun e => if e.1 = n then some e.2 else none
  preds n := edges.filterMap fun e => if e.2 = n then some e.1 else none

/-- The number of edges. -/
def edgeCount (g : Digraph) : Nat := total ((List.range g.size).map fun n => (g.succs n).length)

end Digraph

end SsaBackend
