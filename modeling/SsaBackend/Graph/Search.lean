import SsaBackend.BitSet
import SsaBackend.Graph.Basic
import SsaBackend.Iterate

/-!
# Searching a graph

Which nodes can be reached from a start node, and the depth-first orders of them. In
postorder a node comes after everything first found through it; the reverse is the order
for numbering blocks so that definitions come before uses along forward edges. All searches
keep an explicit stack.

A search passes over successors outside the graph. Callers for whom such an edge is an
error ask `staysInside` first.
-/

namespace SsaBackend

namespace Digraph

/-! ## Reachability -/

/-- A search in progress: the nodes met, and those whose successors are still to be seen. -/
structure Reach where
  met : BitSet
  stack : List Nat

/-- Marks a node on meeting it for the first time, and puts it on the stack. -/
def Reach.meet (s : Reach) (n : Nat) : Reach :=
  if n < s.met.capacity && !s.met.contains n then ⟨s.met.insert n, n :: s.stack⟩ else s

/-- Meets the successors of the node on top of the stack. -/
def Reach.step (g : Digraph) (s : Reach) : Option Reach :=
  match s.stack with
  | [] => none
  | n :: rest => some ((g.succs n).foldl Reach.meet { s with stack := rest })

/-- The nodes that can be reached from `start`, itself included. Every node is on the stack
at most once. -/
def reachable (g : Digraph) (start : Nat) : BitSet :=
  (repeatUpTo (Reach.step g) g.size (Reach.meet ⟨BitSet.empty g.size, []⟩ start)).met

/-- Whether no edge leads outside the graph from a node that `start` reaches. -/
def staysInside (g : Digraph) (start : Nat) : Bool :=
  (g.reachable start).toList.all fun n => (g.succs n).all (· < g.size)

/-! ## Depth-first orders -/

/-- What is left to do with a node: look at its successors, or put it in the order. -/
inductive Visit where
  | enter (n : Nat)
  | leave (n : Nat)
  deriving DecidableEq, Repr

/-- A traversal in progress, with the nodes that are done, latest first. -/
structure Walk where
  entered : BitSet
  stack : List Visit
  done : List Nat

/-- Does the next thing on the stack. Entering a node for the first time puts its leaving
on the stack and, above it, the entering of its successors, the first one on top. -/
def Walk.step (g : Digraph) (s : Walk) : Option Walk :=
  match s.stack with
  | [] => none
  | .leave n :: rest => some { s with stack := rest, done := n :: s.done }
  | .enter n :: rest =>
    if n < g.size && !s.entered.contains n then
      let entered := s.entered.insert n
      let fresh := (g.succs n).filter (!entered.contains ·)
      some { s with entered, stack := fresh.map .enter ++ .leave n :: rest }
    else some { s with stack := rest }

/-- A number of steps in which a traversal ends: one for the start, and for every node one
to leave it and one for each of its edges. -/
def walkBound (g : Digraph) : Nat := 1 + g.size + g.edgeCount

/-- The reverse of postorder, starting with `start`. -/
def reversePostorder (g : Digraph) (start : Nat) : List Nat :=
  (repeatUpTo (Walk.step g) g.walkBound ⟨BitSet.empty g.size, [.enter start], []⟩).done

/-- The nodes reachable from `start`, each after those first found through it. -/
def postorder (g : Digraph) (start : Nat) : List Nat := (g.reversePostorder start).reverse

end Digraph

end SsaBackend
