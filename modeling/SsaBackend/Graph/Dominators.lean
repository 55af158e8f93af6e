import SsaBackend.Error
import SsaBackend.Graph.DomTree
import SsaBackend.Graph.Search

/-!
# Computing dominators

The algorithm of Lengauer and Tarjan. A depth-first search numbers the nodes. The
semidominator of a node is the smallest-numbered node from which a path leads to it whose
inner nodes all have larger numbers than the node itself; semidominators are found from the
last node to the first, over a forest of the nodes already dealt with in which the best
candidate towards the root is found with path compression. Each node waits with its
semidominator until the tree path between the two is in the forest; then its immediate
dominator is either known or that of another node, which a last pass from the first node to
the last fills in.
-/

namespace SsaBackend

namespace Digraph

/-! ## The spanning tree -/

/-- A depth-first search: the numbers given so far, from 1 on and 0 for none, the nodes in
that order, latest first, and for each node the one it was last pushed from. -/
structure SpanWalk where
  stack : List Nat
  number : Array Nat
  found : List Nat
  parent : Array Nat

namespace SpanWalk

/-- The number of a node, 0 if it has none. -/
def numberOf (s : SpanWalk) (n : Nat) : Nat := s.number.getD n 0

/-- Pushes a successor of `n` that has no number yet. -/
def push (n : Nat) (s : SpanWalk) (succ : Nat) : SpanWalk :=
  if succ < s.number.size && s.numberOf succ = 0 then
    { s with stack := succ :: s.stack, parent := s.parent.setIfInBounds succ n }
  else s

/-- Numbers the node on top of the stack unless it has a number, and pushes its successors,
the first one on top. -/
def step (g : Digraph) (s : SpanWalk) : Option SpanWalk :=
  match s.stack with
  | [] => none
  | n :: rest =>
    if s.numberOf n = 0 then
      let s := { s with
        stack := rest
        number := s.number.setIfInBounds n (s.found.length + 1)
        found := n :: s.found }
      some ((g.succs n).reverse.foldl (push n) s)
    else some { s with stack := rest }

end SpanWalk

/-- A depth-first spanning tree of what the entry reaches. -/
structure SpanTree where
  /-- The number of each node, from 1 on; 0 for nodes out of reach. -/
  number : Array Nat
  /-- The nodes in the order of their numbers. -/
  order : List Nat
  /-- The parent of each node in the tree. -/
  parent : Array Nat

/-- The spanning tree of a depth-first search from the entry. -/
def spanTree (g : Digraph) : SpanTree :=
  let s := repeatUpTo (SpanWalk.step g) (1 + g.edgeCount)
    ⟨[g.entry], Array.replicate g.size 0, [], Array.range g.size⟩
  ⟨s.number, s.found.reverse, s.parent⟩

namespace SpanTree

/-- The number of a node, 0 if it is out of reach. -/
def numberOf (t : SpanTree) (n : Nat) : Nat := t.number.getD n 0

/-- The parent of a node. -/
def parentOf (t : SpanTree) (n : Nat) : Nat := t.parent.getD n n

end SpanTree

/-! ## The forest -/

/-- The tables of the algorithm. -/
structure SemiForest where
  /-- The best semidominator known of each node, at first the node itself. -/
  semi : Array Nat
  /-- The next node towards the root of the forest; none at a root. -/
  ancestor : Array (Option Nat)
  /-- The node with the smallest semidominator on the compressed way to the root. -/
  best : Array Nat
  /-- The nodes that wait with their semidominator. -/
  bucket : Array (List Nat)
  /-- The immediate dominators found. -/
  idom : Array (Option Nat)

namespace SemiForest

/-- Every node a root, with no semidominator but itself. -/
def init (size : Nat) : SemiForest where
  semi := Array.range size
  ancestor := Array.replicate size none
  best := Array.range size
  bucket := Array.replicate size []
  idom := Array.replicate size none

/-- The semidominator known of a node. -/
def semiOf (s : SemiForest) (n : Nat) : Nat := s.semi.getD n n

/-- The next node towards the root. -/
def ancestorOf (s : SemiForest) (n : Nat) : Option Nat := (s.ancestor.getD n none)

/-- The best node on the compressed way to the root. -/
def bestOf (s : SemiForest) (n : Nat) : Nat := s.best.getD n n

/-- The number of a node's semidominator. -/
def semiNumber (t : SpanTree) (s : SemiForest) (n : Nat) : Nat := t.numberOf (s.semiOf n)

/-- The nodes from `n` towards the root that are at least two steps away from it, `n`
first; at most `bound` of them. -/
def pathFrom (s : SemiForest) : Nat → Nat → List Nat
  | 0, _ => []
  | bound + 1, n =>
    match s.ancestorOf n with
    | none => []
    | some a => if (s.ancestorOf a).isSome then n :: pathFrom s bound a else []

/-- Lets a node skip its ancestor, and take over the ancestor's best node if that is
better. -/
def shortcut (t : SpanTree) (s : SemiForest) (n : Nat) : SemiForest :=
  match s.ancestorOf n with
  | none => s
  | some a =>
    let better := s.semiNumber t (s.bestOf a) < s.semiNumber t (s.bestOf n)
    { s with
      best := if better then s.best.setIfInBounds n (s.bestOf a) else s.best
      ancestor := s.ancestor.setIfInBounds n (s.ancestorOf a) }

/-- Shortens the way from `n` to its root to one step, nodes near the root first. -/
def compress (t : SpanTree) (s : SemiForest) (n : Nat) : SemiForest :=
  (s.pathFrom s.ancestor.size n).foldr (fun m s => s.shortcut t m) s

/-- Lets an edge from `v` to `w` improve the semidominator of `w`. -/
def improve (t : SpanTree) (w : Nat) (s : SemiForest) (v : Nat) : SemiForest :=
  if t.numberOf v = 0 then s
  else
    let s := s.compress t v
    let u := s.bestOf v
    if s.semiNumber t u < s.semiNumber t w then
      { s with semi := s.semi.setIfInBounds w (s.semiOf u) }
    else s

/-- Concludes the wait of a node below `parent`: either `parent` is its immediate dominator,
or it shares the one of the best node on the way. -/
def conclude (t : SpanTree) (parent : Nat) (s : SemiForest) (v : Nat) : SemiForest :=
  let s := s.compress t v
  let u := s.bestOf v
  let d := if s.semiOf u = s.semiOf v then parent else u
  { s with idom := s.idom.setIfInBounds v (some d) }

/-- Deals with one node: finds its semidominator, lets it wait there, links it to its parent
and decides the nodes that waited for the parent. -/
def process (g : Digraph) (t : SpanTree) (s : SemiForest) (w : Nat) : SemiForest :=
  let s := (g.preds w).foldl (improve t w) s
  let p := t.parentOf w
  let bucket := s.bucket.modify (s.semiOf w) (· ++ [w])
  let waiting := bucket.getD p []
  let linked :=
    { s with
      bucket := bucket.setIfInBounds p []
      ancestor := s.ancestor.setIfInBounds w (some p) }
  waiting.foldl (conclude t p) linked

/-- Fills in the immediate dominator of a node that shares it with an earlier one. -/
def settle (s : SemiForest) (w : Nat) : SemiForest :=
  match s.idom.getD w none with
  | some d =>
    if d = s.semiOf w then s else { s with idom := s.idom.setIfInBounds w (s.idom.getD d none) }
  | none => s

end SemiForest

/-! ## The tree -/

/-- The immediate dominators of the nodes the entry reaches, the entry's being itself. -/
def immediateDominators (g : Digraph) (t : SpanTree) : Array (Option Nat) :=
  let inner := t.order.drop 1
  let found := inner.reverse.foldl (SemiForest.process g t) (.init g.size)
  let settled := inner.foldl SemiForest.settle found
  settled.idom.setIfInBounds g.entry (some g.entry)

/-- Lists a node with its immediate dominator. -/
def addKid (entry : Nat) (idom : Array (Option Nat)) (kids : Array (List Nat)) (n : Nat) :
    Array (List Nat) :=
  if n = entry then kids
  else
    match idom.getD n none with
    | some d => kids.modify d (· ++ [n])
    | none => kids

/-- The dominator tree of a graph none of whose edges lead outside it. -/
def domTree (g : Digraph) : DomTree :=
  let t := g.spanTree
  let idom := g.immediateDominators t
  ⟨g.entry, idom, t.order.foldl (addKid g.entry idom) (Array.replicate g.size [])⟩

/-- The dominator tree. The entry and everything it leads to must be inside the graph; the
graph without nodes has an empty tree. -/
def dominators (g : Digraph) : Except Error DomTree :=
  if g.size = 0 then .ok ⟨g.entry, #[], #[]⟩
  else if g.entry < g.size && g.staysInside g.entry then .ok g.domTree
  else .error .outOfRange

end Digraph

end SsaBackend
