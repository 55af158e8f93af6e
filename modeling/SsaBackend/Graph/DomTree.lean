import SsaBackend.Iterate

/-!
# Dominator trees

A node dominates another if every path from the entry to the other goes through it. The
dominators of a node form a chain, and the nearest one other than the node itself is its
immediate dominator; with that as parent the nodes the entry reaches form a tree.

The tree knows the immediate dominator of every node, the entry's being the entry itself,
and the children of every node in the order a depth-first search found them. Nodes the entry
does not reach dominate nothing and are dominated by nothing.
-/

namespace SsaBackend

/-- The dominator tree of a graph. -/
structure DomTree where
  entry : Nat
  /-- The immediate dominator of each node the entry reaches, the entry being its own. -/
  parents : Array (Option Nat)
  /-- The nodes immediately dominated by each node. -/
  kids : Array (List Nat)
  deriving DecidableEq, Repr

namespace DomTree

/-- Whether the entry reaches the node. -/
def isReachable (t : DomTree) (n : Nat) : Bool := t.parents[n]?.join.isSome

/-- The immediate dominator; the entry and nodes out of reach have none. -/
def idom? (t : DomTree) (n : Nat) : Option Nat := if n = t.entry then none else t.parents[n]?.join

/-- The children of a node. -/
def children (t : DomTree) (n : Nat) : List Nat := t.kids.getD n []

/-- Whether `a` is met on the way from `n` up to the entry, at most `bound` steps long. -/
def isAbove (t : DomTree) (a : Nat) : Nat → Nat → Bool
  | 0, _ => false
  | bound + 1, n =>
    if n = a then true
    else
      match t.idom? n with
      | some d => isAbove t a bound d
      | none => false

/-- Whether `a` dominates `b`. -/
def dominates (t : DomTree) (a b : Nat) : Bool :=
  t.isReachable a && t.isReachable b && t.isAbove a t.parents.size b

/-- Whether `a` dominates `b` and is another node. -/
def strictlyDominates (t : DomTree) (a b : Nat) : Bool := a != b && t.dominates a b

/-! ## Preorder -/

/-- A walk down the tree: the nodes whose turn is to come, and those passed, latest first. -/
structure Descent where
  stack : List Nat
  passed : List Nat

/-- Passes the next node and lets its children come next, those that `descend` admits. -/
def Descent.step (t : DomTree) (descend : Nat → Bool) (s : Descent) : Option Descent :=
  match s.stack with
  | [] => none
  | n :: rest => some ⟨(t.children n).filter descend ++ rest, n :: s.passed⟩

/-- The subtree below `root`, every node before its children. A child that `descend` does
not admit is left out with all that is below it; the root is not asked. -/
def preorderFrom (t : DomTree) (root : Nat) (descend : Nat → Bool) : List Nat :=
  if t.isReachable root then
    (repeatUpTo (Descent.step t descend) t.parents.size ⟨[root], []⟩).passed.reverse
  else []

end DomTree

end SsaBackend
