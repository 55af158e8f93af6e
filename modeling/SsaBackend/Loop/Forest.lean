import SsaBackend.Ascending
import SsaBackend.Name

/-!
# Loops and how they nest

A loop is a set of blocks with one of them, the header, as the only way in. The latches are
the blocks from which control returns to the header, and the preheader, if there is one, is
the block outside through which alone it is entered. A forest holds the loops of a function
and knows the innermost loop of every block.
-/

namespace SsaBackend

/-- A loop of a function. -/
structure Loop where
  header : BlockId
  /-- The blocks of the loop in handle order, the header included. -/
  body : List BlockId
  latches : List BlockId := []
  preheader : Option BlockId := none
  /-- How many loops enclose this one. -/
  depth : Nat := 0
  /-- The header of the loop directly around this one. -/
  parent : Option BlockId := none
  /-- The headers of the loops directly inside this one. -/
  children : List BlockId := []
  deriving DecidableEq, Repr

namespace Loop

/-- The loop of a header alone. -/
def ofHeader (header : BlockId) : Loop := { header, body := [header] }

/-- Whether a block is in the loop. -/
def contains (l : Loop) (b : BlockId) : Bool := l.body.contains b

/-- Puts a block into the loop. -/
def addBlock (l : Loop) (b : BlockId) : Loop :=
  { l with body := insertAscending BlockId.index b l.body }

/-- The number of blocks. -/
def size (l : Loop) : Nat := l.body.length

/-- Whether there is no loop inside. -/
def isInnermost (l : Loop) : Bool := l.children.isEmpty

end Loop

/-- The loops of a function, and for every block the place of its innermost loop. -/
structure LoopForest where
  loops : List Loop
  innermost : Array (Option Nat)
  deriving DecidableEq, Repr

namespace LoopForest

/-- No loops, over the given number of blocks. -/
def empty (blocks : Nat) : LoopForest := ⟨[], Array.replicate blocks none⟩

/-- Whether the loop a block is known to be in is at least as deep as `depth`. -/
def atLeastAsDeep (loops : List Loop) (depth : Nat) (place : Option Nat) : Bool :=
  (place.bind (loops[·]?)).any (depth ≤ ·.depth)

/-- Adds a loop. It becomes the innermost loop of those of its blocks that are in no loop
as deep as it. -/
def addLoop (lf : LoopForest) (l : Loop) : LoopForest :=
  let takeOver (place : Option Nat) : Option Nat :=
    if atLeastAsDeep lf.loops l.depth place then place else some lf.loops.length
  { loops := lf.loops ++ [l]
    innermost := l.body.foldl (fun m b => m.modify b.index takeOver) lf.innermost }

/-- The innermost loop of a block. -/
def innermostLoop? (lf : LoopForest) (b : BlockId) : Option Loop :=
  lf.innermost[b.index]?.join.bind (lf.loops[·]?)

/-- The loop with the given header. -/
def ofHeader? (lf : LoopForest) (header : BlockId) : Option Loop :=
  lf.loops.find? (·.header = header)

/-- How many loops a block is in. -/
def depthOf (lf : LoopForest) (b : BlockId) : Nat := (lf.innermostLoop? b).elim 0 (·.depth + 1)

/-- Places a loop before the first one that is less deep. -/
def insertByDepth (l : Loop) : List Loop → List Loop
  | [] => [l]
  | m :: rest => if m.depth ≤ l.depth then l :: m :: rest else m :: insertByDepth l rest

/-- The loops, deepest first; loops of one depth keep their order. -/
def innermostFirst (lf : LoopForest) : List Loop := lf.loops.foldr insertByDepth []

end LoopForest

end SsaBackend
