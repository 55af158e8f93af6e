import SsaBackend.Func.Cfg
import SsaBackend.Loop.Forest
import SsaBackend.NatMap

/-!
# Finding loops

An edge to a block that dominates its source is a back edge, and all back edges into one
header make one natural loop: the header and the blocks from which a latch can be reached
without passing the header. The parent of a loop is the smallest other loop that contains its
header.
-/

namespace SsaBackend

namespace Loop

/-- The predecessors of the header that lie outside the loop. -/
def outsidePreds (f : Func) (l : Loop) : List BlockId :=
  (f.preds l.header).filter (!l.contains ·)

/-- The one block outside from which the loop is entered, if it goes nowhere else. -/
def findPreheader (f : Func) (l : Loop) : Option BlockId :=
  match l.outsidePreds f with
  | [p] => if f.succs p = [l.header] then some p else none
  | _ => none

/-! ## Bodies -/

/-- The gathering of a body: the loop so far, and blocks that reach a latch. -/
structure Gathering where
  found : Loop
  work : List BlockId

/-- Puts the next block into the loop, and lets those of its predecessors follow that the
header dominates. -/
def Gathering.step (f : Func) (dom : DomTree) (s : Gathering) : Option Gathering :=
  match s.work with
  | [] => none
  | b :: rest =>
    if s.found.contains b then some { s with work := rest }
    else
      let grown := s.found.addBlock b
      let inside p := !grown.contains p && dom.dominates grown.header.index p.index
      some ⟨grown, (f.preds b).filter inside ++ rest⟩

/-- A number of steps in which a gathering ends: one for the latch and one for every listed
predecessor. -/
def gatherBound (f : Func) : Nat :=
  1 + total ((List.range f.blockCapacity).map fun i => (f.preds ⟨i⟩).length)

/-- Adds a latch, and with it the blocks that reach it without passing the header. -/
def addLatch (f : Func) (dom : DomTree) (l : Loop) (latch : BlockId) : Loop :=
  (repeatUpTo (Gathering.step f dom) (gatherBound f)
    ⟨{ l with latches := l.latches ++ [latch] }, [latch]⟩).found

/-! ## Nesting -/

/-- The smaller of two loops, the first if they are of one size. -/
def smaller (best : Option Loop) (l : Loop) : Option Loop :=
  match best with
  | some b => if l.size < b.size then some l else some b
  | none => some l

/-- The smallest other loop that contains the header. -/
def findParent (loops : List Loop) (l : Loop) : Option BlockId :=
  let around := loops.filter fun m => m.header ≠ l.header && m.contains l.header
  (around.foldl smaller none).map (·.header)

/-- How many loops one passes on the way out, at most `bound`. -/
def countAround (loops : List Loop) : Nat → Loop → Nat
  | 0, _ => 0
  | bound + 1, l =>
    match l.parent.bind fun p => loops.find? (·.header = p) with
    | some m => countAround loops bound m + 1
    | none => 0

/-- Gives every loop its parent, its children and its depth. -/
def nest (loops : List Loop) : List Loop :=
  let withParents := loops.map fun l => { l with parent := findParent loops l }
  withParents.map fun l =>
    { l with
      children := (withParents.filter (·.parent = some l.header)).map (·.header)
      depth := countAround withParents withParents.length l }

end Loop

namespace Func

/-- The edges to a block that dominates their source, by source. -/
def backEdges (f : Func) (dom : DomTree) : List (BlockId × BlockId) :=
  f.liveBlocks.flatMap fun e =>
    (e.2.successors.filter fun s => dom.dominates s.index e.1.index).map (e.1, ·)

/-- Adds a back edge to the loop of its header. -/
def addBackEdge (f : Func) (dom : DomTree) (loops : NatMap Loop) (edge : BlockId × BlockId) :
    NatMap Loop :=
  let l := (loops.get? edge.2.index).getD (.ofHeader edge.2)
  loops.insert edge.2.index (l.addLatch f dom edge.1)

/-- The natural loops in the order of their headers, not yet nested. -/
def naturalLoops (f : Func) (dom : DomTree) : List Loop :=
  let loops := (f.backEdges dom).foldl (f.addBackEdge dom) .empty
  loops.values.map fun l => { l with preheader := l.findPreheader f }

/-- The loops of a function and how they nest. -/
def loopForest (f : Func) (dom : DomTree) : LoopForest :=
  (Loop.nest (f.naturalLoops dom)).foldl LoopForest.addLoop (.empty f.blockCapacity)

end Func

end SsaBackend
