import SsaBackend.Func.Basic
import SsaBackend.Graph.Dominators

/-!
# Control-flow graphs

The blocks of a function as nodes of a graph, and the searches over it. A branch to a place
past the end of the table of blocks leads out of the graph; a search that meets one gives up.
-/

namespace SsaBackend

namespace Func

/-- The control-flow graph. Places of deleted blocks are holes in it. -/
def cfg (f : Func) : Digraph where
  size := f.blockCapacity
  entry := f.entry.index
  succs n := (f.succs ⟨n⟩).map (·.index)
  preds n := (f.preds ⟨n⟩).map (·.index)

/-- The dominator tree. -/
def dominators (f : Func) : Except Error DomTree := f.cfg.dominators

/-- The answer of a search from `start`, unless it leaves the graph. -/
def search {α : Type} (f : Func) (start : Nat) (answer : α) : Except Error α :=
  if f.cfg.staysInside start then .ok answer else .error .outOfRange

/-- The blocks reachable from `start`, each after those first found through it. -/
def postorder (f : Func) (start : Nat) : Except Error (List Nat) :=
  f.search start (f.cfg.postorder start)

/-- The reverse of postorder. -/
def reversePostorder (f : Func) (start : Nat) : Except Error (List Nat) :=
  f.search start (f.cfg.reversePostorder start)

/-- The blocks reachable from `start`. -/
def reachable (f : Func) (start : Nat) : Except Error BitSet :=
  f.search start (f.cfg.reachable start)

end Func

end SsaBackend
