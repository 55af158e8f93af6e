import SsaBackend.Func.PhiFold
import SsaBackend.Loop.Detect
import SsaBackend.Work

/-!
# What passes work on

A pass works on a function together with the analyses known of it and the journal of what
has happened. Analyses are computed on request and kept until a pass that changed the
function declares that it did not keep them.
-/

namespace SsaBackend

/-- A set of the analyses that can be kept between passes. -/
structure Analyses where
  dominators : Bool
  loops : Bool
  deriving DecidableEq, Repr

namespace Analyses

/-- No analysis. -/
def none : Analyses := ⟨false, false⟩

/-- Every analysis. -/
def all : Analyses := ⟨true, true⟩

end Analyses

/-- The analyses known of a function. -/
structure Cache where
  dominators : Option DomTree := none
  loops : Option LoopForest := none
  deriving DecidableEq, Repr

namespace Cache

/-- Nothing is known. -/
def empty : Cache := {}

/-- Which analyses are known. -/
def known (c : Cache) : Analyses := ⟨c.dominators.isSome, c.loops.isSome⟩

/-- Forgets the analyses that are not among those kept. -/
def keepOnly (c : Cache) (kept : Analyses) : Cache :=
  { dominators := if kept.dominators then c.dominators else none
    loops := if kept.loops then c.loops else none }

/-- The dominator tree, computed if it is not known. -/
def getDominators (c : Cache) (f : Func) : Except Error DomTree :=
  match c.dominators with
  | some t => .ok t
  | none => f.dominators

/-- The cache once the dominator tree is known. -/
def withDominators (c : Cache) (f : Func) : Except Error Cache := do
  return { c with dominators := some (← c.getDominators f) }

/-- The loop forest, computed if it is not known, and then from the dominator tree that is
known or computed with it. -/
def getLoops (c : Cache) (f : Func) : Except Error LoopForest :=
  match c.loops with
  | some lf => .ok lf
  | none => do return f.loopForest (← c.getDominators f)

/-- The cache once the loop forest is known. A forest that was known already brings no
dominator tree with it. -/
def withLoops (c : Cache) (f : Func) : Except Error Cache :=
  match c.loops with
  | some _ => .ok c
  | none => do
    let c ← c.withDominators f
    return { c with loops := some (← c.getLoops f) }

/-- The cache once the wanted analyses are known. Wanting the loops is wanting the
dominators. -/
def compute (c : Cache) (f : Func) (wanted : Analyses) : Except Error Cache := do
  let c ← if wanted.dominators || wanted.loops then c.withDominators f else pure c
  if wanted.loops then c.withLoops f else pure c

end Cache

/-- A function with the analyses known of it and the journal. -/
structure Session where
  func : Func
  cache : Cache := .empty
  journal : Journal := #[]

namespace Session

/-- Records an event of the function. -/
def note (e : FuncEvent) : Work Session Unit :=
  modify fun s => { s with journal := s.journal.push (.inFunction s.func.name e) }

/-- Changes the function. -/
def modifyFunc (g : Func → Func) : Work Session Unit := modify fun s => { s with func := g s.func }

/-- Replaces the function by an edited one, and records the phis that were folded. -/
def setFolded (r : Func × List Replacement) : Work Session Unit :=
  modify fun s =>
    { s with func := r.1, journal := s.journal ++ r.2.map (Replacement.event r.1.name) }

/-- Changes the cache. -/
def setCache (c : Cache) : Work Session Unit := modify fun s => { s with cache := c }

/-- Makes the wanted analyses known. -/
def compute (wanted : Analyses) : Work Session Unit := do
  let s ← get
  setCache (← Work.ofExcept (s.cache.compute s.func wanted))

/-- The dominator tree, which is known afterwards. -/
def dominators : Work Session DomTree := do
  let s ← get
  setCache (← Work.ofExcept (s.cache.withDominators s.func))
  Work.ofExcept ((← get).cache.getDominators s.func)

/-- The loop forest, which is known afterwards. -/
def loops : Work Session LoopForest := do
  let s ← get
  setCache (← Work.ofExcept (s.cache.withLoops s.func))
  Work.ofExcept ((← get).cache.getLoops s.func)

end Session

end SsaBackend
