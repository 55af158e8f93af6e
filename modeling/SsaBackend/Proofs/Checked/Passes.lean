import SsaBackend.Proofs.Checked.Loops
import SsaBackend.Proofs.Checked.Searches
import SsaBackend.Proofs.Preheader.Standing

/-!
# The passes, with every access looked at

A pass reads tables where it asks for analyses: the dominators and loops of the function, and the
blocks out of reach. Here it asks for those that refuse a place outside a table. On a function
whose edges are listed at both ends nothing is refused, and the pass does what it does
(`Pass.run?_agrees`). That takes more than the function at the start: between two preheaders the
loops are computed anew, of the function as it is then.
-/

namespace SsaBackend

open Func

/-! ## The definitions -/

namespace Cache

/-- The dominator tree, computed if it is not known. -/
def getDominators? (c : Cache) (f : Func) : Except Error DomTree :=
  match c.dominators with
  | some t => .ok t
  | none => f.cfg.dominators?

/-- The cache once the dominator tree is known. -/
def withDominators? (c : Cache) (f : Func) : Except Error Cache := do
  return { c with dominators := some (← c.getDominators? f) }

/-- The loop forest, computed if it is not known. -/
def getLoops? (c : Cache) (f : Func) : Except Error LoopForest :=
  match c.loops with
  | some lf => .ok lf
  | none => do f.loopForest? (← c.getDominators? f)

/-- The cache once the loop forest is known. -/
def withLoops? (c : Cache) (f : Func) : Except Error Cache :=
  match c.loops with
  | some _ => .ok c
  | none => do
    let c ← c.withDominators? f
    return { c with loops := some (← c.getLoops? f) }

/-- The cache once the wanted analyses are known. -/
def compute? (c : Cache) (f : Func) (wanted : Analyses) : Except Error Cache := do
  let c ← if wanted.dominators || wanted.loops then c.withDominators? f else pure c
  if wanted.loops then c.withLoops? f else pure c

end Cache

namespace Session

/-- Makes the wanted analyses known. -/
def compute? (wanted : Analyses) : Work Session Unit := do
  let s ← get
  setCache (← Work.ofExcept (s.cache.compute? s.func wanted))

/-- The loop forest, which is known afterwards. -/
def loops? : Work Session LoopForest := do
  let s ← get
  setCache (← Work.ofExcept (s.cache.withLoops? s.func))
  Work.ofExcept ((← get).cache.getLoops? s.func)

end Session

/-- Removes the blocks that the entry does not reach. -/
def DeadBlocks.run? : Work Session Bool := do
  let f := (← get).func
  let live ← Work.ofExcept (f.cfg.reachable? f.entry.index)
  let gone := dead f live
  gone.forM fun b => do
    Session.setFolded (← Work.ofExcept ((← get).func.removeBlock b))
  if !gone.isEmpty then Session.note (.blocksRemoved gone.length)
  return !gone.isEmpty

namespace Preheaders

/-- Inserts preheaders until no loop needs one, at most `bound` of them. -/
def insertAll? : Nat → Work Session Nat
  | 0 => throw .endless
  | bound + 1 => do
    let lf ← Session.loops?
    match candidate? (← get).func lf with
    | none => return 0
    | some c =>
      let pre ← insert c
      Session.setCache .empty
      Session.note (.preheaderInserted pre c.header c.outside.length)
      return (← insertAll? bound) + 1

/-- Inserts all preheaders that are missing. -/
def run? : Work Session Bool := do
  return (← insertAll? ((← get).func.blockCapacity + 2)) > 0

end Preheaders

/-- Hoists the invariant instructions of all loops. -/
def Hoist.run? : Work Session Bool := do
  Session.compute? ⟨false, true⟩
  let s ← get
  let dom ← Work.ofExcept (s.cache.getDominators? s.func)
  let lf ← Work.ofExcept (s.cache.getLoops? s.func)
  let count ← lf.innermostFirst.foldlM (hoistLoop dom) 0
  if count > 0 then Session.note (.instsHoisted count)
  return count > 0

/-- Runs a pass. Folding constants and branches reads no table. -/
def Pass.run? : Pass → Work Session Bool
  | .constantOps => ConstantOps.run
  | .branchFold => BranchFold.run
  | .deadBlocks => DeadBlocks.run?
  | .preheaders => Preheaders.run?
  | .hoist => Hoist.run?

/-! ## Analyses -/

namespace Cache

variable {c c' : Cache} {f : Func}

/-- What is not known is computed without a false step. -/
lemma getDominators?_eq (hf : f.EdgesAgree) : c.getDominators? f = c.getDominators f := by
  unfold getDominators? getDominators
  cases c.dominators with
  | some t => rfl
  | none =>
    dsimp only
    rw [Digraph.dominators?_eq hf.consistent]
    exact hf.consistent.dominators_eq.symm

lemma withDominators?_eq (hf : f.EdgesAgree) : c.withDominators? f = c.withDominators f := by
  unfold withDominators? withDominators
  rw [getDominators?_eq hf]

/-- A tree that is known must be that of the function, since the loops are read off it. -/
lemma FreshFor.getLoops?_eq (h : c.FreshFor f) (hf : f.EdgesAgree) :
    c.getLoops? f = c.getLoops f := by
  unfold getLoops? Cache.getLoops
  cases c.loops with
  | some lf => rfl
  | none =>
    dsimp only
    rw [getDominators?_eq hf, h.getDominators_eq hf.consistent, ok_bind, Func.loopForest?_eq hf]
    rfl

lemma FreshFor.withLoops?_eq (h : c.FreshFor f) (hf : f.EdgesAgree) :
    c.withLoops? f = c.withLoops f := by
  unfold withLoops? Cache.withLoops
  cases c.loops with
  | some lf => rfl
  | none =>
    dsimp only
    obtain ⟨c₁, h₁⟩ := h.exists_withDominators hf.consistent
    rw [withDominators?_eq hf, h₁, ok_bind, ok_bind, (h.withDominators h₁).getLoops?_eq hf]

lemma FreshFor.compute?_eq (h : c.FreshFor f) (hf : f.EdgesAgree) (wanted : Analyses) :
    c.compute? f wanted = c.compute f wanted := by
  unfold compute? Cache.compute
  by_cases hw : (wanted.dominators || wanted.loops) = true
  · obtain ⟨c₁, h₁⟩ := h.exists_withDominators hf.consistent
    simp only [if_pos hw]
    rw [withDominators?_eq hf, h₁, ok_bind, ok_bind, (h.withDominators h₁).withLoops?_eq hf]
  · simp only [if_neg hw]
    rw [show (pure c : Except Error Cache) = .ok c from rfl, ok_bind, ok_bind, h.withLoops?_eq hf]

end Cache

namespace Session

variable {s : Session}

/-- What is asked for is found. -/
lemma compute?_agrees (h : s.Holds EdgesAgree) (wanted : Analyses) :
    (Session.compute? wanted).Agrees (Session.compute wanted) s fun _ s' =>
      s'.func = s.func ∧ s'.Holds EdgesAgree := by
  obtain ⟨c, hc⟩ := h.fresh.exists_compute h.func.consistent wanted
  have hc? := hc
  rw [← h.fresh.compute?_eq h.func] at hc?
  unfold Session.compute? Session.compute
  exact .get_bind (.ofExcept_bind hc? hc
    (.of_meets (.of_modify ⟨rfl, h.func, h.fresh.compute hc⟩)))

lemma loops?_agrees (h : s.Holds EdgesAgree) :
    Session.loops?.Agrees Session.loops s fun lf s' =>
      lf = s.func.loopForest s.func.cfg.domTree ∧ s'.func = s.func ∧ s'.Holds EdgesAgree := by
  obtain ⟨c, hc⟩ := h.fresh.exists_withLoops h.func.consistent
  have hfresh := h.fresh.withLoops hc
  have hloops := hfresh.getLoops_eq h.func.consistent
  unfold Session.loops? Session.loops
  refine .get_bind (.ofExcept_bind (h.fresh.withLoops?_eq h.func ▸ hc) hc (.modify_bind
    (.get_bind (.of_eq ?_ (.of_ofExcept ?_ ?_)))))
  · show (Work.ofExcept (c.getLoops? s.func)).run _ = (Work.ofExcept (c.getLoops s.func)).run _
    rw [hfresh.getLoops?_eq h.func]
  · intro lf hlf
    rw [show Cache.getLoops _ _ = _ from hloops] at hlf
    cases hlf
    exact ⟨rfl, rfl, h.func, hfresh⟩
  · intro e he
    rw [show Cache.getLoops _ _ = _ from hloops] at he
    cases he

end Session

/-! ## Passes -/

variable {s : Session}

/-- Folding constants comes to an end or never does; it is not refused. -/
lemma ConstantOps.run_agrees (s : Session) :
    ConstantOps.run.Agrees ConstantOps.run s fun _ _ => True := by
  refine .of_meets ?_
  unfold ConstantOps.run
  refine .get_bind ?_
  dsimp only
  split
  · exact .of_throw fun h => nomatch h
  · refine .modify_bind ?_
    split
    · exact .modify_bind (.of_pure trivial)
    · exact .of_pure trivial

/-- The one search of the pass finds what is out of reach. -/
lemma DeadBlocks.run?_agrees (hf : s.func.EdgesAgree) :
    DeadBlocks.run?.Agrees DeadBlocks.run s fun _ _ => True := by
  refine .of_eq ?_ ((DeadBlocks.run_ends hf).mono (fun _ _ _ => trivial) fun _ he => he.elim)
  have hsearch : s.func.cfg.reachable? s.func.entry.index =
      s.func.reachable s.func.entry.index := by
    unfold Func.reachable Func.search
    rw [if_pos (hf.consistent.staysInside _)]
    exact Digraph.reachable?_eq hf.consistent _
  unfold DeadBlocks.run? DeadBlocks.run
  simp only [EStateM.run_bind, EStateM.run_get, hsearch]

namespace Preheaders

/-- Between two insertions the loops are computed of a function whose edges agree again. -/
lemma insertAll?_agrees (bound : Nat) (h : s.Holds EdgesAgree) :
    (insertAll? bound).Agrees (insertAll bound) s fun _ _ => True := by
  induction bound generalizing s with
  | zero => exact .of_meets (.of_throw fun h => nomatch h)
  | succ bound ih =>
    unfold insertAll? insertAll
    refine (Session.loops?_agrees h).bind ?_
    rintro lf s₁ ⟨-, -, h₁⟩
    refine .get_bind ?_
    cases hc : candidate? s₁.func lf with
    | none => exact .of_pure trivial
    | some c =>
      have hleads := leads_of_candidate h₁.func hc
      have hlive : ∀ p ∈ c.outside, s₁.func.hasBlock p = true :=
        fun p hp => h₁.func.hasBlock_pred (hleads.preds p hp)
      refine (Work.Agrees.of_meets (insert_meets hlive _)).bind fun pre s₂ hs₂ => ?_
      refine .modify_bind (.modify_bind ?_)
      -- what was known is forgotten, so the next round begins as this one did
      have hagree : s₂.func.EdgesAgree := hs₂ ▸ edgesAgree_withPreheader hleads
      exact (ih (s := { s₂ with cache := .empty, journal := _ })
        ⟨hagree, Cache.FreshFor.empty _⟩).bind fun _ _ _ => .of_pure trivial

lemma run?_agrees (h : s.Holds EdgesAgree) :
    Preheaders.run?.Agrees Preheaders.run s fun _ _ => True := by
  unfold Preheaders.run? Preheaders.run
  exact .get_bind ((insertAll?_agrees _ h).bind fun _ _ _ => .of_pure trivial)

end Preheaders

/-- The pass may be refused for a preheader that is missing or an instruction that cannot be moved,
but not for an access. -/
lemma Hoist.run?_agrees (h : s.Holds EdgesAgree) :
    Hoist.run?.Agrees Hoist.run s fun _ _ => True := by
  unfold Hoist.run? Hoist.run
  refine (Session.compute?_agrees h _).bind ?_
  rintro _ s₁ ⟨-, hf, hfresh⟩
  refine .get_bind ?_
  refine .ofExcept_bind (Cache.getDominators?_eq hf ▸ hfresh.getDominators_eq hf.consistent)
    (hfresh.getDominators_eq hf.consistent) ?_
  refine .ofExcept_bind (hfresh.getLoops?_eq hf ▸ hfresh.getLoops_eq hf.consistent)
    (hfresh.getLoops_eq hf.consistent) (.of_meets ?_)
  refine (Work.Meets.foldlM (fun _ _ _ => True) (fun count l _ s₂ _ => ?_) _ 0 trivial).bind
    fun count s₂ _ => ?_
  · unfold hoistLoop
    split
    · exact .of_throw fun h => nomatch h
    · exact .foldlM (fun _ _ _ => True)
        (fun count b _ s₃ _ => hoistBlock_refused (fun _ h => nomatch h) l _ count b s₃) _ count
        trivial
  · split
    · exact .modify_bind (.of_pure trivial)
    · exact .of_pure trivial

/-- No access of a pass is refused on a function whose edges are listed at both ends, and the pass
goes as it goes. -/
lemma Pass.run?_agrees (p : Pass) (h : s.Holds EdgesAgree) :
    p.run?.Agrees p.run s fun _ _ => True := by
  cases p with
  | constantOps => exact ConstantOps.run_agrees s
  | branchFold =>
    exact .of_meets ((BranchFold.run_ends h.func).mono (fun _ _ _ => trivial) fun _ he => he.elim)
  | deadBlocks => exact DeadBlocks.run?_agrees h.func
  | preheaders => exact Preheaders.run?_agrees h
  | hoist => exact Hoist.run?_agrees h

end SsaBackend
