import SsaBackend.Proofs.Checked.Dominators
import SsaBackend.Proofs.Loop.Nesting

/-!
# The loops, with every table looked at

A question of dominance climbs the dominator tree by its table of immediate dominators, and no
climb from a block that is reached meets an empty place (`dominates?_eq`). Loops refer to each
other by the places they have in a list: a loop to the one around it, and a block to its innermost
loop. Every such place has its loop, and following the loops around comes to an end
(`loopForest?_eq`).
-/

namespace SsaBackend

/-! ## Dominance -/

namespace DomTree

/-- Whether `a` is met on the way from `n` up to the entry, of which every step must be known. -/
def climb? (t : DomTree) (a : Nat) : Nat → Nat → Except Error Bool
  | 0, _ => .error .endless
  | bound + 1, n => do
    if n = a then return true
    if n = t.entry then return false
    climb? t a bound (← filled? (← load? t.parents n))

/-- Whether `a` dominates `b`. -/
def dominates? (t : DomTree) (a b : Nat) : Except Error Bool := do
  if t.isReachable a && t.isReachable b then t.climb? a t.parents.size b else return false

end DomTree

namespace Digraph

variable {g : Digraph}

/-- The way up from a node that is reached is known to the entry. -/
lemma climb?_eq (hg : g.Consistent) (a : Nat) {bound n : Nat} (hn : g.Reached n)
    (hbound : g.spanTree.numberOf n ≤ bound) :
    g.domTree.climb? a bound n = .ok (g.domTree.isAbove a bound n) := by
  have hs := spans_spanTree g hg
  induction bound generalizing n with
  | zero =>
    have := (hs.numbered n).2 hn
    omega
  | succ bound ih =>
    rw [DomTree.climb?, DomTree.isAbove]
    by_cases hna : n = a
    · rw [if_pos hna, if_pos hna]
      rfl
    · rw [if_neg hna, if_neg hna]
      by_cases hentry : n = g.entry
      · have hnone : g.domTree.idom? n = none := if_pos hentry
        rw [hnone, if_pos (show n = g.domTree.entry from hentry)]
        rfl
      · rw [if_neg (show n ≠ g.domTree.entry from hentry)]
        obtain ⟨d, hd⟩ := Option.isSome_iff_exists.1 ((domTree_isReachable hg n).2 hn)
        have hidom : g.domTree.idom? n = some d := (if_neg hentry).trans hd
        have hlt : n < g.domTree.parents.size := by
          by_contra hge
          rw [Array.getElem?_eq_none (Nat.le_of_not_lt hge)] at hd
          cases hd
        obtain ⟨-, himm⟩ := (domTree_idom hg n d).1 hidom
        have hnum := hs.immediate_lt ((hs.numbered n).2 hn) himm
        rw [hidom, load?_ok hlt none, ok_bind, ← join_eq_getD, hd, filled?_some, ok_bind]
        exact ih (himm.1.2.reaches hn) (by omega)

/-- Questions of dominance are answered. -/
lemma dominates?_eq (hg : g.Consistent) (a b : Nat) :
    g.domTree.dominates? a b = .ok (g.domTree.dominates a b) := by
  unfold DomTree.dominates? DomTree.dominates
  by_cases hreach : (g.domTree.isReachable a && g.domTree.isReachable b) = true
  · rw [if_pos hreach, hreach, Bool.true_and]
    refine climb?_eq hg a ((domTree_isReachable hg b).1 (Bool.and_eq_true_iff.1 hreach).2) ?_
    have hs := spans_spanTree g hg
    show _ ≤ (g.immediateDominators g.spanTree).size
    rw [(hs.immediateDominators hg).1]
    exact hs.number_le_size hg b
  · rw [if_neg hreach, Bool.not_eq_true _ |>.mp hreach, Bool.false_and]
    rfl

end Digraph

/-! ## Bodies -/

namespace Loop

/-- Puts the next block into the loop, and lets those of its predecessors follow that the header
dominates. -/
def Gathering.step? (f : Func) (dom : DomTree) (s : Gathering) :
    Except Error (Option Gathering) := do
  match s.work with
  | [] => return none
  | b :: rest =>
    if s.found.contains b then return some { s with work := rest }
    else
      let grown := s.found.addBlock b
      let fresh := (f.preds b).filter (!grown.contains ·)
      let inside ← fresh.filterM fun p => dom.dominates? grown.header.index p.index
      return some ⟨grown, inside ++ rest⟩

/-- Adds a latch, and with it the blocks that reach it without passing the header. -/
def addLatch? (f : Func) (dom : DomTree) (l : Loop) (latch : BlockId) : Except Error Loop := do
  return (← repeatToEnd? (Gathering.step? f dom) (gatherBound f + 1)
    ⟨{ l with latches := l.latches ++ [latch] }, [latch]⟩).found

/-! ## Nesting -/

/-- The loop that a header names, read at its place in the list. -/
def named? (loops : List Loop) (header : Option BlockId) : Except Error (Option Loop) :=
  match header.bind fun h => loops.findIdx? (·.header = h) with
  | none => return none
  | some place => some <$> load? loops.toArray place

/-- How many loops one passes on the way out, which must end. -/
def countAround? (loops : List Loop) : Nat → Loop → Except Error Nat
  | 0, _ => .error .endless
  | bound + 1, l => do
    match ← named? loops l.parent with
    | some m => return (← countAround? loops bound m) + 1
    | none => return 0

/-- Gives every loop its parent, its children and its depth. A parent is looked up to give it its
children. -/
def nest? (loops : List Loop) : Except Error (List Loop) := do
  let withParents := loops.map fun l => { l with parent := findParent loops l }
  let _ ← withParents.mapM fun l => named? withParents l.parent
  withParents.mapM fun l => do
    return { l with
      children := (withParents.filter (·.parent = some l.header)).map (·.header)
      depth := ← countAround? withParents (withParents.length + 1) l }

end Loop

namespace LoopForest

/-- Whether the loop that has a place is at least as deep as `depth`. -/
def atLeastAsDeep? (loops : List Loop) (depth : Nat) (place : Option Nat) : Except Error Bool :=
  match place with
  | none => return false
  | some i => do return decide (depth ≤ (← load? loops.toArray i).depth)

/-- Makes a loop the innermost one of a block, unless the block is in a loop as deep. -/
def takeOver? (loops : List Loop) (depth : Nat) (innermost : Array (Option Nat)) (b : BlockId) :
    Except Error (Array (Option Nat)) :=
  match innermost[b.index]? with
  | none => return innermost
  | some place => do
    if ← atLeastAsDeep? loops depth place then return innermost
    else store? innermost b.index (some loops.length)

/-- Adds a loop. -/
def addLoop? (lf : LoopForest) (l : Loop) : Except Error LoopForest := do
  return ⟨lf.loops ++ [l], ← l.body.foldlM (takeOver? lf.loops l.depth) lf.innermost⟩

/-- The innermost loop of a block, read at its place. -/
def readInnermost? (lf : LoopForest) (b : BlockId) : Except Error (Option Loop) :=
  match lf.innermost[b.index]?.join with
  | none => return none
  | some place => some <$> load? lf.loops.toArray place

/-- How many loops a block is in. -/
def readDepth? (lf : LoopForest) (b : BlockId) : Except Error Nat := do
  return (← lf.readInnermost? b).elim 0 (·.depth + 1)

end LoopForest

namespace Func

/-- The edges to a block that dominates their source, by source. -/
def backEdges? (f : Func) (dom : DomTree) : Except Error (List (BlockId × BlockId)) := do
  let found ← f.liveBlocks.mapM fun e => do
    let targets ← e.2.successors.filterM fun s => dom.dominates? s.index e.1.index
    return targets.map (e.1, ·)
  return found.flatten

/-- Adds a back edge to the loop of its header. -/
def addBackEdge? (f : Func) (dom : DomTree) (loops : NatMap Loop) (edge : BlockId × BlockId) :
    Except Error (NatMap Loop) := do
  let l := (loops.get? edge.2.index).getD (.ofHeader edge.2)
  return loops.insert edge.2.index (← l.addLatch? f dom edge.1)

/-- The natural loops in the order of their headers, not yet nested. -/
def naturalLoops? (f : Func) (dom : DomTree) : Except Error (List Loop) := do
  let loops ← (← f.backEdges? dom).foldlM (f.addBackEdge? dom) .empty
  return loops.values.map fun l => { l with preheader := l.findPreheader f }

/-- The loops of a function and how they nest. -/
def loopForest? (f : Func) (dom : DomTree) : Except Error LoopForest := do
  (← Loop.nest? (← f.naturalLoops? dom)).foldlM LoopForest.addLoop? (.empty f.blockCapacity)

end Func

/-! ## Nothing is refused -/

namespace Loop

variable {f : Func}

/-- A step of a gathering is not refused. -/
lemma Gathering.step?_eq (hf : f.EdgesAgree) (s : Gathering) :
    Gathering.step? f f.cfg.domTree s = .ok (Gathering.step f f.cfg.domTree s) := by
  unfold Gathering.step? Gathering.step
  cases s.work with
  | nil => rfl
  | cons b rest =>
    have hinside : ((f.preds b).filter (!(s.found.addBlock b).contains ·)).filterM
          (fun p => f.cfg.domTree.dominates? (s.found.addBlock b).header.index p.index) =
        .ok (((f.preds b).filter (!(s.found.addBlock b).contains ·)).filter
          fun p => f.cfg.domTree.dominates (s.found.addBlock b).header.index p.index) :=
      filterM_ok fun p _ => Digraph.dominates?_eq hf.consistent _ p.index
    dsimp only
    rw [hinside, List.filter_filter, ok_bind]
    simp only [Bool.and_comm]
    split <;> rfl

lemma addLatch?_eq (hf : f.EdgesAgree) (l : Loop) (latch : BlockId) :
    l.addLatch? f f.cfg.domTree latch = .ok (l.addLatch f f.cfg.domTree latch) := by
  unfold addLatch?
  rw [repeatToEnd?_eq (fun _ => True) (fun s _ => Gathering.step?_eq hf s) (fun _ _ _ _ => trivial)
    trivial (Gathering.step_end ..)]
  rfl

/-! ### Nesting -/

/-- The place of a loop has a loop. -/
lemma named?_eq (loops : List Loop) (header : Option BlockId) :
    named? loops header = .ok (header.bind fun h => loops.find? (·.header = h)) := by
  cases header with
  | none => rfl
  | some h =>
    unfold named?
    rw [Option.bind_some, Option.bind_some, List.find?_eq_bind_findIdx?_getElem?]
    cases hplace : loops.findIdx? (·.header = h) with
    | none => rfl
    | some i =>
      obtain ⟨hi, -⟩ := List.findIdx?_eq_some_iff_getElem.1 hplace
      have hget := List.getElem?_eq_getElem hi
      dsimp only
      rw [load?_some (List.getElem?_toArray.trans hget), Option.bind_some, hget]
      rfl

/-- Following the loops around one of a family comes to an end. -/
lemma Family.countAround?_eq {loops : List Loop} (h : Family f loops)
    (hparent : Family.Parented loops) {bound : Nat} {l : Loop} (hl : l ∈ loops)
    (hbound : Family.around loops l ≤ bound) :
    Loop.countAround? loops (bound + 1) l = .ok (Loop.countAround loops bound l) := by
  induction bound generalizing l with
  | zero =>
    obtain ⟨m, hm, he⟩ := hparent l hl
    cases m with
    | none =>
      rw [Loop.countAround?, named?_eq, he]
      rfl
    | some m =>
      have := h.around_parent hl hm
      omega
  | succ bound ih =>
    obtain ⟨m, hm, he⟩ := hparent l hl
    rw [Loop.countAround?, named?_eq, Loop.countAround, he]
    cases m with
    | none => rfl
    | some m =>
      have hcount := h.around_parent hl hm
      simp only [Option.map_some, Option.bind_some, h.find_header hm.1, ok_bind]
      rw [ih hm.1 (by omega)]
      rfl

/-- The loops of a family are nested. -/
lemma Family.nest?_eq {loops : List Loop} (h : Family f loops) :
    Loop.nest? loops = .ok (Loop.nest loops) := by
  unfold Loop.nest? Loop.nest
  have hwith := h.map (g := fun l => { l with parent := findParent loops l })
    fun l => ⟨rfl, rfl, rfl, rfl⟩
  have hparented := parented_map (g := fun l => { l with parent := findParent loops l })
    (fun l => ⟨rfl, rfl⟩) fun l hl => h.exists_parent hl
  generalize loops.map (fun l => { l with parent := findParent loops l }) = withParents
    at hwith hparented
  dsimp only
  rw [mapM_ok fun l _ => named?_eq withParents l.parent, ok_bind]
  refine mapM_ok fun l hl => ?_
  rw [hwith.countAround?_eq hparented hl List.countP_le_length]
  rfl

end Loop

/-! ### The forest -/

namespace LoopForest

/-- The place of a loop that is kept has its loop. -/
lemma Places.lt {lf : LoopForest} (h : lf.Places) {b : BlockId} {i : Nat}
    (hi : lf.innermost[b.index]? = some (some i)) : i < lf.loops.length := by
  obtain ⟨l, hl, -⟩ := h b (some i) hi
  exact (List.getElem?_eq_some_iff.1 hl).1

lemma atLeastAsDeep?_eq {loops : List Loop} {depth : Nat} {place : Option Nat}
    (h : ∀ i, place = some i → i < loops.length) :
    atLeastAsDeep? loops depth place = .ok (atLeastAsDeep loops depth place) := by
  cases place with
  | none => rfl
  | some i =>
    have hi := List.getElem?_eq_getElem (h i rfl)
    unfold atLeastAsDeep? atLeastAsDeep
    dsimp only
    rw [load?_some (List.getElem?_toArray.trans hi), Option.bind_some, hi]
    rfl

lemma takeOver?_eq {loops : List Loop} {depth : Nat} {m : Array (Option Nat)} {b : BlockId}
    (h : ∀ i, m[b.index]? = some (some i) → i < loops.length) :
    takeOver? loops depth m b = .ok (m.modify b.index fun place =>
      if atLeastAsDeep loops depth place then place else some loops.length) := by
  unfold takeOver?
  cases hplace : m[b.index]? with
  | none =>
    refine congrArg Except.ok (modify_eq_self fun x hx => ?_).symm
    cases hplace.symm.trans hx
  | some place =>
    dsimp only
    rw [atLeastAsDeep?_eq fun i hi => h i (hi ▸ hplace), ok_bind]
    split
    · rename_i hdeep
      refine congrArg Except.ok (modify_eq_self fun x hx => ?_).symm
      cases hplace.symm.trans hx
      exact if_pos hdeep
    · rename_i hdeep
      rw [store?_ok (Array.getElem?_eq_some_iff.1 hplace).1, modify_eq_set hplace, if_neg hdeep]

/-- Adding a loop to a forest whose places have their loops is not refused. -/
lemma addLoop?_eq {lf : LoopForest} (h : lf.Places) {l : Loop} (hnd : l.body.Nodup) :
    lf.addLoop? l = .ok (lf.addLoop l) := by
  unfold addLoop? addLoop
  -- the places of the blocks that are to come are still those of the forest
  have hfold : l.body.foldlM (takeOver? lf.loops l.depth) lf.innermost =
      .ok (l.body.foldl (fun m b => m.modify b.index fun place =>
        if atLeastAsDeep lf.loops l.depth place then place else some lf.loops.length)
        lf.innermost) := by
    refine foldlM_eq (fun (rest : List BlockId) m => rest.Nodup ∧
      ∀ b ∈ rest, ∀ i, m[b.index]? = some (some i) → i < lf.loops.length) ?_
      ⟨hnd, fun b _ i hi => h.lt hi⟩
    rintro b rest m ⟨hrest, hplaces⟩
    obtain ⟨hb, hrest⟩ := List.nodup_cons.1 hrest
    refine ⟨takeOver?_eq (hplaces b List.mem_cons_self), hrest, fun c hc i hi => ?_⟩
    have hne : ¬ b.index = c.index := fun he => hb (BlockId.index_inj.1 he ▸ hc)
    rw [Array.getElem?_modify, if_neg hne] at hi
    exact hplaces c (List.mem_cons_of_mem _ hc) i hi
  rw [hfold]
  rfl

/-- A block's innermost loop is there. -/
lemma readDepth?_eq {lf : LoopForest} (h : lf.Places) (b : BlockId) :
    lf.readDepth? b = .ok (lf.depthOf b) := by
  unfold readDepth? readInnermost? depthOf innermostLoop?
  cases hplace : lf.innermost[b.index]? with
  | none => rfl
  | some place =>
    cases place with
    | none => rfl
    | some i =>
      have hi := List.getElem?_eq_getElem (h.lt hplace)
      simp only [Option.join_some, Option.bind_some]
      rw [load?_some (List.getElem?_toArray.trans hi), hi]
      rfl

end LoopForest

namespace Func

variable {f : Func}

lemma backEdges?_eq (hf : f.EdgesAgree) :
    f.backEdges? f.cfg.domTree = .ok (f.backEdges f.cfg.domTree) := by
  have htargets : ∀ e : BlockId × Block,
      e.2.successors.filterM (fun s => f.cfg.domTree.dominates? s.index e.1.index) =
        .ok (e.2.successors.filter fun s => f.cfg.domTree.dominates s.index e.1.index) :=
    fun e => filterM_ok fun s _ => Digraph.dominates?_eq hf.consistent s.index e.1.index
  unfold backEdges? backEdges
  simp only [htargets, ok_bind]
  rw [List.mapM_pure, List.flatMap_def]
  rfl

/-- The natural loops are found without a false step. -/
lemma naturalLoops?_eq (hf : f.EdgesAgree) :
    f.naturalLoops? f.cfg.domTree = .ok (f.naturalLoops f.cfg.domTree) := by
  unfold naturalLoops? naturalLoops
  rw [backEdges?_eq hf, ok_bind, foldlM_eq (fun _ _ => True) fun e _ loops _ => ⟨?_, trivial⟩]
  · rfl
  · exact trivial
  · unfold addBackEdge? addBackEdge
    dsimp only
    rw [Loop.addLatch?_eq hf]
    rfl

/-- The places of the loops of a function have their loops. -/
lemma places_loopForest (hf : f.EdgesAgree) : (f.loopForest f.cfg.domTree).Places := by
  refine LoopForest.places_foldl (LoopForest.places_empty _) fun l hl => ?_
  rw [← loops_loopForest] at hl
  exact ((family_loopForest hf).1.whole l hl).nodup

/-- The loops of a function are found, and nested, without a false step. -/
lemma loopForest?_eq (hf : f.EdgesAgree) :
    f.loopForest? f.cfg.domTree = .ok (f.loopForest f.cfg.domTree) := by
  obtain ⟨hapart, hwhole, -⟩ := whole_naturalLoops hf
  unfold loopForest? loopForest
  rw [naturalLoops?_eq hf, ok_bind, Loop.Family.nest?_eq ⟨hapart, hwhole⟩, ok_bind]
  have hnd : ∀ l ∈ Loop.nest (f.naturalLoops f.cfg.domTree), l.body.Nodup := by
    intro l hl
    rw [← loops_loopForest] at hl
    exact ((family_loopForest hf).1.whole l hl).nodup
  refine foldlM_eq (fun (rest : List Loop) lf => lf.Places ∧ ∀ l ∈ rest, l.body.Nodup) ?_
    ⟨LoopForest.places_empty _, hnd⟩
  rintro l rest lf ⟨hplaces, hrest⟩
  have hl := hrest l List.mem_cons_self
  exact ⟨LoopForest.addLoop?_eq hplaces hl, hplaces.addLoop hl,
    fun m hm => hrest m (List.mem_cons_of_mem _ hm)⟩

end Func

end SsaBackend
