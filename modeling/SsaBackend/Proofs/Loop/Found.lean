import SsaBackend.Proofs.Func.Dominated
import SsaBackend.Proofs.Loop.Natural

/-!
# Which loops are found

A block is the header of a loop of the forest if and only if it dominates one of its predecessors
(`mem_loopHeaders`), and then the loop holds every such predecessor: a latch enters the body when
its back edge is met, and bodies only grow. So the predecessors outside of the loop are those that
the header does not dominate (`LoopOf.outsidePreds`), and whether a loop has a preheader can be
told from the edges alone.
-/

namespace SsaBackend

open Func

namespace Loop

variable {f : Func} {dom : DomTree} {l : Loop} {latch : BlockId}

/-- What is found or to come stays so in a step. -/
lemma Gathering.kept_of_step {s s' : Gathering} (hstep : step f dom s = some s') {b : BlockId}
    (hb : b ∈ s.found.body ∨ b ∈ s.work) : b ∈ s'.found.body ∨ b ∈ s'.work := by
  obtain ⟨c, rest, hw, ⟨hin, rfl⟩ | ⟨-, rfl⟩⟩ := step_cases hstep
  · rw [hw, List.mem_cons] at hb
    rcases hb with hb | rfl | hb
    · exact .inl hb
    · exact .inl hin
    · exact .inr hb
  · rw [hw, List.mem_cons] at hb
    rcases hb with hb | rfl | hb
    · exact .inl (mem_addBlock.2 (.inr hb))
    · exact .inl (mem_addBlock.2 (.inl rfl))
    · exact .inr (List.mem_append_right _ hb)

/-- Bodies grow by a latch. -/
lemma mem_addLatch (b : BlockId) (hb : b ∈ l.body ∨ b = latch) :
    b ∈ (l.addLatch f dom latch).body := by
  have hend := @repeatUpTo_induct _ (Gathering.step f dom)
    (fun s : Gathering => (b ∈ s.found.body ∨ b ∈ s.work))
    (fun _ _ hs hstep => Gathering.kept_of_step hstep hs)
    (gatherBound f) ⟨{ l with latches := l.latches ++ [latch] }, [latch]⟩ ?_
  · rw [Gathering.gathering_ends] at hend
    exact hend.resolve_right (by simp)
  · rcases hb with hb | rfl
    · exact .inl hb
    · exact .inr (List.mem_singleton_self _)

/-- The header stays. -/
lemma header_addLatch : (l.addLatch f dom latch).header = l.header := by
  refine repeatUpTo_induct (fun s : Gathering => s.found.header = l.header) ?_ _ _ rfl
  intro s s' hs hstep
  obtain ⟨c, rest, -, ⟨-, rfl⟩ | ⟨-, rfl⟩⟩ := Gathering.step_cases hstep
  · exact hs
  · exact hs

end Loop

namespace Func

variable {f : Func}

/-- In a tidy function the sources of the back edges are the predecessors under a block. -/
lemma Tidy.mem_backEdges_iff (h : f.Tidy) {p b : BlockId} :
    (p, b) ∈ f.backEdges f.cfg.domTree ↔ p ∈ f.preds b ∧ f.Dom b p := by
  rw [Func.mem_backEdges_iff h.consistent, h.verified.linked]
  exact ⟨fun ⟨hp, _, hd⟩ => ⟨hp, hd⟩, fun ⟨hp, hd⟩ => ⟨hp, h.reached_pred hp, hd⟩⟩

/-- The loops found so far hold the sources of the back edges met so far, one for every block
that an edge leads to, and no others are found. -/
structure Gathered (edges : List (BlockId × BlockId)) (loops : NatMap Loop) : Prop where
  ascending : loops.Ascending
  header : ∀ k l, loops.get? k = some l → l.header.index = k
  latch : ∀ k l, loops.get? k = some l → ∃ p, (p, l.header) ∈ edges
  body : ∀ k l, loops.get? k = some l → ∀ p, (p, l.header) ∈ edges → p ∈ l.body
  all : ∀ e ∈ edges, ∃ l, loops.get? e.2.index = some l

/-- One edge more is met. -/
lemma Gathered.addBackEdge {met : List (BlockId × BlockId)} {loops : NatMap Loop}
    (h : Gathered met loops) (dom : DomTree) (p b : BlockId) :
    Gathered (met ++ [(p, b)]) (f.addBackEdge dom loops (p, b)) := by
  have hget : ∀ k, (f.addBackEdge dom loops (p, b)).get? k = if k = b.index then
      some (((loops.get? b.index).getD (.ofHeader b)).addLatch f dom p) else loops.get? k :=
    fun k => NatMap.get?_insert ..
  have hhead : ((loops.get? b.index).getD (.ofHeader b)).header = b := by
    cases hl : loops.get? b.index with
    | none => rfl
    | some l => exact BlockId.index_inj.1 (h.header _ l hl)
  refine ⟨h.ascending.insert _ _, ?_, ?_, ?_, ?_⟩
  · intro k l hl
    rw [hget] at hl
    split at hl
    · rename_i hk
      cases hl
      rw [Loop.header_addLatch, hhead, hk]
    · exact h.header k l hl
  · intro k l hl
    rw [hget] at hl
    split at hl
    · cases hl
      rw [Loop.header_addLatch, hhead]
      exact ⟨p, List.mem_append_right _ (List.mem_singleton_self _)⟩
    · obtain ⟨q, hq⟩ := h.latch k l hl
      exact ⟨q, List.mem_append_left _ hq⟩
  · intro k l hl q hq
    rw [hget] at hl
    split at hl
    · -- the loop of the new edge
      cases hl
      rw [Loop.header_addLatch, hhead] at hq
      apply Loop.mem_addLatch
      rcases List.mem_append.1 hq with hq | hq
      · -- a latch met before was added when its edge was met
        obtain ⟨l, hl⟩ := h.all _ hq
        refine .inl ?_
        rw [hl]
        refine h.body _ l hl q ?_
        rwa [show l.header = b from BlockId.index_inj.1 (h.header _ l hl)]
      · cases List.mem_singleton.1 hq
        exact .inr rfl
    · rename_i hk
      rcases List.mem_append.1 hq with hq | hq
      · exact h.body k l hl q hq
      · cases List.mem_singleton.1 hq
        exact absurd (h.header k l hl).symm hk
  · intro e he
    rw [hget]
    split
    · exact ⟨_, rfl⟩
    · rename_i hk
      rcases List.mem_append.1 he with he | he
      · exact h.all e he
      · rw [List.mem_singleton.1 he] at hk
        exact absurd rfl hk

lemma gathered_foldl {dom : DomTree} {met edges : List (BlockId × BlockId)} {loops : NatMap Loop}
    (h : Gathered met loops) :
    Gathered (met ++ edges) (edges.foldl (f.addBackEdge dom) loops) := by
  induction edges generalizing met loops with
  | nil =>
    rw [List.append_nil]
    exact h
  | cons e rest ih =>
    rw [List.foldl_cons, List.append_cons]
    exact ih (h.addBackEdge dom e.1 e.2)

lemma gathered_backEdges (f : Func) (dom : DomTree) :
    Gathered (f.backEdges dom) ((f.backEdges dom).foldl (f.addBackEdge dom) .empty) :=
  @gathered_foldl f dom [] _ _
    ⟨NatMap.Ascending.empty, by simp, by simp, by simp, by simp⟩

/-- What is known of a loop of the forest. -/
structure LoopOf (f : Func) (l : Loop) : Prop where
  natural : l.Natural f
  preheader : l.preheader = l.findPreheader f
  latch : ∃ p ∈ f.preds l.header, f.Dom l.header p
  latches : ∀ p ∈ f.preds l.header, f.Dom l.header p → p ∈ l.body

lemma loopOf_of_mem (h : f.Tidy) {l : Loop} (hl : l ∈ (f.loopForest f.cfg.domTree).loops) :
    f.LoopOf l := by
  unfold loopForest at hl
  rw [loops_foldl_addLoop] at hl
  obtain ⟨l₀, hl₀, hheader, hbody, hpre⟩ := mem_nest hl
  obtain ⟨hnat, -⟩ := natural_of_mem_naturalLoops h.verified h.reached hl₀
  unfold naturalLoops NatMap.values at hl₀
  obtain ⟨x, hx, rfl⟩ := List.mem_map.1 hl₀
  obtain ⟨e, he, rfl⟩ := List.mem_map.1 hx
  have hgather := gathered_backEdges f f.cfg.domTree
  have hget := hgather.ascending.get?_of_mem he
  refine ⟨⟨?_, ?_, ?_⟩, ?_, ?_, ?_⟩
  · rw [hheader, hbody]
    exact hnat.header_mem
  · rw [hheader, hbody]
    exact hnat.above
  · rw [hheader, hbody]
    exact hnat.closed
  · rw [hpre]
    unfold Loop.findPreheader Loop.outsidePreds Loop.contains
    rw [hheader, hbody]
  · rw [hheader]
    obtain ⟨p, hp⟩ := hgather.latch _ _ hget
    exact ⟨p, h.mem_backEdges_iff.1 hp⟩
  · rw [hheader, hbody]
    intro p hp hd
    exact hgather.body _ _ hget p (h.mem_backEdges_iff.2 ⟨hp, hd⟩)

/-- The headers of the loops that are found. -/
def loopHeaders (f : Func) : List BlockId :=
  (f.loopForest f.cfg.domTree).loops.map (·.header)

/-- The headers are the blocks that dominate one of their predecessors. -/
lemma mem_loopHeaders (h : f.Tidy) {b : BlockId} :
    b ∈ f.loopHeaders ↔ ∃ p ∈ f.preds b, f.Dom b p := by
  unfold loopHeaders
  rw [List.mem_map]
  constructor
  · rintro ⟨l, hl, rfl⟩
    exact (loopOf_of_mem h hl).latch
  · rintro ⟨p, hp, hd⟩
    -- the loop of the back edge, as it was gathered, then looked at for a preheader, then nested
    have hgather := gathered_backEdges f f.cfg.domTree
    obtain ⟨l, hget⟩ := hgather.all (p, b) (h.mem_backEdges_iff.2 ⟨hp, hd⟩)
    have hhead : l.header = b := BlockId.index_inj.1 (hgather.header _ l hget)
    have hfound : { l with preheader := l.findPreheader f } ∈ f.naturalLoops f.cfg.domTree := by
      unfold naturalLoops NatMap.values
      exact List.mem_map_of_mem (List.mem_map_of_mem (NatMap.mem_of_get? hget))
    obtain ⟨l', hl', hheader⟩ := exists_mem_nest hfound
    refine ⟨l', ?_, hheader.trans hhead⟩
    unfold loopForest
    rw [loops_foldl_addLoop]
    exact List.mem_append_right _ hl'

/-- The predecessors of a block that it does not dominate. -/
def enteringPreds (f : Func) (b : BlockId) : List BlockId :=
  (f.preds b).filter fun p => !f.cfg.domTree.dominates b.index p.index

lemma mem_enteringPreds (h : f.Tidy) {b p : BlockId} :
    p ∈ f.enteringPreds b ↔ p ∈ f.preds b ∧ ¬ f.Dom b p := by
  unfold enteringPreds
  rw [List.mem_filter]
  refine and_congr_right fun hp => ?_
  have hreach := h.reached_pred hp
  rw [Bool.not_eq_true', ← Bool.not_eq_true, Digraph.domTree_dominates h.consistent]
  refine not_congr ⟨fun hd => hd.2.2, fun hd => ⟨hd.reaches hreach, hreach, hd⟩⟩

/-- A loop is entered from the predecessors that its header does not dominate. -/
lemma LoopOf.outsidePreds {l : Loop} (h : f.Tidy) (hl : f.LoopOf l) :
    l.outsidePreds f = f.enteringPreds l.header := by
  unfold Loop.outsidePreds enteringPreds Loop.contains
  refine List.filter_congr fun p hp => ?_
  have hreach := h.reached_pred hp
  rw [Bool.eq_iff_iff, Bool.not_eq_true', Bool.not_eq_true', ← Bool.not_eq_true,
    ← Bool.not_eq_true, List.contains_iff_mem, Digraph.domTree_dominates h.consistent]
  refine not_congr ⟨fun hmem => ?_, fun hd => hl.latches p hp hd.2.2⟩
  have hd := hl.natural.above p hmem
  exact ⟨hd.reaches hreach, hreach, hd⟩

/-- A block other than the entry is entered from some predecessor. -/
lemma exists_enteringPreds (h : f.Tidy) {b : BlockId} {bb : Block} (hb : f.block? b = some bb)
    (hne : b ≠ f.entry) : ∃ p, p ∈ f.enteringPreds b := by
  obtain ⟨m, l, hedge, hroute, hnot⟩ := (h.reached b bb hb).exists_first
    fun hc => hne (BlockId.index_inj.1 hc)
  refine ⟨⟨m⟩, (mem_enteringPreds h).2 ⟨?_, ?_⟩⟩
  · exact (h.verified.linked ⟨m⟩ b).1 (edge_iff.1 hedge)
  · intro hd
    exact hnot (hd _ hroute)

end Func

end SsaBackend
