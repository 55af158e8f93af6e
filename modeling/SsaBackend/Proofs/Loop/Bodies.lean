import Mathlib.Logic.Relation
import SsaBackend.Proofs.Func.Edges
import SsaBackend.Proofs.Loop.Found

/-!
# What the body of a loop is

The loop of a header has as its latches the sources of the back edges to it, and its body is the
header together with the blocks that the entry reaches and from which a latch is reached without
passing the header (`Loop.Exact`). Blocks that the entry does not reach may lead into a body; they
are not in it.

The gathering of a body keeps `Gathering.Bounded`: what was found or is to come belongs to the
loop, and what leads to something found was found or is to come. When nothing is to come, the
body is exact (`Exact.addLatch`), and so are the bodies of all loops that are found
(`whole_naturalLoops`).
-/

namespace SsaBackend

open Func

namespace Func

/-- An edge to a block that dominates its source, from a block that the entry reaches. -/
def BackEdge (f : Func) (n h : BlockId) : Prop := h ∈ f.succs n ∧ f.Reached n ∧ f.Dom h n

/-- A path leads from `b` to `n` and does not pass `h`. -/
def ReachesAround (f : Func) (h b n : BlockId) : Prop :=
  b ≠ h ∧ Relation.ReflTransGen (fun a c => c ∈ f.succs a ∧ c ≠ h) b n

/-- What belongs to the loop of `h` with the given latches. -/
def InLoop (f : Func) (h : BlockId) (latches : List BlockId) (b : BlockId) : Prop :=
  b = h ∨ f.Reached b ∧ ∃ n ∈ latches, f.ReachesAround h b n

variable {f : Func} {h b n : BlockId} {latches : List BlockId}

/-- A block that dominates a latch dominates what reaches the latch around it. -/
lemma ReachesAround.dom (hpath : f.ReachesAround h b n) (hn : f.Dom h n) : f.Dom h b := by
  obtain ⟨-, hpath⟩ := hpath
  induction hpath using Relation.ReflTransGen.head_induction_on with
  | refl => exact hn
  | head hstep _ ih =>
    exact ih.of_edge (fun he => hstep.2 (BlockId.index_inj.1 he).symm) (edge_iff.2 hstep.1)

/-- The header dominates what belongs to its loop. -/
lemma InLoop.dom (hb : f.InLoop h latches b) (hl : ∀ n ∈ latches, f.BackEdge n h) : f.Dom h b := by
  rcases hb with rfl | ⟨-, n, hn, hpath⟩
  · exact Dominates.refl _
  · exact hpath.dom (hl n hn).2.2

lemma InLoop.append (hb : f.InLoop h latches b) (more : List BlockId) :
    f.InLoop h (latches ++ more) b := by
  rcases hb with rfl | ⟨hreach, n, hn, hpath⟩
  · exact .inl rfl
  · exact .inr ⟨hreach, n, List.mem_append_left _ hn, hpath⟩

/-- What leads to a block of the loop other than the header belongs to the loop. -/
lemma InLoop.pred {p : BlockId} (hb : f.InLoop h latches b) (hne : b ≠ h) (hp : b ∈ f.succs p)
    (hreach : f.Reached p) : f.InLoop h latches p := by
  by_cases hph : p = h
  · exact .inl hph
  · obtain ⟨-, n, hn, -, hpath⟩ := hb.resolve_left hne
    exact .inr ⟨hreach, n, hn, hph, .head ⟨hp, hne⟩ hpath⟩

end Func

namespace Loop

/-- The body, listed once in handle order, is what belongs to the loop of the latches. -/
structure Exact (f : Func) (l : Loop) : Prop where
  latches : ∀ n ∈ l.latches, f.BackEdge n l.header
  ascending : l.body.Pairwise fun a b => a.index < b.index
  body : ∀ b, b ∈ l.body ↔ f.InLoop l.header l.latches b

/-- A loop as it is found: all back edges to the header are known, and there is one. -/
structure Whole (f : Func) (l : Loop) : Prop extends Exact f l where
  latches_iff : ∀ n, n ∈ l.latches ↔ f.BackEdge n l.header
  latchesOnce : l.latches.Nodup
  latched : l.latches ≠ []
  preheader : l.preheader = l.findPreheader f

namespace Exact

variable {f : Func} {l : Loop}

lemma nodup (h : l.Exact f) : l.body.Nodup := by
  refine h.ascending.imp ?_
  rintro a b hlt rfl
  exact absurd hlt (Nat.lt_irrefl _)

lemma header_mem (h : l.Exact f) : l.header ∈ l.body := (h.body _).2 (.inl rfl)

lemma above (h : l.Exact f) {b : BlockId} (hb : b ∈ l.body) : f.Dom l.header b :=
  ((h.body b).1 hb).dom h.latches

/-- Control comes to a block of the loop other than the header only from the loop. -/
lemma closed (h : l.Exact f) {b p : BlockId} (hb : b ∈ l.body) (hne : b ≠ l.header)
    (hp : b ∈ f.succs p) (hreach : f.Reached p) : p ∈ l.body :=
  (h.body p).2 (((h.body b).1 hb).pred hne hp hreach)

end Exact

/-- The entry reaches the blocks of a loop. -/
lemma Whole.reached {f : Func} {l : Loop} (h : l.Whole f) {b : BlockId} (hb : b ∈ l.body) :
    f.Reached b := by
  rcases (h.body b).1 hb with rfl | ⟨hreach, -⟩
  · obtain ⟨n, hn⟩ := List.exists_mem_of_ne_nil _ h.latched
    obtain ⟨-, hreach, hdom⟩ := h.toExact.latches n hn
    exact hdom.reaches hreach
  · exact hreach

/-! ## Gathering -/

/-- What was found or is to come belongs to the loop, and what leads to a block that was found is
found or to come. -/
structure Gathering.Bounded (f : Func) (h : BlockId) (latches : List BlockId) (s : Gathering) :
    Prop where
  head : s.found.header = h
  ends : s.found.latches = latches
  ascending : s.found.body.Pairwise fun a b => a.index < b.index
  header_mem : h ∈ s.found.body
  found : ∀ b ∈ s.found.body, f.InLoop h latches b
  work : ∀ b ∈ s.work, f.InLoop h latches b
  covered : ∀ n ∈ latches, n ∈ s.found.body ∨ n ∈ s.work
  closed : ∀ b ∈ s.found.body, b ≠ h → ∀ p, b ∈ f.succs p → f.Reached p →
    p ∈ s.found.body ∨ p ∈ s.work

variable {f : Func} {h : BlockId} {latches : List BlockId} {s s' : Gathering}

lemma Gathering.Bounded.step (hf : f.EdgesAgree) (hl : ∀ n ∈ latches, f.BackEdge n h)
    (hs : Bounded f h latches s) (hstep : Gathering.step f f.cfg.domTree s = some s') :
    Bounded f h latches s' := by
  have hkept := fun b => kept_of_step (b := b) hstep
  obtain ⟨b, rest, hw, ⟨hin, rfl⟩ | ⟨hnew, rfl⟩⟩ := step_cases hstep
  · refine { hs with work := ?_, covered := ?_, closed := ?_ }
    · exact fun c hc => hs.work c (hw ▸ List.mem_cons_of_mem _ hc)
    · exact fun n hn => hkept n (hs.covered n hn)
    · exact fun c hc hne p hp hreach => hkept p (hs.closed c hc hne p hp hreach)
  · -- the block that comes in is not the header, so its predecessors belong to the loop with it
    have hb : f.InLoop h latches b := hs.work b (hw ▸ List.mem_cons_self)
    have hbh : b ≠ h := fun he => hnew (he ▸ hs.header_mem)
    refine ⟨hs.head, hs.ends, pairwise_insertAscending hs.ascending,
      mem_addBlock.2 (.inr hs.header_mem), ?_, ?_, fun n hn => hkept n (hs.covered n hn), ?_⟩
    · intro c hc
      rcases mem_addBlock.1 hc with rfl | hc
      · exact hb
      · exact hs.found c hc
    · intro p hp
      rcases List.mem_append.1 hp with hp | hp
      · obtain ⟨hpred, hinside⟩ := List.mem_filter.1 hp
        rw [Bool.and_eq_true, hs.head] at hinside
        obtain ⟨-, hreach, -⟩ := (Digraph.domTree_dominates hf.consistent _ _).1 hinside.2
        exact hb.pred hbh ((hf.linked p b).2 hpred) hreach
      · exact hs.work p (hw ▸ List.mem_cons_of_mem _ hp)
    · intro c hc hne p hp hreach
      rcases mem_addBlock.1 hc with rfl | hc
      · by_cases hgrown : p ∈ (s.found.addBlock c).body
        · exact .inl hgrown
        · have hdom := (hb.pred hbh hp hreach).dom hl
          have htree := (Digraph.domTree_dominates hf.consistent _ _).2
            ⟨hdom.reaches hreach, hreach, hdom⟩
          refine .inr (List.mem_append_left _ (List.mem_filter.2 ⟨(hf.linked p c).1 hp, ?_⟩))
          rw [hs.head, htree]
          simpa [contains] using hgrown
      · exact hkept p (hs.closed c hc hne p hp hreach)

/-- When nothing is to come, the body is what belongs to the loop. -/
lemma Gathering.Bounded.exact (hs : Bounded f h latches s) (hdone : s.work = [])
    (hl : ∀ n ∈ latches, f.BackEdge n h) : s.found.Exact f := by
  refine ⟨?_, hs.ascending, ?_⟩
  · rw [hs.head, hs.ends]
    exact hl
  · intro b
    rw [hs.head, hs.ends]
    refine ⟨hs.found b, ?_⟩
    rintro (rfl | ⟨hreach, n, hn, -, hpath⟩)
    · exact hs.header_mem
    · -- back along the path from the latch
      have hnone : ∀ c, c ∉ s.work := fun c => hdone ▸ List.not_mem_nil
      induction hpath using Relation.ReflTransGen.head_induction_on with
      | refl => exact (hs.covered n hn).resolve_right (hnone n)
      | @head a c hstep _ ih =>
        have hc : c ∈ s.found.body := ih (hreach.step (edge_iff.2 hstep.1))
        exact (hs.closed c hc hstep.2 a hstep.1 hreach).resolve_right (hnone a)

/-- A latch more: the body grows by what reaches it. -/
lemma Exact.addLatch {l : Loop} (hf : f.EdgesAgree) (h : l.Exact f) {latch : BlockId}
    (hlatch : f.BackEdge latch l.header) :
    (l.addLatch f f.cfg.domTree latch).Exact f ∧
      (l.addLatch f f.cfg.domTree latch).latches = l.latches ++ [latch] := by
  have hl : ∀ n ∈ l.latches ++ [latch], f.BackEdge n l.header := by
    intro n hn
    rcases List.mem_append.1 hn with hn | hn
    · exact h.latches n hn
    · exact List.mem_singleton.1 hn ▸ hlatch
  have hstart : Gathering.Bounded f l.header (l.latches ++ [latch])
      ⟨{ l with latches := l.latches ++ [latch] }, [latch]⟩ := by
    refine ⟨rfl, rfl, h.ascending, h.header_mem, ?_, ?_, ?_, ?_⟩
    · exact fun b hb => ((h.body b).1 hb).append [latch]
    · intro b hb
      obtain rfl := List.mem_singleton.1 hb
      by_cases hbh : b = l.header
      · exact .inl hbh
      · exact .inr ⟨hlatch.2.1, b, List.mem_append_right _ hb, hbh, .refl⟩
    · intro n hn
      rcases List.mem_append.1 hn with hn | hn
      · by_cases hnh : n = l.header
        · exact .inl (hnh ▸ h.header_mem)
        · exact .inl ((h.body n).2 (.inr ⟨(h.latches n hn).2.1, n, hn, hnh, .refl⟩))
      · exact .inr hn
    · exact fun b hb hne p hp hreach => .inl (h.closed hb hne hp hreach)
  have hend := repeatUpTo_induct (Gathering.Bounded f l.header (l.latches ++ [latch]))
    (fun _ _ hs hstep => hs.step hf hl hstep) (gatherBound f) _ hstart
  exact ⟨hend.exact (Gathering.gathering_ends ..) hl, hend.ends⟩

/-- The loop of a header alone, before a latch is known. -/
lemma exact_ofHeader (f : Func) (header : BlockId) : (Loop.ofHeader header).Exact f := by
  refine ⟨fun n hn => absurd hn List.not_mem_nil, List.pairwise_singleton .., fun b => ?_⟩
  show b ∈ [header] ↔ _
  rw [List.mem_singleton]
  constructor
  · exact .inl
  · rintro (rfl | ⟨-, n, hn, -⟩)
    · rfl
    · cases hn

end Loop

/-! ## The loops of a function -/

namespace Func

variable {f : Func}

/-- The edges that are met are the back edges. -/
lemma mem_backEdges_iff_backEdge (hf : f.EdgesAgree) {n h : BlockId} :
    (n, h) ∈ f.backEdges f.cfg.domTree ↔ f.BackEdge n h :=
  mem_backEdges_iff hf.consistent

/-- A terminator lists a successor once. -/
lemma nodup_successors (t : Terminator) : t.successors.Nodup := by
  cases t with
  | jump b => exact List.nodup_singleton b
  | branch c t e =>
    show (if e = t then [t] else [t, e]).Nodup
    split
    · exact List.nodup_singleton t
    · rename_i hne
      simpa using Ne.symm hne
  | ret v => exact List.nodup_nil

lemma nodup_block_successors (bb : Block) : bb.successors.Nodup := by
  unfold Block.successors
  cases bb.terminator with
  | none => exact List.nodup_nil
  | some t => exact nodup_successors t

/-- No edge is met twice. -/
lemma nodup_backEdges (f : Func) (dom : DomTree) : (f.backEdges dom).Nodup := by
  unfold backEdges
  refine List.nodup_flatMap.2 ⟨?_, ?_⟩
  · rintro ⟨b, bb⟩ -
    refine ((nodup_block_successors bb).filter _).map ?_
    intro s s' he
    exact (Prod.mk.inj he).2
  · have hids : (f.liveBlocks.map (·.1)).Nodup := nodup_blockIds f
    refine (List.pairwise_map.1 hids).imp ?_
    intro x y hne e hx hy
    obtain ⟨s, -, rfl⟩ := List.mem_map.1 hx
    obtain ⟨s', -, he⟩ := List.mem_map.1 hy
    exact hne (Prod.mk.inj he).1.symm

/-- The sources of those of some edges that lead to a block. -/
def sources (edges : List (BlockId × BlockId)) (h : BlockId) : List BlockId :=
  (edges.filter (·.2 = h)).map (·.1)

lemma mem_sources {edges : List (BlockId × BlockId)} {n h : BlockId} :
    n ∈ sources edges h ↔ (n, h) ∈ edges := by
  unfold sources
  rw [List.mem_map]
  constructor
  · rintro ⟨⟨m, k⟩, he, rfl⟩
    obtain ⟨he, hk⟩ := List.mem_filter.1 he
    rwa [← of_decide_eq_true hk]
  · intro he
    exact ⟨(n, h), List.mem_filter.2 ⟨he, decide_eq_true rfl⟩, rfl⟩

lemma nodup_sources {edges : List (BlockId × BlockId)} (hnd : edges.Nodup) (h : BlockId) :
    (sources edges h).Nodup := by
  refine List.Nodup.map_on ?_ (hnd.filter _)
  intro e he e' he' hfst
  have h1 := of_decide_eq_true (List.mem_filter.1 he).2
  have h2 := of_decide_eq_true (List.mem_filter.1 he').2
  exact Prod.ext hfst (h1.trans h2.symm)

/-- The loops found so far are those of the back edges met so far. -/
def Filled (f : Func) (met : List (BlockId × BlockId)) (loops : NatMap Loop) : Prop :=
  ∀ k l, loops.get? k = some l → l.Exact f ∧ l.latches = sources met l.header

lemma Filled.addBackEdge (hf : f.EdgesAgree) {met : List (BlockId × BlockId)} {loops : NatMap Loop}
    (hmet : Gathered met loops) (h : f.Filled met loops) {n b : BlockId} (he : f.BackEdge n b) :
    f.Filled (met ++ [(n, b)]) (f.addBackEdge f.cfg.domTree loops (n, b)) := by
  intro k l hl
  unfold Func.addBackEdge at hl
  rw [NatMap.get?_insert] at hl
  have hsources : ∀ h', sources (met ++ [(n, b)]) h' =
      sources met h' ++ if b = h' then [n] else [] := by
    intro h'
    unfold sources
    rw [List.filter_append, List.map_append, List.filter_singleton]
    by_cases hb : b = h'
    · rw [if_pos hb, decide_eq_true hb]
      rfl
    · rw [if_neg hb, decide_eq_false hb]
      rfl
  split at hl
  · -- the loop of the edge
    cases hl
    have hold : ((loops.get? b.index).getD (.ofHeader b)).Exact f ∧
        ((loops.get? b.index).getD (.ofHeader b)).latches = sources met b ∧
        ((loops.get? b.index).getD (.ofHeader b)).header = b := by
      cases hget : loops.get? b.index with
      | none =>
        refine ⟨Loop.exact_ofHeader f b, ?_, rfl⟩
        -- no edge to the block was met, or its loop would be there
        refine (List.eq_nil_iff_forall_not_mem.2 fun m hm => ?_).symm
        obtain ⟨l, hl⟩ := hmet.all _ (mem_sources.1 hm)
        rw [hget] at hl
        cases hl
      | some l =>
        have hhead : l.header = b := BlockId.index_inj.1 (hmet.header _ l hget)
        exact ⟨(h _ l hget).1, hhead ▸ (h _ l hget).2, hhead⟩
    obtain ⟨hexact, hlatches, hhead⟩ := hold
    obtain ⟨hexact', hlatches'⟩ := hexact.addLatch hf (hhead.symm ▸ he)
    refine ⟨hexact', ?_⟩
    rw [hlatches', hlatches, Loop.header_addLatch, hhead, hsources, if_pos rfl]
  · rename_i hk
    obtain ⟨hexact, hlatches⟩ := h k l hl
    have hne : b ≠ l.header := fun hb => hk (hb ▸ (hmet.header k l hl).symm)
    refine ⟨hexact, ?_⟩
    rw [hlatches, hsources, if_neg hne, List.append_nil]

lemma filled_foldl (hf : f.EdgesAgree) {met edges : List (BlockId × BlockId)} {loops : NatMap Loop}
    (hedges : ∀ e ∈ edges, f.BackEdge e.1 e.2) (hmet : Gathered met loops)
    (h : f.Filled met loops) :
    f.Filled (met ++ edges) (edges.foldl (f.addBackEdge f.cfg.domTree) loops) := by
  induction edges generalizing met loops with
  | nil =>
    rw [List.append_nil]
    exact h
  | cons e rest ih =>
    rw [List.foldl_cons, List.append_cons]
    exact ih (fun x hx => hedges x (List.mem_cons_of_mem _ hx)) (hmet.addBackEdge _ e.1 e.2)
      (h.addBackEdge hf hmet (hedges e List.mem_cons_self))

/-- The loops that are found, before they are nested: their headers are the targets of the back
edges in handle order, and their latches the sources. -/
lemma whole_naturalLoops (hf : f.EdgesAgree) :
    (f.naturalLoops f.cfg.domTree).Pairwise (fun l m => l.header.index < m.header.index) ∧
    (∀ l ∈ f.naturalLoops f.cfg.domTree, l.Whole f) ∧
    ∀ n h, f.BackEdge n h → ∃ l ∈ f.naturalLoops f.cfg.domTree, l.header = h := by
  have hmet := gathered_backEdges f f.cfg.domTree
  have hfilled : f.Filled (f.backEdges f.cfg.domTree)
      ((f.backEdges f.cfg.domTree).foldl (f.addBackEdge f.cfg.domTree) .empty) := by
    refine @filled_foldl f hf [] _ _ ?_
      ⟨NatMap.Ascending.empty, by simp, by simp, by simp, by simp⟩ ?_
    · exact fun e he => (mem_backEdges_iff_backEdge hf).1 he
    · intro k l hl
      cases hl
  unfold naturalLoops
  generalize (f.backEdges f.cfg.domTree).foldl (f.addBackEdge f.cfg.domTree) .empty = loops
    at hmet hfilled
  have hget := fun e he => hmet.ascending.get?_of_mem (e := e) he
  refine ⟨?_, ?_, ?_⟩
  · show ((loops.entries.map (·.2)).map _).Pairwise _
    rw [List.map_map, List.pairwise_map]
    refine List.Pairwise.imp_of_mem ?_ hmet.ascending
    intro e e' he he' hlt
    show e.2.header.index < e'.2.header.index
    rwa [hmet.header _ _ (hget e he), hmet.header _ _ (hget e' he')]
  · intro l hl
    obtain ⟨x, hx, rfl⟩ := List.mem_map.1 hl
    obtain ⟨e, he, rfl⟩ := List.mem_map.1 hx
    -- the latches of a loop are the sources of its back edges
    obtain ⟨hexact, hlatches⟩ := hfilled _ _ (hget e he)
    obtain ⟨p, hp⟩ := hmet.latch _ _ (hget e he)
    refine ⟨⟨hexact.latches, hexact.ascending, hexact.body⟩, ?_, ?_, ?_, rfl⟩
    · intro n
      show n ∈ e.2.latches ↔ f.BackEdge n e.2.header
      rw [hlatches, mem_sources, mem_backEdges_iff_backEdge hf]
    · show e.2.latches.Nodup
      rw [hlatches]
      exact nodup_sources (nodup_backEdges f _) _
    · show e.2.latches ≠ []
      rw [hlatches]
      exact List.ne_nil_of_mem (mem_sources.2 hp)
  · intro n h hback
    obtain ⟨l, hl⟩ := hmet.all (n, h) ((mem_backEdges_iff_backEdge hf).2 hback)
    refine ⟨{ l with preheader := l.findPreheader f }, ?_, BlockId.index_inj.1 (hmet.header _ l hl)⟩
    unfold NatMap.values
    exact List.mem_map_of_mem (List.mem_map_of_mem (NatMap.mem_of_get? hl))

end Func

end SsaBackend
