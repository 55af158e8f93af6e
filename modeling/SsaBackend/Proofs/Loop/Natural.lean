import SsaBackend.Loop.Detect
import SsaBackend.Proofs.Func.Strict
import SsaBackend.Proofs.Graph.Dominators
import SsaBackend.Proofs.Tables

/-!
# Natural loops

What the loops that are found are good for. The header of a `Natural` loop lies above all its
blocks, and control comes to a block of the loop other than the header only from the loop. So
the loop is entered through its header only, and if it has a preheader, through that only:
every path to a block of the loop passes the preheader (`Natural.dom_of_mem`), and whatever
lies above a block of the loop without being in it lies above the preheader
(`Natural.dom_preheader`).

`natural_of_mem_innermostFirst` says that the loops of a forest are such. The gathering of a
body keeps `Gathering.Sound` and ends with no work left (`gathering_ends`), and at that time
what is still open is nothing.
-/

namespace SsaBackend

open Func

namespace Loop

/-- A loop that is entered through its header only. -/
structure Natural (f : Func) (l : Loop) : Prop where
  header_mem : l.header ∈ l.body
  above : ∀ b ∈ l.body, f.Dom l.header b
  closed : ∀ b ∈ l.body, b ≠ l.header → ∀ p ∈ f.preds b, p ∈ l.body

/-- The preheader is the one way from outside, and leads nowhere else. -/
def HasPreheader (f : Func) (l : Loop) (pre : BlockId) : Prop :=
  l.outsidePreds f = [pre] ∧ f.succs pre = [l.header]

lemma findPreheader_spec {f : Func} {l : Loop} {pre : BlockId}
    (h : l.findPreheader f = some pre) : l.HasPreheader f pre := by
  unfold findPreheader at h
  split at h
  · rename_i q hq
    split at h
    · rename_i hs
      cases h
      exact ⟨hq, hs⟩
    · cases h
  · cases h

/-! ## What lies around a loop -/

namespace Natural

variable {f : Func} {l : Loop} {pre : BlockId}

/-- A predecessor of a block of the loop is in the loop or is the preheader. -/
lemma pred_cases (h : l.Natural f) (hpre : l.HasPreheader f pre) {b q : BlockId}
    (hb : b ∈ l.body) (hq : q ∈ f.preds b) : q ∈ l.body ∨ (q = pre ∧ b = l.header) := by
  by_cases hin : q ∈ l.body
  · exact .inl hin
  · have hbh : b = l.header := by
      by_contra hne
      exact hin (h.closed b hb hne q hq)
    have hout : q ∈ l.outsidePreds f := by
      unfold outsidePreds contains
      rw [List.mem_filter]
      exact ⟨hbh ▸ hq, by simpa using hin⟩
    rw [hpre.1] at hout
    exact .inr ⟨List.mem_singleton.1 hout, hbh⟩

/-- The preheader is a predecessor of the header that is not in the loop. -/
lemma preheader_pred (hpre : l.HasPreheader f pre) : pre ∈ f.preds l.header ∧ pre ∉ l.body := by
  have hmem : pre ∈ l.outsidePreds f := by
    rw [hpre.1]
    exact List.mem_singleton.2 rfl
  unfold outsidePreds contains at hmem
  obtain ⟨h1, h2⟩ := List.mem_filter.1 hmem
  exact ⟨h1, by simpa using h2⟩

/-- The entry is in no loop that has a preheader. -/
lemma entry_not_mem (h : l.Natural f) (hpre : l.HasPreheader f pre)
    (hentry : f.preds f.entry = []) : f.entry ∉ l.body := by
  intro hmem
  have hhead : l.header = f.entry := BlockId.index_inj.1 (h.above f.entry hmem).eq_start
  have hp := (preheader_pred hpre).1
  rw [hhead, hentry] at hp
  cases hp

/-- Every path to a block of the loop passes the preheader. -/
lemma dom_of_mem (h : l.Natural f) (hv : f.Verified) (hpre : l.HasPreheader f pre)
    (hentry : f.preds f.entry = []) {b : BlockId} (hb : b ∈ l.body) : f.Dom pre b := by
  intro route hroute
  -- along the route: it comes into the loop from the preheader
  have key : ∀ r : List Nat, Route f.cfg.Edge f.cfg.entry r → ∀ n, r.head? = some n →
      ⟨n⟩ ∈ l.body → pre.index ∈ r := by
    intro r hr
    induction hr with
    | start =>
      intro n hn hmem
      cases hn
      exact absurd hmem (h.entry_not_mem hpre hentry)
    | @step a c r _ hac ih =>
      intro n hn hmem
      cases hn
      have hpred : (⟨a⟩ : BlockId) ∈ f.preds ⟨c⟩ := by
        apply (hv.linked ⟨a⟩ ⟨c⟩).1
        apply edge_iff.1
        exact hac
      rcases h.pred_cases hpre hmem hpred with hin | ⟨hq, -⟩
      · exact List.mem_cons_of_mem _ (ih a rfl hin)
      · rw [← hq]
        simp
  exact key _ hroute b.index rfl hb

/-- What lies above a block of the loop and is not in the loop lies above the preheader. -/
lemma dom_preheader (h : l.Natural f) (hv : f.Verified) (hpre : l.HasPreheader f pre)
    (hentry : f.preds f.entry = []) {b d : BlockId} (hb : b ∈ l.body) (hreach : f.Reached b)
    (hd : d ∉ l.body) (hdom : f.Dom d b) : f.Dom d pre := by
  -- going back along a path to `b`, the predecessors are in the loop until it is entered
  have key : ∀ n, f.cfg.Reached n → ⟨n⟩ ∈ l.body → f.cfg.Dom d.index n → f.Dom d pre := by
    intro n hn
    refine hn.induct (P := fun n => ⟨n⟩ ∈ l.body → f.cfg.Dom d.index n → f.Dom d pre) ?_ ?_
    · intro hmem
      exact absurd hmem (h.entry_not_mem hpre hentry)
    · intro a c _ ih hac hmem hdc
      have hne : d.index ≠ c := by
        intro he
        apply hd
        have : d = ⟨c⟩ := BlockId.index_inj.1 he
        exact this ▸ hmem
      have hda : f.cfg.Dom d.index a := hdc.of_edge hne hac
      have hpred : (⟨a⟩ : BlockId) ∈ f.preds ⟨c⟩ := by
        apply (hv.linked ⟨a⟩ ⟨c⟩).1
        apply edge_iff.1
        exact hac
      rcases h.pred_cases hpre hmem hpred with hin | ⟨hq, -⟩
      · exact ih hin hda
      · rw [← hq]
        exact hda
  exact key b.index hreach hb hdom

end Natural

end Loop

/-! ## Gathering a body -/

namespace Loop.Gathering

variable {f : Func} {dom : DomTree} {s s' : Gathering} {header : BlockId}

/-- All blocks found and to come lie below the header, and the predecessors of a block that was
found are found or to come. -/
structure Sound (f : Func) (header : BlockId) (s : Gathering) : Prop where
  head : s.found.header = header
  header_mem : header ∈ s.found.body
  found : ∀ b ∈ s.found.body, f.Dom header b
  work : ∀ b ∈ s.work, f.Dom header b
  closed : ∀ b ∈ s.found.body, b ≠ header → ∀ p ∈ f.preds b, p ∈ s.found.body ∨ p ∈ s.work

lemma mem_addBlock {l : Loop} {a b : BlockId} : a ∈ (l.addBlock b).body ↔ a = b ∨ a ∈ l.body :=
  mem_insertAscending fun _ _ h => BlockId.index_inj.1 h

/-- What one step does. -/
lemma step_cases (h : step f dom s = some s') :
    ∃ b rest, s.work = b :: rest ∧
      ((b ∈ s.found.body ∧ s' = ⟨s.found, rest⟩) ∨
       (b ∉ s.found.body ∧ s' = ⟨s.found.addBlock b,
          (f.preds b).filter (fun p => !(s.found.addBlock b).contains p &&
            dom.dominates s.found.header.index p.index) ++ rest⟩)) := by
  unfold step at h
  split at h
  · cases h
  · rename_i b rest hw
    refine ⟨b, rest, hw, ?_⟩
    split at h
    · rename_i hc
      cases h
      exact .inl ⟨by simpa [contains] using hc, rfl⟩
    · rename_i hc
      cases h
      exact .inr ⟨by simpa [contains] using hc, rfl⟩

lemma Sound.step (hv : f.Verified) (hall : ∀ b bb, f.block? b = some bb → f.Reached b)
    (hs : Sound f header s) (h : step f f.cfg.domTree s = some s') : Sound f header s' := by
  obtain ⟨b, rest, hw, ⟨hin, rfl⟩ | ⟨hnew, rfl⟩⟩ := step_cases h
  · refine ⟨hs.head, hs.header_mem, hs.found, ?_, ?_⟩
    · intro c hc
      apply hs.work
      rw [hw]
      exact List.mem_cons_of_mem _ hc
    · intro c hc hne p hp
      rcases hs.closed c hc hne p hp with h1 | h1
      · exact .inl h1
      · rw [hw] at h1
        rcases List.mem_cons.1 h1 with he | h1
        · exact .inl (he ▸ hin)
        · exact .inr h1
  · have hb : f.Dom header b := hs.work b (by rw [hw]; exact List.mem_cons_self ..)
    -- a predecessor of a block below the header is below the header too
    have hdom : ∀ p ∈ f.preds b, b ≠ header →
        f.cfg.domTree.dominates header.index p.index = true := by
      intro p hp hne
      have hedge : f.cfg.Edge p.index b.index := edge_iff.2 ((hv.linked p b).2 hp)
      have hpb : f.Dom header p :=
        hb.of_edge (fun he => hne (BlockId.index_inj.1 he).symm) hedge
      have hreach : f.Reached p := by
        obtain ⟨pp, hpp⟩ := exists_block_of_succ ((hv.linked p b).2 hp)
        exact hall p pp hpp
      exact (Digraph.domTree_dominates hv.consistent _ _).2 ⟨hpb.reaches hreach, hreach, hpb⟩
    refine ⟨hs.head, mem_addBlock.2 (.inr hs.header_mem), ?_, ?_, ?_⟩
    · intro c hc
      rcases mem_addBlock.1 hc with he | hc
      · exact he ▸ hb
      · exact hs.found c hc
    · intro c hc
      rcases List.mem_append.1 hc with hc | hc
      · obtain ⟨-, hc⟩ := List.mem_filter.1 hc
        rw [Bool.and_eq_true, hs.head] at hc
        exact ((Digraph.domTree_dominates hv.consistent _ _).1 hc.2).2.2
      · apply hs.work
        rw [hw]
        exact List.mem_cons_of_mem _ hc
    · intro c hc hne p hp
      rcases mem_addBlock.1 hc with he | hc
      · subst he
        by_cases hgrown : p ∈ (s.found.addBlock c).body
        · exact .inl hgrown
        · right
          apply List.mem_append_left
          apply List.mem_filter.2
          refine ⟨hp, ?_⟩
          rw [hs.head, hdom p hp hne]
          simpa [contains] using hgrown
      · rcases hs.closed c hc hne p hp with h1 | h1
        · exact .inl (mem_addBlock.2 (.inr h1))
        · rw [hw] at h1
          rcases List.mem_cons.1 h1 with he | h1
          · exact .inl (mem_addBlock.2 (.inl he))
          · exact .inr (List.mem_append_right _ h1)

/-- The predecessors a block that was not found can still add to the work. -/
def pending (f : Func) (l : Loop) (i : Nat) : Nat :=
  if ⟨i⟩ ∈ l.body then 0 else (f.preds ⟨i⟩).length

/-- The steps that are left at most. -/
def left (f : Func) (s : Gathering) : Nat :=
  s.work.length + total ((List.range f.blockCapacity).map (pending f s.found))

/-- Finding a block uses up its predecessors. -/
lemma total_pending {l : Loop} {b : BlockId} (hb : b ∉ l.body) :
    total ((List.range f.blockCapacity).map (pending f (l.addBlock b))) + (f.preds b).length =
      total ((List.range f.blockCapacity).map (pending f l)) := by
  have hother : ∀ i, i ≠ b.index → pending f (l.addBlock b) i = pending f l i := by
    intro i hi
    have hne : (⟨i⟩ : BlockId) ≠ b := fun he => hi (congrArg BlockId.index he)
    unfold pending
    simp only [mem_addBlock, hne, false_or]
  have hnow : pending f (l.addBlock b) b.index = 0 := by
    unfold pending
    rw [if_pos (mem_addBlock.2 (.inl rfl))]
  have hold : pending f l b.index = (f.preds b).length := by
    unfold pending
    rw [if_neg hb]
  by_cases hlt : b.index < f.blockCapacity
  · have := total_map_change (List.nodup_range) (List.mem_range.2 hlt)
      (fun i _ hi => hother i hi)
    rw [hnow, hold] at this
    omega
  · -- a block that is not there has no predecessors
    have hnil : f.preds b = [] := by
      refine List.eq_nil_iff_forall_not_mem.2 fun p hp => ?_
      obtain ⟨bb, hbb⟩ := exists_block_of_pred hp
      exact hlt (lt_blockCapacity hbb)
    have hsame : (List.range f.blockCapacity).map (pending f (l.addBlock b)) =
        (List.range f.blockCapacity).map (pending f l) := by
      apply List.map_congr_left
      intro i hi
      apply hother
      have := List.mem_range.1 hi
      omega
    rw [hsame, hnil]
    rfl

/-- Every step leaves fewer. -/
lemma left_step (h : step f dom s = some s') : left f s' < left f s := by
  obtain ⟨b, rest, hw, ⟨hin, rfl⟩ | ⟨hnew, rfl⟩⟩ := step_cases h
  · unfold left
    rw [hw, List.length_cons]
    simp only
    omega
  · have htotal := total_pending (f := f) hnew
    have hfilter := List.length_filter_le (fun p => !(s.found.addBlock b).contains p &&
      dom.dominates s.found.header.index p.index) (f.preds b)
    unfold left
    rw [hw, List.length_cons, List.length_append]
    simp only
    omega

/-- A gathering comes to its end. -/
lemma step_end (f : Func) (dom : DomTree) (l : Loop) (latch : BlockId) :
    step f dom (repeatUpTo (step f dom) (gatherBound f) ⟨l, [latch]⟩) = none := by
  refine repeatUpTo_done (fun _ => True) (left f) (fun _ _ _ _ => trivial)
    (fun _ _ _ h => left_step h) _ _ trivial ?_
  unfold left gatherBound
  have : total ((List.range f.blockCapacity).map (pending f l)) ≤
      total ((List.range f.blockCapacity).map fun i => (f.preds ⟨i⟩).length) := by
    apply total_map_le
    intro i _
    unfold pending
    split
    · exact Nat.zero_le _
    · exact Nat.le_refl _
  simp only [List.length_singleton]
  omega

/-- A gathering ends with no work left. -/
lemma gathering_ends (f : Func) (dom : DomTree) (l : Loop) (latch : BlockId) :
    (repeatUpTo (step f dom) (gatherBound f) ⟨l, [latch]⟩).work = [] := by
  have hdone := step_end f dom l latch
  unfold step at hdone
  split at hdone
  · assumption
  · split at hdone <;> cases hdone

end Loop.Gathering

/-! ## The loops of a function -/

namespace Loop

/-- The loop of a header alone is entered through the header only. -/
lemma natural_ofHeader (f : Func) (header : BlockId) : (Loop.ofHeader header).Natural f := by
  refine ⟨List.mem_singleton.2 rfl, ?_, ?_⟩
  · intro b hb
    rw [List.mem_singleton.1 hb]
    exact Dominates.refl _
  · intro b hb hne
    exact absurd (List.mem_singleton.1 hb) hne

/-- Adding a latch below the header keeps it so. -/
lemma Natural.addLatch {f : Func} {l : Loop} (hv : f.Verified)
    (hall : ∀ b bb, f.block? b = some bb → f.Reached b) (h : l.Natural f) {latch : BlockId}
    (hlatch : f.Dom l.header latch) :
    (l.addLatch f f.cfg.domTree latch).Natural f ∧
      (l.addLatch f f.cfg.domTree latch).header = l.header := by
  have hstart : Gathering.Sound f l.header
      ⟨{ l with latches := l.latches ++ [latch] }, [latch]⟩ := by
    refine ⟨rfl, h.header_mem, h.above, ?_, ?_⟩
    · intro b hb
      rw [List.mem_singleton.1 hb]
      exact hlatch
    · intro b hb hne p hp
      exact .inl (h.closed b hb hne p hp)
  have hend := repeatUpTo_induct (Gathering.Sound f l.header)
    (fun _ _ hs hst => hs.step hv hall hst) (gatherBound f) _ hstart
  have hwork := Gathering.gathering_ends f f.cfg.domTree
    { l with latches := l.latches ++ [latch] } latch
  refine ⟨⟨?_, ?_, ?_⟩, hend.head⟩
  · rw [show (l.addLatch f f.cfg.domTree latch).header = l.header from hend.head]
    exact hend.header_mem
  · intro b hb
    rw [show (l.addLatch f f.cfg.domTree latch).header = l.header from hend.head]
    exact hend.found b hb
  · intro b hb hne p hp
    rw [show (l.addLatch f f.cfg.domTree latch).header = l.header from hend.head] at hne
    rcases hend.closed b hb hne p hp with h1 | h1
    · exact h1
    · rw [hwork] at h1
      cases h1

end Loop

namespace Func

variable {f : Func}

/-- The back edges are the edges to a block above their source, from blocks that are reached. -/
lemma mem_backEdges_iff (hc : f.cfg.Consistent) {n h : BlockId} :
    (n, h) ∈ f.backEdges f.cfg.domTree ↔ h ∈ f.succs n ∧ f.Reached n ∧ f.Dom h n := by
  unfold backEdges
  rw [List.mem_flatMap]
  constructor
  · rintro ⟨⟨c, cc⟩, hcc, he⟩
    obtain ⟨s, hs, he⟩ := List.mem_map.1 he
    cases he
    obtain ⟨hs, hd⟩ := List.mem_filter.1 hs
    refine ⟨?_, ((Digraph.domTree_dominates hc _ _).1 hd).2⟩
    rwa [succs_of_block (mem_liveBlocks.1 hcc)]
  · rintro ⟨hs, hreach, hdom⟩
    obtain ⟨nn, hnn⟩ := exists_block_of_succ hs
    rw [succs_of_block hnn] at hs
    refine ⟨(n, nn), mem_liveBlocks.2 hnn, List.mem_map.2 ⟨h, List.mem_filter.2 ⟨hs, ?_⟩, rfl⟩⟩
    exact (Digraph.domTree_dominates hc _ _).2 ⟨hdom.reaches hreach, hreach, hdom⟩

/-- The loops that are found are entered through their headers only. -/
lemma natural_of_backEdges (hv : f.Verified) (hall : ∀ b bb, f.block? b = some bb → f.Reached b)
    {edges : List (BlockId × BlockId)} (hedges : ∀ e ∈ edges, f.Dom e.2 e.1)
    {loops : NatMap Loop}
    (hloops : ∀ x ∈ loops.entries, x.2.Natural f ∧ x.2.header.index = x.1) :
    ∀ x ∈ (edges.foldl (f.addBackEdge f.cfg.domTree) loops).entries,
      x.2.Natural f ∧ x.2.header.index = x.1 := by
  induction edges generalizing loops with
  | nil => exact hloops
  | cons e rest ih =>
    rw [List.foldl_cons]
    apply ih (fun x hx => hedges x (List.mem_cons_of_mem _ hx))
    intro x hx
    have hold : ((loops.get? e.2.index).getD (.ofHeader e.2)).Natural f ∧
        ((loops.get? e.2.index).getD (.ofHeader e.2)).header = e.2 := by
      cases hget : loops.get? e.2.index with
      | none => exact ⟨Loop.natural_ofHeader f e.2, rfl⟩
      | some l =>
        obtain ⟨hnat, hidx⟩ := hloops _ (NatMap.mem_of_get? hget)
        exact ⟨hnat, BlockId.index_inj.1 hidx⟩
    have hlatch := hedges e (List.mem_cons_self ..)
    rw [← hold.2] at hlatch
    obtain ⟨hnat, hhead⟩ := hold.1.addLatch hv hall hlatch
    rcases NatMap.mem_insertEntry hx with rfl | hx
    · exact ⟨hnat, by rw [show Loop.header _ = _ from hhead, hold.2]⟩
    · exact hloops x hx

/-- The loops before they are nested. -/
lemma natural_of_mem_naturalLoops (hv : f.Verified)
    (hall : ∀ b bb, f.block? b = some bb → f.Reached b) {l : Loop}
    (hl : l ∈ f.naturalLoops f.cfg.domTree) :
    l.Natural f ∧ ∀ pre, l.preheader = some pre → l.HasPreheader f pre := by
  unfold naturalLoops NatMap.values at hl
  obtain ⟨x, hx, rfl⟩ := List.mem_map.1 hl
  obtain ⟨e, he, rfl⟩ := List.mem_map.1 hx
  have hnone : ∀ x ∈ (NatMap.empty : NatMap Loop).entries,
      x.2.Natural f ∧ x.2.header.index = x.1 := by
    intro x hx
    cases hx
  have habove : ∀ e ∈ f.backEdges f.cfg.domTree, f.Dom e.2 e.1 :=
    fun e he => ((mem_backEdges_iff hv.consistent).1 he).2.2
  have hnat := (natural_of_backEdges hv hall habove hnone e he).1
  exact ⟨⟨hnat.header_mem, hnat.above, hnat.closed⟩, fun pre hpre => Loop.findPreheader_spec hpre⟩

/-- Nesting leaves header, body and preheader of every loop alone. -/
lemma mem_nest {loops : List Loop} {l : Loop} (hl : l ∈ Loop.nest loops) :
    ∃ l₀ ∈ loops, l.header = l₀.header ∧ l.body = l₀.body ∧ l.preheader = l₀.preheader := by
  unfold Loop.nest at hl
  obtain ⟨x, hx, rfl⟩ := List.mem_map.1 hl
  obtain ⟨l₀, hl₀, rfl⟩ := List.mem_map.1 hx
  exact ⟨l₀, hl₀, rfl, rfl, rfl⟩

/-- Nesting drops no loop. -/
lemma exists_mem_nest {loops : List Loop} {l : Loop} (hl : l ∈ loops) :
    ∃ l' ∈ Loop.nest loops, l'.header = l.header := by
  unfold Loop.nest
  exact ⟨_, List.mem_map_of_mem (List.mem_map_of_mem hl), rfl⟩

lemma loops_foldl_addLoop (loops : List Loop) (lf : LoopForest) :
    (loops.foldl LoopForest.addLoop lf).loops = lf.loops ++ loops := by
  induction loops generalizing lf with
  | nil => simp
  | cons l rest ih =>
    rw [List.foldl_cons, ih]
    simp [LoopForest.addLoop]

lemma mem_insertByDepth {l m : Loop} {loops : List Loop} :
    m ∈ LoopForest.insertByDepth l loops ↔ m = l ∨ m ∈ loops := by
  induction loops with
  | nil => simp [LoopForest.insertByDepth]
  | cons x rest ih =>
    unfold LoopForest.insertByDepth
    split
    · simp
    · rw [List.mem_cons, ih, List.mem_cons]
      exact or_left_comm

lemma mem_innermostFirst {lf : LoopForest} {l : Loop} : l ∈ lf.innermostFirst ↔ l ∈ lf.loops := by
  unfold LoopForest.innermostFirst
  induction lf.loops with
  | nil => simp
  | cons x rest ih => rw [List.foldr_cons, mem_insertByDepth, ih, List.mem_cons]

lemma perm_insertByDepth (l : Loop) (loops : List Loop) :
    (LoopForest.insertByDepth l loops).Perm (l :: loops) := by
  induction loops with
  | nil => exact .refl _
  | cons x rest ih =>
    unfold LoopForest.insertByDepth
    split
    · exact .refl _
    · exact (ih.cons x).trans (.swap l x rest)

lemma perm_innermostFirst (lf : LoopForest) : lf.innermostFirst.Perm lf.loops := by
  unfold LoopForest.innermostFirst
  induction lf.loops with
  | nil => exact .refl _
  | cons x rest ih => exact (perm_insertByDepth x _).trans (ih.cons x)

lemma pairwise_insertByDepth {l : Loop} {loops : List Loop}
    (h : loops.Pairwise fun k m => m.depth ≤ k.depth) :
    (LoopForest.insertByDepth l loops).Pairwise fun k m => m.depth ≤ k.depth := by
  induction loops with
  | nil => exact List.pairwise_singleton _ _
  | cons x rest ih =>
    obtain ⟨hx, hrest⟩ := List.pairwise_cons.1 h
    unfold LoopForest.insertByDepth
    split
    · rename_i hle
      refine List.pairwise_cons.2 ⟨fun m hm => ?_, h⟩
      rcases List.mem_cons.1 hm with rfl | hm
      · exact hle
      · exact Nat.le_trans (hx m hm) hle
    · rename_i hlt
      refine List.pairwise_cons.2 ⟨fun m hm => ?_, ih hrest⟩
      rcases mem_insertByDepth.1 hm with rfl | hm
      · omega
      · exact hx m hm

/-- Deeper loops come first. -/
lemma pairwise_innermostFirst (lf : LoopForest) :
    lf.innermostFirst.Pairwise fun l m => m.depth ≤ l.depth := by
  unfold LoopForest.innermostFirst
  induction lf.loops with
  | nil => exact List.Pairwise.nil
  | cons x rest ih => exact pairwise_insertByDepth ih

/-- The loops of a forest are entered through their headers only, and through their preheaders
if they have one. -/
theorem natural_of_mem_innermostFirst (hv : f.Verified)
    (hall : ∀ b bb, f.block? b = some bb → f.Reached b) {l : Loop}
    (hl : l ∈ (f.loopForest f.cfg.domTree).innermostFirst) :
    l.Natural f ∧ ∀ pre, l.preheader = some pre → l.HasPreheader f pre := by
  rw [mem_innermostFirst] at hl
  unfold loopForest at hl
  rw [loops_foldl_addLoop] at hl
  obtain ⟨l₀, hl₀, hheader, hbody, hpre⟩ := mem_nest hl
  obtain ⟨hnat, hhas⟩ := natural_of_mem_naturalLoops hv hall hl₀
  refine ⟨⟨?_, ?_, ?_⟩, ?_⟩
  · rw [hheader, hbody]
    exact hnat.header_mem
  · rw [hheader, hbody]
    exact hnat.above
  · rw [hheader, hbody]
    exact hnat.closed
  · intro pre h
    rw [hpre] at h
    have := hhas pre h
    unfold Loop.HasPreheader Loop.outsidePreds Loop.contains at this ⊢
    rw [hheader, hbody]
    exact this

end Func

end SsaBackend
