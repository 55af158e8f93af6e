import SsaBackend.Proofs.Func.Edges
import SsaBackend.Proofs.Preheader.Complete

/-!
# Edges when a preheader is inserted

An insertion leads some of the edges to a header through a new block. Whatever the instructions
of the function are, and also if the header is the entry, every edge is listed at both ends
afterwards (`Preheaders.edgesAgree_withPreheader`): splitting the phis touches no edge, so only
the edges of the new block, of the header and of the blocks outside have to be looked at.
-/

namespace SsaBackend

namespace Preheaders

open Func

variable {f : Func} {header : BlockId} {outside : List BlockId}

/-! ## Phis -/

lemma sameShape_addPhi (f : Func) (b : BlockId) (phi : Phi) : SameShape f (addPhi f b phi) := by
  have hlisted : SameShape f (f.modifyBlock b (·.append f.nextInst true)) :=
    sameShape_modifyBlock f b (fun _ => rfl) fun _ => rfl
  exact hlisted.trans ⟨fun _ => rfl, fun _ => rfl, fun _ => rfl, rfl, rfl⟩

lemma sameShape_splitPhi (outside : List BlockId) (pre : BlockId) (f : Func) (i : InstId) :
    SameShape f (splitPhi outside pre f i) := by
  have hemptied := sameShape_modifyPhi f i (outside.foldl Phi.dropIncoming ·)
  unfold splitPhi
  dsimp only
  split
  · exact hemptied
  · split
    · exact hemptied.trans (sameShape_modifyPhi ..)
    · exact (hemptied.trans (sameShape_addPhi ..)).trans (sameShape_modifyPhi ..)

lemma sameShape_foldl_splitPhi (outside : List BlockId) (pre : BlockId) (phis : List InstId)
    (f : Func) : SameShape f (phis.foldl (splitPhi outside pre) f) := by
  induction phis generalizing f with
  | nil => exact .refl f
  | cons i rest ih => exact (sameShape_splitPhi outside pre f i).trans (ih _)

/-! ## Edges -/

/-- A block that gets a predecessor leads where it led. -/
lemma succs_modifyBlock_addPred (f : Func) (c p b : BlockId) :
    (f.modifyBlock c (·.addPred p)).succs b = f.succs b := by
  have hsame : ∀ bb : Block, (bb.addPred p).successors = bb.successors := by
    intro bb
    rw [Block.addPred_eq]
    rfl
  rw [succs_modifyBlock]
  simp only [hsame]
  exact ite_self _

/-- Some of the predecessors of a header, in a function whose edges are listed at both ends. -/
structure Leads (f : Func) (header : BlockId) (outside : List BlockId) : Prop where
  agree : f.EdgesAgree
  preds : ∀ p ∈ outside, p ∈ f.preds header
  once : outside.Nodup
  entered : outside ≠ []

namespace Leads

lemma hasHeader (h : Leads f header outside) : f.hasBlock header = true := by
  obtain ⟨p, hp⟩ := List.exists_mem_of_ne_nil _ h.entered
  exact hasBlock_of_preds (h.preds p hp)

lemma header_ne (h : Leads f header outside) : header ≠ f.nextBlock :=
  ne_nextBlock_of_hasBlock h.hasHeader

lemma not_outside (h : Leads f header outside) : f.nextBlock ∉ outside := by
  intro hmem
  exact ne_nextBlock_of_hasBlock (h.agree.hasBlock_pred (h.preds _ hmem)) rfl

/-- The blocks once the entering edges lead to the new one and are no more listed at the header. -/
lemma block?_detached (h : Leads f header outside) (b : BlockId) :
    (detached f header outside).block? b =
      if b = f.nextBlock then some { preds := outside }
      else (f.block? b).map fun bb =>
        { bb with
          terminator := if b ∈ outside then bb.terminator.map (·.retarget header f.nextBlock)
            else bb.terminator
          preds := if b = header then bb.preds.filter (!outside.contains ·) else bb.preds } := by
  unfold detached
  rw [block?_modifyBlock, block?_foldl_reroute outside f.addBlock h.once h.not_outside ?_ b,
    block?_addBlock]
  · by_cases hb : b = f.nextBlock
    · simp [hb, h.header_ne, h.not_outside]
    · cases hbb : f.block? b with
      | none => simp [hb]
      | some bb =>
        by_cases hh : header = b
        · simp [hb, hh]
        · simp [hb, hh, Ne.symm hh]
  · intro bb hbb p _
    rw [block?_addBlock, if_pos rfl] at hbb
    cases hbb
    exact List.not_mem_nil

lemma preds_detached (h : Leads f header outside) (b : BlockId) :
    (detached f header outside).preds b =
      if b = f.nextBlock then outside
      else if b = header then (f.preds b).filter (!outside.contains ·) else f.preds b := by
  unfold Func.preds
  rw [h.block?_detached]
  split
  · rfl
  · cases f.block? b with
    | none => simp
    | some bb => rfl

/-- The entering edges lead to the new block, all others where they led. -/
lemma mem_succs_detached (h : Leads f header outside) {b s : BlockId} (hb : b ≠ f.nextBlock) :
    s ∈ (detached f header outside).succs b ↔
      (b ∈ outside ∧ (s = f.nextBlock ∨ s ∈ f.succs b ∧ s ≠ header)) ∨
      (b ∉ outside ∧ s ∈ f.succs b) := by
  have hblock := h.block?_detached b
  rw [if_neg hb] at hblock
  by_cases hout : b ∈ outside
  · have hs : header ∈ f.succs b := (h.agree.linked b header).2 (h.preds b hout)
    obtain ⟨bb, hbb⟩ := exists_block_of_succ hs
    cases ht : bb.terminator with
    | none =>
      unfold succs Block.successors at hs
      rw [hbb, Option.elim_some, ht] at hs
      cases hs
    | some t =>
      have hold : f.succs b = t.successors := succs_of_terminator hbb ht
      have hnew : (detached f header outside).succs b =
          (t.retarget header f.nextBlock).successors := by
        rw [hbb, Option.map_some] at hblock
        refine succs_of_terminator hblock ?_
        rw [if_pos hout, ht]
        rfl
      rw [hold] at hs
      rw [hnew, hold, Terminator.mem_successors_retarget]
      constructor
      · rintro ⟨r, hr, rfl⟩
        refine .inl ⟨hout, ?_⟩
        by_cases hrh : r = header
        · exact .inl (if_pos hrh)
        · rw [if_neg hrh]
          exact .inr ⟨hr, hrh⟩
      · rintro (⟨-, rfl | ⟨hr, hrh⟩⟩ | ⟨hnot, -⟩)
        · exact ⟨header, hs, (if_pos rfl).symm⟩
        · exact ⟨s, hr, (if_neg hrh).symm⟩
        · exact absurd hout hnot
  · have hsame : (detached f header outside).succs b = f.succs b :=
      succs_eq_of_map hblock fun bb => by simp [hout, Block.successors]
    rw [hsame]
    simp [hout]

lemma hasBlock_detached (h : Leads f header outside) {b : BlockId}
    (hb : b = f.nextBlock ∨ f.hasBlock b = true) :
    (detached f header outside).hasBlock b = true := by
  unfold hasBlock at hb ⊢
  rw [h.block?_detached]
  split
  · rfl
  · rename_i hne
    rw [Option.isSome_map]
    exact hb.resolve_left hne

lemma blockCapacity_detached (f : Func) (header : BlockId) (outside : List BlockId) :
    (detached f header outside).blockCapacity = f.blockCapacity + 1 := by
  unfold detached
  rw [blockCapacity_modifyBlock, (insts_foldl_reroute outside f.addBlock).2.1]
  unfold addBlock blockCapacity
  exact Array.size_push ..

/-- The new block was not a predecessor of the header, so attaching it lists it at the end. -/
lemma preds_attached (h : Leads f header outside) {hh : Block}
    (hpreds : hh.preds = (f.preds header).filter (!outside.contains ·)) :
    (hh.addPred f.nextBlock).preds =
      (f.preds header).filter (!outside.contains ·) ++ [f.nextBlock] := by
  have hnot : f.nextBlock ∉ hh.preds := by
    rw [hpreds]
    intro hmem
    exact ne_nextBlock_of_hasBlock (h.agree.hasBlock_pred (List.mem_filter.1 hmem).1) rfl
  rw [Block.addPred, if_neg hnot, ← hpreds]

/-- The blocks and edges afterwards. -/
structure Led (f g : Func) (header : BlockId) (outside : List BlockId) : Prop where
  blocks : ∀ b, b = f.nextBlock ∨ f.hasBlock b = true → g.hasBlock b = true
  succs : ∀ b s, s ∈ g.succs b ↔
    (b = f.nextBlock ∧ s = header) ∨
    (b ∈ outside ∧ (s = f.nextBlock ∨ s ∈ f.succs b ∧ s ≠ header)) ∨
    (b ∉ outside ∧ s ∈ f.succs b)
  preds : ∀ b, g.preds b =
    if b = f.nextBlock then outside
    else if b = header then (f.preds b).filter (!outside.contains ·) ++ [f.nextBlock]
    else f.preds b
  capacity : g.blockCapacity = f.blockCapacity + 1

lemma led (h : Leads f header outside) :
    Led f (withPreheader f ⟨header, outside⟩) header outside := by
  have hheader := h.header_ne
  -- the phis are split before the new block is attached
  obtain ⟨split, hshape, heq⟩ : ∃ split, SameShape (detached f header outside) split ∧
      withPreheader f ⟨header, outside⟩ =
        (split.modifyBlock f.nextBlock ({ · with terminator := some (.jump header) })).modifyBlock
          header (·.addPred f.nextBlock) := ⟨_, sameShape_foldl_splitPhi .., rfl⟩
  have hblocks : ∀ b, b = f.nextBlock ∨ f.hasBlock b = true → split.hasBlock b = true :=
    fun b hb => (hshape.blocks b).trans (h.hasBlock_detached hb)
  obtain ⟨pp, hpp⟩ := Option.isSome_iff_exists.1 (hblocks _ (.inl rfl))
  obtain ⟨hh, hhh⟩ := Option.isSome_iff_exists.1 (hblocks _ (.inr h.hasHeader))
  have hpreds := fun b => (hshape.preds b).trans (h.preds_detached b)
  rw [heq]
  refine ⟨fun b hb => ?_, fun b s => ?_, fun b => ?_, ?_⟩
  · rw [hasBlock_modifyBlock, hasBlock_modifyBlock]
    exact hblocks b hb
  · rw [succs_modifyBlock_addPred, succs_modifyBlock]
    split
    · rename_i hb
      subst hb
      have hnone : s ∉ f.succs f.nextBlock :=
        fun hs => ne_nextBlock_of_hasBlock (hasBlock_of_succs hs) rfl
      rw [hpp]
      show s ∈ [header] ↔ _
      rw [List.mem_singleton]
      simp [hnone, h.not_outside]
    · rename_i hb
      rw [hshape.succs, h.mem_succs_detached (Ne.symm hb)]
      tauto
  · rw [preds_modifyBlock]
    split
    · rename_i hb
      subst hb
      have hold : hh.preds = (f.preds header).filter (!outside.contains ·) := by
        have := hpreds header
        rw [if_neg hheader, if_pos rfl, preds_of_block hhh] at this
        exact this
      rw [block?_modifyBlock, if_neg (Ne.symm hheader), hhh, if_neg hheader, if_pos rfl]
      exact h.preds_attached hold
    · rename_i hb
      -- ending the new block changes no list of predecessors
      have hterm : (split.modifyBlock f.nextBlock
          ({ · with terminator := some (.jump header) })).preds b = split.preds b := by
        rw [preds_modifyBlock]
        split
        · rfl
        · rfl
      rw [hterm, hpreds, if_neg (Ne.symm hb), if_neg (Ne.symm hb)]
  · rw [blockCapacity_modifyBlock, blockCapacity_modifyBlock, hshape.capacity,
      blockCapacity_detached]

end Leads

/-- Every edge is listed at both ends afterwards. -/
lemma edgesAgree_withPreheader (h : Leads f header outside) :
    (withPreheader f ⟨header, outside⟩).EdgesAgree := by
  have hled := h.led
  have hnotSucc : ∀ b, f.nextBlock ∉ f.succs b :=
    fun b hs => ne_nextBlock_of_hasBlock (h.agree.hasBlock_succ hs) rfl
  have hnotPred : ∀ b, f.nextBlock ∉ f.preds b :=
    fun b hp => ne_nextBlock_of_hasBlock (h.agree.hasBlock_pred hp) rfl
  refine ⟨hled.blocks _ (.inr h.agree.entry), fun b s => ?_, fun b => ?_⟩
  · rw [hled.succs, hled.preds]
    by_cases hs : s = f.nextBlock
    · -- to the new block
      subst hs
      rw [if_pos rfl]
      have := hnotSucc b
      have := Ne.symm h.header_ne
      tauto
    · rw [if_neg hs]
      by_cases hsh : s = header
      · -- to the header
        subst hsh
        have hcontains : (!outside.contains b) = true ↔ b ∉ outside := by simp
        rw [if_pos rfl, List.mem_append, List.mem_singleton, List.mem_filter, hcontains,
          ← h.agree.linked b s]
        tauto
      · rw [if_neg hsh, ← h.agree.linked b s]
        have hnew : b = f.nextBlock → s ∉ f.succs b :=
          fun he hmem => ne_nextBlock_of_hasBlock (hasBlock_of_succs hmem) he
        tauto
  · rw [hled.preds]
    split
    · exact h.once
    · split
      · rename_i hb
        refine List.Nodup.append ((h.agree.once b).filter _) (List.nodup_singleton _) ?_
        intro p hp hp'
        rw [List.mem_singleton.1 hp'] at hp
        exact hnotPred b (List.mem_filter.1 hp).1
      · exact h.agree.once b

end Preheaders

end SsaBackend
