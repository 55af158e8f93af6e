import Mathlib.Tactic.Common
import SsaBackend.Func.Basic

/-!
# What is read off a block

Whether a block is there, how it ends, which blocks enter it and which it leads to is all read off
its place in the table. So what a change leaves alone in a block, the function keeps there
(`hasBlock_eq_of_map`, `preds_eq_of_map`, `succs_eq_of_map`, `terminator?_eq_of_map`).
-/

namespace SsaBackend

namespace Func

variable {f g : Func} {b p s : BlockId} {bb : Block}

/-- A block that is there has a place in the table. -/
lemma lt_blockCapacity (h : f.block? b = some bb) : b.index < f.blockCapacity := by
  unfold block? at h
  by_contra hge
  rw [Array.getElem?_eq_none (by unfold blockCapacity at hge; omega)] at h
  cases h

lemma hasBlock_of_block (h : f.block? b = some bb) : f.hasBlock b = true :=
  Option.isSome_iff_exists.2 ⟨bb, h⟩

lemma preds_of_block (h : f.block? b = some bb) : f.preds b = bb.preds := by
  unfold preds
  rw [h]
  rfl

lemma succs_of_block (h : f.block? b = some bb) : f.succs b = bb.successors := by
  unfold succs
  rw [h]
  rfl

lemma terminator?_eq_some {t : Terminator} :
    f.terminator? b = some t ↔ ∃ bb, f.block? b = some bb ∧ bb.terminator = some t :=
  Option.bind_eq_some_iff

lemma terminator?_of_block (h : f.block? b = some bb) : f.terminator? b = bb.terminator := by
  unfold terminator?
  rw [h]
  rfl

lemma succs_of_terminator {t : Terminator} (hb : f.block? b = some bb)
    (ht : bb.terminator = some t) : f.succs b = t.successors := by
  rw [succs_of_block hb, Block.successors, ht]
  rfl

/-! ## Blocks that are not there -/

lemma preds_of_missing (h : f.block? b = none) : f.preds b = [] := by
  unfold preds
  rw [h]
  rfl

lemma succs_of_missing (h : f.block? b = none) : f.succs b = [] := by
  unfold succs
  rw [h]
  rfl

/-- Blocks that list predecessors are there. -/
lemma exists_block_of_pred (h : p ∈ f.preds b) : ∃ bb, f.block? b = some bb := by
  refine Option.ne_none_iff_exists'.1 fun hb => ?_
  rw [preds_of_missing hb] at h
  cases h

/-- Successors belong to blocks that are there. -/
lemma exists_block_of_succ (h : s ∈ f.succs b) : ∃ bb, f.block? b = some bb := by
  refine Option.ne_none_iff_exists'.1 fun hb => ?_
  rw [succs_of_missing hb] at h
  cases h

lemma hasBlock_of_preds (h : p ∈ f.preds b) : f.hasBlock b = true :=
  Option.isSome_iff_exists.2 (exists_block_of_pred h)

lemma hasBlock_of_succs (h : s ∈ f.succs b) : f.hasBlock b = true :=
  Option.isSome_iff_exists.2 (exists_block_of_succ h)

/-! ## Changes of a block -/

section Changes

variable {k : Block → Block} {P : Prop} [Decidable P]

/-- A change of some of the blocks changes them all, the others to what they are. -/
lemma map_of_ite {o o' : Option Block} (h : o' = if P then o.map k else o) :
    o' = o.map fun bb => if P then k bb else bb := by
  rw [h]
  split
  · rfl
  · exact Option.map_id'.symm

lemma hasBlock_eq_of_map (h : g.block? b = (f.block? b).map k) : g.hasBlock b = f.hasBlock b := by
  unfold hasBlock
  rw [h, Option.isSome_map]

lemma preds_eq_of_map (h : g.block? b = (f.block? b).map k) (hk : ∀ bb, (k bb).preds = bb.preds) :
    g.preds b = f.preds b := by
  unfold preds
  rw [h]
  cases f.block? b with
  | none => rfl
  | some bb => exact hk bb

lemma succs_eq_of_map (h : g.block? b = (f.block? b).map k)
    (hk : ∀ bb, (k bb).successors = bb.successors) : g.succs b = f.succs b := by
  unfold succs
  rw [h]
  cases f.block? b with
  | none => rfl
  | some bb => exact hk bb

lemma terminator?_eq_of_map (h : g.block? b = (f.block? b).map k) {v : Terminator → Terminator}
    (hk : ∀ bb, (k bb).terminator = bb.terminator.map v) :
    g.terminator? b = (f.terminator? b).map v := by
  unfold terminator?
  rw [h]
  cases f.block? b with
  | none => rfl
  | some bb => exact hk bb

end Changes

end Func

end SsaBackend
