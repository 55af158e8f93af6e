import SsaBackend.Proofs.Func.Folding

/-!
# Edges that are listed at both ends

All that the searches over the blocks of a function rest on: the entry is there, and a block
lists another among its successors exactly if the other lists it, once, among its predecessors
(`Func.EdgesAgree`). Nothing is said about instructions or about how blocks end, so the fact
survives edits that leave operands without a definition behind.

Replacing instructions keeps the shape of a function whatever it holds (`sameShape_replaced`),
and taking away a predecessor does to the edges what it says (`removePred_unlinks`), a whole block
likewise (`removeBlock_deletes`).
-/

namespace SsaBackend

namespace Func

/-- The entry is there, and every edge is listed at both ends. -/
structure EdgesAgree (f : Func) : Prop where
  entry : f.hasBlock f.entry = true
  linked : ∀ b s, s ∈ f.succs b ↔ b ∈ f.preds s
  once : ∀ b, (f.preds b).Nodup

lemma lt_blockCapacity_of_hasBlock {f : Func} {b : BlockId} (h : f.hasBlock b = true) :
    b.index < f.blockCapacity := by
  obtain ⟨bb, hb⟩ := Option.isSome_iff_exists.1 h
  exact lt_blockCapacity hb

lemma Verified.edgesAgree {f : Func} (h : f.Verified) : f.EdgesAgree :=
  ⟨Option.isSome_iff_exists.2 h.entry, h.linked, h.predsOnce⟩

namespace EdgesAgree

variable {f g : Func}

/-- Both ends of an edge are there. -/
lemma hasBlock_succ (h : f.EdgesAgree) {b s : BlockId} (hs : s ∈ f.succs b) :
    f.hasBlock s = true :=
  hasBlock_of_preds ((h.linked b s).1 hs)

lemma hasBlock_pred (h : f.EdgesAgree) {b p : BlockId} (hp : p ∈ f.preds b) :
    f.hasBlock p = true :=
  hasBlock_of_succs ((h.linked p b).2 hp)

/-- The control-flow graph stays among the blocks, and its two sides agree. -/
lemma consistent (h : f.EdgesAgree) : f.cfg.Consistent :=
  cfg_consistent (Option.isSome_iff_exists.1 h.entry) h.linked

/-- Only the blocks that are there and the lists of edges matter. -/
lemma congr (h : f.EdgesAgree) (hblocks : ∀ b, g.hasBlock b = f.hasBlock b)
    (hpreds : ∀ b, g.preds b = f.preds b) (hsuccs : ∀ b, g.succs b = f.succs b) :
    g.EdgesAgree := by
  refine ⟨(hblocks _).trans h.entry, fun b s => ?_, fun b => ?_⟩
  · rw [hsuccs, hpreds]
    exact h.linked b s
  · rw [hpreds]
    exact h.once b

lemma sameShape (h : f.EdgesAgree) (hs : SameShape f g) : g.EdgesAgree :=
  h.congr hs.blocks hs.preds hs.succs

end EdgesAgree

/-! ## Instructions -/

/-- Changing a block and neither its predecessors nor its successors. -/
lemma sameShape_modifyBlock (f : Func) (b : BlockId) {g : Block → Block}
    (hpreds : ∀ bb, (g bb).preds = bb.preds)
    (hsuccs : ∀ bb, (g bb).successors = bb.successors) : SameShape f (f.modifyBlock b g) := by
  refine ⟨fun c => ?_, fun c => ?_, hasBlock_modifyBlock f b g, blockCapacity_modifyBlock .., rfl⟩
  · rw [preds_modifyBlock]
    simp only [hpreds]
    exact ite_self _
  · rw [succs_modifyBlock]
    simp only [hsuccs]
    exact ite_self _

lemma sameShape_modifyInst (f : Func) (i : InstId) (g : Inst → Inst) :
    SameShape f (f.modifyInst i g) :=
  ⟨fun _ => rfl, fun _ => rfl, fun _ => rfl, rfl, rfl⟩

lemma sameShape_modifyPhi (f : Func) (i : InstId) (g : Phi → Phi) :
    SameShape f (f.modifyPhi i g) :=
  sameShape_modifyInst f i _

lemma sameShape_mapOperands (f : Func) (g : Value → Value) : SameShape f (f.mapOperands g) := by
  refine ⟨preds_mapOperands f g, succs_mapOperands f g, hasBlock_mapOperands f g, ?_, rfl⟩
  simp [mapOperands, blockCapacity]

lemma sameShape_removeInst (f : Func) (i : InstId) : SameShape f (f.removeInst i) := by
  unfold removeInst
  split
  · exact (⟨fun _ => rfl, fun _ => rfl, fun _ => rfl, rfl, rfl⟩ : SameShape f (f.clearInst i)).trans
      (sameShape_modifyBlock _ _ (fun _ => rfl) fun _ => rfl)
  · exact .refl f

/-- Replacing an instruction touches no edge. -/
lemma sameShape_replaced (f : Func) (i : InstId) (v : Value) :
    SameShape f ((f.replaceUses i v).removeInst i) :=
  (sameShape_mapOperands f _).trans (sameShape_removeInst _ i)

/-- A property of functions that replacing keeps is kept by folding trivial phis. -/
lemma foldTrivialPhis_kept {f : Func} (P : Func → Prop)
    (hstep : ∀ f i v, P f → P ((f.replaceUses i v).removeInst i)) (hstart : P f)
    (candidates : List InstId) (mayFold : InstId → Bool) :
    P (f.foldTrivialPhis candidates mayFold).1 := by
  refine repeatUpTo_induct (fun s : PhiFold => P s.func) ?_ _ _ hstart
  intro s s' hs h
  obtain ⟨i, rest, -, ⟨hfunc, -⟩ | ⟨same, node, -, -, hfunc, -⟩⟩ := PhiFold.step_work h
  · rw [hfunc]
    exact hs
  · rw [hfunc]
    exact hstep _ i same hs

lemma sameShape_foldTrivialPhis (f : Func) (candidates : List InstId) (mayFold : InstId → Bool) :
    SameShape f (f.foldTrivialPhis candidates mayFold).1 :=
  foldTrivialPhis_kept (SameShape f) (fun g i v hg => hg.trans (sameShape_replaced g i v))
    (.refl f) candidates mayFold

/-! ## Taking edges away -/

/-- `g` has the blocks and edges of `f`, but the blocks for which `cut` holds no longer list
`pred`. -/
structure Unlinks (f g : Func) (cut : BlockId → Prop) (pred : BlockId) : Prop where
  succs : ∀ c, g.succs c = f.succs c
  preds : ∀ c p, p ∈ g.preds c ↔ p ∈ f.preds c ∧ ¬ (cut c ∧ p = pred)
  once : (∀ c, (f.preds c).Nodup) → ∀ c, (g.preds c).Nodup
  blocks : ∀ c, g.hasBlock c = f.hasBlock c
  capacity : g.blockCapacity = f.blockCapacity

lemma removePred_unlinks (f : Func) (b pred : BlockId) :
    Unlinks f (f.removePred b pred).1 (· = b) pred := by
  cases hb : f.block? b with
  | none =>
    rw [removePred_deleted hb]
    refine ⟨fun _ => rfl, fun c p => ?_, fun h => h, fun _ => rfl, rfl⟩
    constructor
    · -- a block that was deleted lists no predecessor
      intro hp
      refine ⟨hp, ?_⟩
      rintro ⟨rfl, -⟩
      rw [preds_of_missing hb] at hp
      cases hp
    · exact fun hp => hp.1
  | some bb =>
    rw [removePred_eq hb]
    have hs := sameShape_foldTrivialPhis (f.unlinked b pred bb) bb.phis fun _ => true
    refine ⟨fun c => (hs.succs c).trans (unlinked_succs c), fun c p => ?_, fun h c => ?_,
      fun c => ?_, hs.capacity.trans ?_⟩
    · rw [hs.preds, unlinked_preds]
      split
      · rename_i he
        rw [List.mem_filter, decide_eq_true_eq]
        exact and_congr_right fun _ => ⟨fun hne hp => hne hp.2, fun hne hp => hne ⟨he.symm, hp⟩⟩
      · rename_i he
        exact ⟨fun hp => ⟨hp, fun hc => he hc.1.symm⟩, fun hp => hp.1⟩
    · rw [hs.preds, unlinked_preds]
      split
      · exact (h c).filter _
      · exact h c
    · rw [hs.blocks, unlinked_hasBlock]
    · unfold unlinked
      rw [(numArgs_foldl_modifyPhi _ _ _).2, blockCapacity_modifyBlock]

lemma Unlinks.trans {f g h : Func} {cut cut' : BlockId → Prop} {pred : BlockId}
    (hfg : Unlinks f g cut pred) (hgh : Unlinks g h cut' pred) :
    Unlinks f h (fun c => cut c ∨ cut' c) pred := by
  refine ⟨fun c => (hgh.succs c).trans (hfg.succs c), fun c p => ?_,
    fun hn => hgh.once (hfg.once hn), fun c => (hgh.blocks c).trans (hfg.blocks c),
    hgh.capacity.trans hfg.capacity⟩
  rw [hgh.preds, hfg.preds]
  tauto

/-- One predecessor is taken away from one block after the other. -/
lemma foldl_removePred_unlinks (l : List BlockId) (pred : BlockId) (acc : Func × List Replacement) :
    Unlinks acc.1 (l.foldl (fun acc s =>
      let r := acc.1.removePred s pred; (r.1, acc.2 ++ r.2)) acc).1 (· ∈ l) pred := by
  induction l generalizing acc with
  | nil => exact ⟨fun _ => rfl, fun c p => by simp, fun h => h, fun _ => rfl, rfl⟩
  | cons s rest ih =>
    rw [List.foldl_cons]
    have hall := (removePred_unlinks acc.1 s pred).trans
      (ih ((acc.1.removePred s pred).1, acc.2 ++ (acc.1.removePred s pred).2))
    simpa only [List.mem_cons] using hall

/-- What removing a block does to the edges: its own are gone, at both ends. -/
structure Deletes (f g : Func) (b : BlockId) : Prop where
  succs : ∀ c, g.succs c = if b = c then [] else f.succs c
  preds : ∀ c p, p ∈ g.preds c ↔ b ≠ c ∧ p ∈ f.preds c ∧ ¬ (c ∈ f.succs b ∧ p = b)
  once : (∀ c, (f.preds c).Nodup) → ∀ c, (g.preds c).Nodup
  blocks : ∀ c, g.hasBlock c = (f.hasBlock c && decide (b ≠ c))

lemma removeBlock_deletes {f : Func} {b : BlockId} (hb : f.hasBlock b = true)
    (hne : b ≠ f.entry) : ∃ r, f.removeBlock b = .ok r ∧ Deletes f r.1 b := by
  obtain ⟨bb, hbb⟩ := Option.isSome_iff_exists.1 hb
  have hget : f.getBlock b = .ok bb := by
    unfold getBlock
    rw [hbb]
  refine ⟨bb.successors.foldl (fun acc s => let r := acc.1.removePred s b; (r.1, acc.2 ++ r.2))
    (f.clearBlock b bb, []), ?_, ?_⟩
  · unfold removeBlock
    rw [if_neg hne, hget]
    rfl
  · have hsuccs : f.succs b = bb.successors := succs_of_block hbb
    have hun := foldl_removePred_unlinks bb.successors b (f.clearBlock b bb, [])
    refine ⟨fun c => (hun.succs c).trans (clearBlock_succs c), fun c p => ?_, fun hn => ?_,
      fun c => (hun.blocks c).trans (clearBlock_hasBlock c)⟩
    · rw [hun.preds, clearBlock_preds, hsuccs]
      split
      · rename_i he
        simp [he]
      · rename_i he
        simp [he]
    · refine hun.once fun c => ?_
      rw [clearBlock_preds]
      split
      · exact List.nodup_nil
      · exact hn c

end Func

end SsaBackend
