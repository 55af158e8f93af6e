import SsaBackend.Proofs.Func.Meaning

/-!
# Folding phis and removing edges and blocks

What the operations of `Func.PhiFold` as a whole do to the graph, and that they keep a function
framed, its uses dominated, its operands in existence and its meaning (`Func.Keeps`).
-/

namespace SsaBackend

namespace Func

/-- The two functions have the same blocks, edges and arguments. -/
structure SameShape (f g : Func) : Prop where
  preds : ∀ b, g.preds b = f.preds b
  succs : ∀ b, g.succs b = f.succs b
  blocks : ∀ b, g.hasBlock b = f.hasBlock b
  capacity : g.blockCapacity = f.blockCapacity
  numArgs : g.numArgs = f.numArgs

namespace SameShape

variable {f g h : Func}

lemma refl (f : Func) : SameShape f f := ⟨fun _ => rfl, fun _ => rfl, fun _ => rfl, rfl, rfl⟩

lemma trans (hfg : SameShape f g) (hgh : SameShape g h) : SameShape f h where
  preds b := (hgh.preds b).trans (hfg.preds b)
  succs b := (hgh.succs b).trans (hfg.succs b)
  blocks b := (hgh.blocks b).trans (hfg.blocks b)
  capacity := hgh.capacity.trans hfg.capacity
  numArgs := hgh.numArgs.trans hfg.numArgs

lemma cfg (hfg : SameShape f g) : g.cfg = f.cfg := by
  unfold Func.cfg
  simp only [hfg.succs, hfg.preds, hfg.capacity]
  rfl

lemma exists_block (hfg : SameShape f g) {b : BlockId} :
    (∃ bb, g.block? b = some bb) ↔ ∃ bb, f.block? b = some bb := by
  rw [← Option.isSome_iff_exists, ← Option.isSome_iff_exists]
  exact Eq.congr (hfg.blocks b) rfl

lemma tight (hfg : SameShape f g) (ht : f.Tight) : g.Tight := by
  refine ⟨?_, ?_⟩
  · intro b s hb
    rw [hfg.preds] at hb
    rw [hfg.succs]
    exact ht.edges b s hb
  · intro b s hs
    rw [hfg.succs] at hs
    exact hfg.exists_block.2 (ht.targets b s hs)

lemma reached (hfg : SameShape f g) {b : BlockId} : g.Reached b ↔ f.Reached b := by
  unfold Func.Reached
  rw [hfg.cfg]

lemma allReached (hfg : SameShape f g) (hall : f.AllReached) : g.AllReached := by
  intro b bb hb
  obtain ⟨cc, hc⟩ := hfg.exists_block.1 ⟨bb, hb⟩
  exact hfg.reached.2 (hall b cc hc)

end SameShape

lemma Replaced.sameShape {f g : Func} {i : InstId} {v : Value} (h : Replaced f g i v) :
    SameShape f g :=
  ⟨h.preds_eq, h.succs_eq, h.hasBlock_eq, h.capacity, h.numArgs⟩

/-! ## Folding trivial phis -/

/-- Phis on a list of candidates are listed in a block, as long as they are there. -/
def PhisListed (f : Func) (candidates : List InstId) : Prop :=
  ∀ i ∈ candidates, ∀ node, f.phi? i = some node → ∃ b bb, f.block? b = some bb ∧ i ∈ bb.phis

lemma mem_phiIds {f : Func} {i : InstId} :
    i ∈ f.phiIds ↔ ∃ b bb, f.block? b = some bb ∧ i ∈ bb.phis := by
  unfold phiIds
  rw [List.mem_flatMap]
  constructor
  · rintro ⟨⟨b, bb⟩, hmem, hi⟩
    exact ⟨b, bb, mem_liveBlocks.1 hmem, hi⟩
  · rintro ⟨b, bb, hb, hi⟩
    exact ⟨(b, bb), mem_liveBlocks.2 hb, hi⟩

lemma phisListed_phiIds (f : Func) : f.PhisListed f.phiIds := fun _ hi _ _ => mem_phiIds.1 hi

lemma phisListed_phis {f : Func} {b : BlockId} {bb : Block} (hb : f.block? b = some bb) :
    f.PhisListed bb.phis := fun _ hi _ _ => ⟨b, bb, hb, hi⟩

lemma Replaced.phisListed {f g : Func} {i : InstId} {v : Value} (h : Replaced f g i v)
    {l : List InstId} (hl : f.PhisListed l) : g.PhisListed l := by
  intro j hj node' hnode'
  obtain ⟨node, hnode, -⟩ := h.phi_inv hnode'
  obtain ⟨b, bb, hb, hmem⟩ := hl j hj node hnode
  have hne : j ≠ i := by
    obtain ⟨c, hc⟩ := phi?_some hnode'
    exact (h.inst_inv hc).1
  exact ⟨b, _, h.block_eq hb, List.mem_filter.2 ⟨hmem, by simpa using hne⟩⟩

/-- What every replacement of a listed trivial phi keeps, folding keeps. -/
lemma foldTrivialPhis_induct {f : Func} (P : Func → Prop) (hframed : ∀ f, P f → f.Framed)
    (hstep : ∀ f b bb i same node, P f → f.block? b = some bb → i ∈ bb.phis →
      f.phi? i = some node → node.trivial? i = some same →
      P ((f.replaceUses i same).removeInst i))
    {candidates : List InstId} (hlisted : f.PhisListed candidates) (mayFold : InstId → Bool)
    (hstart : P f) : P (f.foldTrivialPhis candidates mayFold).1 := by
  refine (repeatUpTo_induct (fun s : PhiFold => P s.func ∧ s.func.PhisListed s.work)
    ?_ _ _ ⟨hstart, hlisted⟩).1
  rintro s s' ⟨hs, hwork⟩ h
  obtain ⟨i, rest, hcons, ⟨hfunc, hrest⟩ | ⟨same, node, hnode, ht, hfunc, hrest⟩⟩ :=
    PhiFold.step_work h
  · rw [hfunc, hrest]
    exact ⟨hs, fun j hj => hwork j (hcons ▸ List.mem_cons_of_mem _ hj)⟩
  · obtain ⟨b, bb, hb, hi⟩ := hwork i (hcons ▸ List.mem_cons_self) node hnode
    have hrep := (hframed _ hs).replaced i same
    rw [hfunc]
    refine ⟨hstep _ b bb i same node hs hb hi hnode ht, hrep.phisListed ?_⟩
    intro j hj
    rcases hrest j hj with hj | hj
    · exact hwork j (hcons ▸ List.mem_cons_of_mem _ hj)
    · exact fun _ _ => mem_phiIds.1 (List.mem_filter.1 hj).1

/-- What is kept by edits that leave the meaning of operands alone. -/
structure Keeps (f g : Func) : Prop where
  framed : g.Framed
  dominated : f.DominatedWhereReached → g.DominatedWhereReached
  operands : f.OperandsKnown → g.OperandsKnown
  args : f.ArgsKnown → g.ArgsKnown
  meaning : f.DominatedWhereReached → f.SameMeaning g
  goes : ∀ b c, f.GoesTo b c → g.GoesTo b c

namespace Keeps

variable {f g h : Func}

lemma refl (hf : f.Framed) : Keeps f f := ⟨hf, id, id, id, fun _ => .refl f, fun _ _ => id⟩

lemma trans (hfg : Keeps f g) (hgh : Keeps g h) : Keeps f h where
  framed := hgh.framed
  dominated hd := hgh.dominated (hfg.dominated hd)
  operands hk := hgh.operands (hfg.operands hk)
  args hk := hgh.args (hfg.args hk)
  meaning hd := (hfg.meaning hd).trans (hgh.meaning (hfg.dominated hd))
  goes b c hgo := hgh.goes b c (hfg.goes b c hgo)

end Keeps

/-- Replacing a trivial phi by what it merges. -/
lemma keeps_of_trivial {f : Func} (hf : f.Framed) {b : BlockId} {bb : Block}
    (hb : f.block? b = some bb) {i : InstId} (hi : i ∈ bb.phis) {node : Phi}
    (hnode : f.phi? i = some node) {same : Value} (ht : node.trivial? i = some same) :
    Keeps f ((f.replaceUses i same).removeInst i) := by
  have hrep := hf.replaced i same
  have hoperand : same = .undef ∨ same ∈ f.blockOperands bb := by
    refine (Phi.trivial?_some ht).2.imp_right fun hmem => ?_
    obtain ⟨c, hc⟩ := phi?_some hnode
    exact mem_blockOperands.2 (.inl ⟨i, List.mem_append_left _ hi, _, hc, hmem⟩)
  refine ⟨hrep.framed hf, ?_, ?_, ?_, ?_, fun _ _ => hrep.goesTo⟩
  · intro hd
    exact hrep.dominated hd (standsFor_of_trivial hf hd hnode ht)
  · intro hk
    refine hrep.operandsKnown hk ?_ (Phi.trivial?_ne ht)
    rcases hoperand with rfl | hmem
    · trivial
    · exact hk b bb hb same hmem
  · intro hk
    refine hrep.argsKnown hk ?_
    rintro n rfl
    rcases hoperand with he | hmem
    · cases he
    · exact hk b bb hb n hmem
  · intro hd
    exact hrep.sameMeaning hf hd (standsFor_of_trivial hf hd hnode ht)
      (gives_of_trivial hf hd hnode ht)

/-- Folding trivial phis keeps the graph, and everything that replacing one of them keeps. -/
lemma foldTrivialPhis_keeps {f : Func} (hf : f.Framed) {candidates : List InstId}
    (hlisted : f.PhisListed candidates) (mayFold : InstId → Bool) :
    SameShape f (f.foldTrivialPhis candidates mayFold).1 ∧
      Keeps f (f.foldTrivialPhis candidates mayFold).1 := by
  refine foldTrivialPhis_induct (fun g => SameShape f g ∧ Keeps f g) (fun _ h => h.2.framed) ?_
    hlisted mayFold ⟨.refl f, .refl hf⟩
  rintro g b bb i same node ⟨hshape, hkeep⟩ hb hi hnode ht
  exact ⟨hshape.trans (hkeep.framed.replaced i same).sameShape,
    hkeep.trans (keeps_of_trivial hkeep.framed hb hi hnode ht)⟩

/-! ## Removing an edge -/

lemma Thinned.keeps {f g : Func} (h : Thinned f g) (hg : g.Framed)
    (hknows : ∀ v, f.Knows v → g.Knows v) (hargs : g.numArgs = f.numArgs)
    (hmeaning : f.SameMeaning g) (hgoes : ∀ b c, f.GoesTo b c → g.GoesTo b c) : Keeps f g := by
  refine ⟨hg, h.dominated, ?_, ?_, fun _ => hmeaning, hgoes⟩
  · intro hk b bb' hb' v hv
    obtain ⟨bb, hb, hmem⟩ := h.mem_operands hg hb' hv
    exact hknows v (hk b bb hb v hmem)
  · intro hk b bb' hb' n hn
    obtain ⟨bb, hb, hmem⟩ := h.mem_operands hg hb' hn
    rw [hargs]
    exact hk b bb hb n hmem

section RemovePred

variable {f : Func} {b pred : BlockId}

lemma unlinked_numArgs {bb : Block} : (f.unlinked b pred bb).numArgs = f.numArgs ∧
    (f.unlinked b pred bb).blockCapacity = f.blockCapacity := by
  unfold unlinked
  obtain ⟨hargs, hcap⟩ := numArgs_foldl_modifyPhi (·.dropIncoming pred) bb.phis
    (f.modifyBlock b (·.dropPred pred))
  exact ⟨hargs, hcap.trans (blockCapacity_modifyBlock ..)⟩

lemma unlinked_terminator {bb : Block} (c : BlockId) :
    (f.unlinked b pred bb).terminator? c = f.terminator? c :=
  (terminator?_eq_of_map (map_of_ite (unlinked_block c)) fun bb => by
    split <;> exact Option.map_id'.symm).trans Option.map_id'

lemma unlinked_sameMeaning {bb : Block} (hf : f.Framed) (hb : f.block? b = some bb)
    (hgone : b ∉ f.succs pred) : f.SameMeaning (f.unlinked b pred bb) := by
  refine (unlinked_thinned hf hb hgone).sameMeaning (unlinked_framed hf hb hgone) ?_ hf.ended
  intro c t t' ht ht' _ w env s seen
  rw [unlinked_terminator, ht] at ht'
  cases ht'
  rfl

lemma unlinked_keeps {bb : Block} (hf : f.Framed) (hb : f.block? b = some bb)
    (hgone : b ∉ f.succs pred) : Keeps f (f.unlinked b pred bb) := by
  refine (unlinked_thinned hf hb hgone).keeps (unlinked_framed hf hb hgone) ?_ unlinked_numArgs.1
    (unlinked_sameMeaning hf hb hgone) fun c d ⟨t, ht, hleave⟩ =>
      ⟨t, (unlinked_terminator c).trans ht, hleave⟩
  intro v hv
  cases v with
  | inst i =>
    obtain ⟨p, hp⟩ := hv
    by_cases hi : i ∈ bb.phis
    · obtain ⟨node, -, -, hnow⟩ := unlinked_phi pred hf hb hi
      exact ⟨_, hnow⟩
    · exact ⟨p, by rw [unlinked_inst hi, hp]⟩
  | arg n =>
    show n < Func.numArgs _
    rw [unlinked_numArgs.1]
    exact hv
  | const c => trivial
  | undef => trivial

/-- What removing an edge that no terminator has any more does. -/
structure PredRemoved (f g : Func) (b pred : BlockId) : Prop where
  succs : ∀ c, g.succs c = f.succs c
  preds : ∀ c, g.preds c = if b = c then (f.preds c).filter (· ≠ pred) else f.preds c
  blocks : ∀ c, g.hasBlock c = f.hasBlock c
  capacity : g.blockCapacity = f.blockCapacity
  numArgs : g.numArgs = f.numArgs
  keeps : Keeps f g

lemma removePred_removed (hf : f.Framed) (hgone : b ∉ f.succs pred) :
    PredRemoved f (f.removePred b pred).1 b pred := by
  cases hb : f.block? b with
  | none =>
    rw [removePred_deleted hb]
    refine ⟨fun _ => rfl, ?_, fun _ => rfl, rfl, rfl, .refl hf⟩
    intro c
    split
    · rename_i hc
      subst hc
      rw [preds_of_missing hb]
      rfl
    · rfl
  | some bb =>
    rw [removePred_eq hb]
    have hkeep := unlinked_keeps hf hb hgone
    have hlisted : (f.unlinked b pred bb).PhisListed bb.phis := by
      refine @phisListed_phis _ b (bb.dropPred pred) ?_
      rw [unlinked_block, if_pos rfl, hb]
      rfl
    obtain ⟨hshape, hfold⟩ := foldTrivialPhis_keeps hkeep.framed hlisted fun _ => true
    refine ⟨?_, ?_, ?_, ?_, ?_, hkeep.trans hfold⟩
    · intro c
      rw [hshape.succs, unlinked_succs]
    · intro c
      rw [hshape.preds, unlinked_preds]
    · intro c
      rw [hshape.blocks, unlinked_hasBlock]
    · rw [hshape.capacity, unlinked_numArgs.2]
    · rw [hshape.numArgs, unlinked_numArgs.1]

end RemovePred

/-! ## Removing a block -/

/-- What removing a block does. -/
structure BlockRemoved (f g : Func) (b : BlockId) : Prop where
  succs : ∀ c, g.succs c = if b = c then [] else f.succs c
  preds : ∀ p s, p ∈ g.preds s → p ∈ f.preds s ∧ (p = b → s ∉ f.succs b)
  blocks : ∀ c, g.hasBlock c = (f.hasBlock c && decide (b ≠ c))
  capacity : g.blockCapacity = f.blockCapacity
  numArgs : g.numArgs = f.numArgs
  framed : g.Framed
  dominated : f.DominatedWhereReached → g.DominatedWhereReached
  args : f.ArgsKnown → g.ArgsKnown
  meaning : f.DominatedWhereReached → f.SameMeaning g

/-- The successors of a block that is gone lose it as a predecessor, one after the other. -/
lemma foldl_removePred {f : Func} {b : BlockId} (hgone : f.succs b = []) (l : List BlockId)
    (rs : List Replacement) (hf : f.Framed) :
    let g := (l.foldl (fun acc s => let r := acc.1.removePred s b; (r.1, acc.2 ++ r.2)) (f, rs)).1
    (∀ c, g.succs c = f.succs c) ∧
      (∀ p s, p ∈ g.preds s → p ∈ f.preds s ∧ (p = b → s ∉ l)) ∧
      (∀ c, g.hasBlock c = f.hasBlock c) ∧ g.blockCapacity = f.blockCapacity ∧
      g.numArgs = f.numArgs ∧ Keeps f g := by
  induction l generalizing f rs with
  | nil => exact ⟨fun _ => rfl, fun p s hp => ⟨hp, by simp⟩, fun _ => rfl, rfl, rfl, .refl hf⟩
  | cons s rest ih =>
    have hnot : s ∉ f.succs b := by simp [hgone]
    have hone := removePred_removed hf hnot
    obtain ⟨hsuccs, hpreds, hblocks, hcap, hargs, hkeep⟩ :=
      ih (f := (f.removePred s b).1) (by rw [hone.succs, hgone]) (rs ++ (f.removePred s b).2)
        hone.keeps.framed
    refine ⟨fun c => (hsuccs c).trans (hone.succs c), ?_,
      fun c => (hblocks c).trans (hone.blocks c),
      hcap.trans hone.capacity, hargs.trans hone.numArgs, hone.keeps.trans hkeep⟩
    intro p c hp
    obtain ⟨hmem, hrest⟩ := hpreds p c hp
    rw [hone.preds] at hmem
    split at hmem
    · rename_i hsc
      obtain ⟨hmem, hpb⟩ := List.mem_filter.1 hmem
      exact ⟨hmem, fun he => absurd he (by simpa using hpb)⟩
    · rename_i hsc
      refine ⟨hmem, fun he hc => ?_⟩
      rcases List.mem_cons.1 hc with hc | hc
      · exact hsc hc.symm
      · exact hrest he hc

lemma clearBlock_sameMeaning {f : Func} (hf : f.Framed) {b : BlockId} {bb : Block}
    (hb : f.block? b = some bb) (hdead : ¬ f.Reached b) : f.SameMeaning (f.clearBlock b bb) := by
  have hne : b ≠ f.entry := by
    rintro rfl
    exact hdead Reaches.init
  refine (clearBlock_thinned hf hb hdead).sameMeaning (clearBlock_framed hf hb hne) ?_ hf.ended
  intro c t t' ht ht' _ w env s seen
  obtain ⟨cc, hc, ht'⟩ := Option.bind_eq_some_iff.1 ht'
  rw [terminator?_of_block (clearBlock_block_inv hc).2, ht'] at ht
  cases ht
  rfl

/-- A block other than the entry that the entry does not reach can be removed. -/
lemma removeBlock_removed {f : Func} (hf : f.Framed) {b : BlockId} {bb : Block}
    (hb : f.block? b = some bb) (hdead : ¬ f.Reached b) :
    ∃ g rs, f.removeBlock b = .ok (g, rs) ∧ BlockRemoved f g b := by
  have hne : b ≠ f.entry := by
    rintro rfl
    exact hdead Reaches.init
  have hcframed := clearBlock_framed hf hb hne
  have hcgone : (f.clearBlock b bb).succs b = [] := by rw [clearBlock_succs, if_pos rfl]
  obtain ⟨⟨g, rs⟩, hr, hrun⟩ : ∃ r, r = bb.successors.foldl
      (fun acc s => let r := acc.1.removePred s b; (r.1, acc.2 ++ r.2)) (f.clearBlock b bb, []) ∧
      f.removeBlock b = .ok r := by
    refine ⟨_, rfl, ?_⟩
    unfold removeBlock getBlock
    rw [hb, if_neg hne]
    rfl
  -- first the block is cleared, then its successors forget it
  obtain ⟨hsuccs, hpreds, hblocks, hcap, hargs, hkeep⟩ :=
    foldl_removePred hcgone bb.successors [] hcframed
  rw [← hr] at hsuccs hpreds hblocks hcap hargs hkeep
  have hthin := clearBlock_thinned hf hb hdead
  refine ⟨g, rs, hrun, ?_, ?_, ?_, hcap.trans clearBlock_numArgs.2,
    hargs.trans clearBlock_numArgs.1, hkeep.framed,
    fun hd => hkeep.dominated (hthin.dominated hd), fun hk => hkeep.args ?_,
    fun hd => (clearBlock_sameMeaning hf hb hdead).trans (hkeep.meaning (hthin.dominated hd))⟩
  · intro c
    rw [hsuccs, clearBlock_succs]
  · intro p s hp
    obtain ⟨hmem, hout⟩ := hpreds p s hp
    rw [clearBlock_preds] at hmem
    split at hmem
    · cases hmem
    · refine ⟨hmem, fun he => ?_⟩
      rw [succs_of_block hb]
      exact hout he
  · intro c
    rw [hblocks, clearBlock_hasBlock]
  · intro c cc hc n hn
    obtain ⟨cc₀, hc₀, hmem⟩ := hthin.mem_operands hcframed hc hn
    rw [clearBlock_numArgs.1]
    exact hk c cc₀ hc₀ n hmem

/-- Removing a block that the entry does not reach changes nothing about what it reaches. -/
lemma BlockRemoved.reached {f g : Func} {b : BlockId} (h : BlockRemoved f g b)
    (hdead : ¬ f.Reached b) (c : BlockId) : g.Reached c ↔ f.Reached c := by
  constructor
  · intro hc
    refine Reaches.induct (P := f.cfg.Reached) Reaches.init ?_ hc
    intro m n _ hm hedge
    refine hm.step (edge_iff (b := ⟨m⟩) (s := ⟨n⟩).2 ?_)
    have := edge_iff (b := ⟨m⟩) (s := ⟨n⟩).1 hedge
    rw [h.succs] at this
    split at this
    · cases this
    · exact this
  · intro hc
    refine Reaches.induct (P := g.cfg.Reached) Reaches.init ?_ hc
    intro m n hreach hm hedge
    refine hm.step (edge_iff (b := ⟨m⟩) (s := ⟨n⟩).2 ?_)
    have hmb : b ≠ ⟨m⟩ := by
      rintro rfl
      exact hdead hreach
    rw [h.succs, if_neg hmb]
    exact edge_iff (b := ⟨m⟩) (s := ⟨n⟩).1 hedge

end Func

end SsaBackend
