import SsaBackend.Proofs.Func.PhisSettled
import SsaBackend.Proofs.Pass.Arena
import SsaBackend.Proofs.Tables

/-!
# Taking a predecessor away

A block loses a predecessor in two steps. The predecessor goes from its list and from its phis,
which is seen in every instruction at once (`Arena.unlinked_inst?`). Then its phis are folded, and
after them phis of any block that they flow into. Values that are put in may be replaced themselves a
moment later, so it is the ends of such chains that count: what every instruction and every block are
in the end is one equation each (`Arena.removePred_inst?`, `Arena.removePred_block?`).

## Main statements

* `removePred_consistent`: where the tables agree, taking a predecessor away takes it from one list
  of predecessors and from the phis of one block, leaves no phi of that block trivial and no phi
  incomplete that was complete, and changes nothing else but operands that named a phi which is gone.
-/

namespace SsaBackend

/-- The instruction without what flowed in from a block, if it is a phi. -/
def Inst.dropIncoming (p : BlockId) : Inst → Inst
  | phi node => phi (node.dropIncoming p)
  | inst => inst

namespace Func

open Replacement

/-- Every phi has one operand for each predecessor of its block. -/
def PhisComplete (f : Func) : Prop :=
  ∀ i b node, f.inst? i = some ⟨.phi node, b⟩ → node.blocks.Perm (f.preds b)

/-- What is left of `f` when the block `b` has lost the predecessor `p`, and the replacements that
were made on the way. -/
structure LosesPred (f : Func) (b p : BlockId) (g : Func) (rs : List Replacement) : Prop where
  /-- The predecessor is taken from one list, and the other lists are as they were. -/
  preds : ∀ c, g.preds c = if c = b then (f.preds c).filter (· ≠ p) else f.preds c
  /-- The same blocks are there, and lead where they led. -/
  blocks : ∀ c, g.hasBlock c = f.hasBlock c
  succs : ∀ c, g.succs c = f.succs c
  ends : ∀ c, g.terminator? c = (f.terminator? c).map (·.mapOperands (resolve rs))
  /-- Blocks list the instructions they listed, in the same order, and of their phis those that were
  not replaced. -/
  lists : ∀ c cc, f.block? c = some cc → ∃ cc', g.block? c = some cc' ∧ cc'.body = cc.body ∧
    cc'.phis = cc.phis.filter fun i => ∀ r ∈ rs, r.phi ≠ i
  /-- Instructions that are no phis are what they were, apart from operands. -/
  others : ∀ i c inst, inst.isPhi = false → f.inst? i = some ⟨inst, c⟩ →
    g.inst? i = some ⟨inst.mapOperands (resolve rs), c⟩
  /-- Replaced are the phis that are gone. -/
  replaced : ∀ i, (∃ r ∈ rs, r.phi = i) ↔ (∃ node, f.phi? i = some node) ∧ g.inst? i = none
  /-- No instruction comes. -/
  fresh : ∀ i, f.inst? i = none → g.inst? i = none
  /-- The phis of the block that are left have the operands they had, apart from what flowed in from
  the predecessor, and are not trivial. -/
  own : ∀ i node', g.inst? i = some ⟨.phi node', b⟩ → ∃ node, f.inst? i = some ⟨.phi node, b⟩ ∧
    node'.blocks = node.blocks.filter (· ≠ p) ∧
    node' = (node.dropIncoming p).mapValues (resolve rs) ∧ node'.trivial? i = none
  /-- Phis elsewhere lose no operand. -/
  elsewhere : ∀ i c node', c ≠ b → g.inst? i = some ⟨.phi node', c⟩ →
    ∃ node, f.inst? i = some ⟨.phi node, c⟩ ∧ node' = node.mapValues (resolve rs)
  /-- Phis that were complete are complete. -/
  complete : f.PhisComplete → g.PhisComplete
  /-- A phi that was replaced is named no more. -/
  unused : ∀ r ∈ rs, (∀ i q, g.inst? i = some q → Value.inst r.phi ∉ q.inst.operands) ∧
    ∀ c t, g.terminator? c = some t → Value.inst r.phi ∉ t.operands
  /-- Where there is nothing to take away and nothing to fold, nothing is done. -/
  untouched : p ∉ f.preds b → (∀ i node, f.inst? i = some ⟨.phi node, b⟩ →
    p ∉ node.blocks ∧ node.trivial? i = none) → g = f ∧ rs = []
  /-- A block that was deleted is passed over. -/
  deleted : f.hasBlock b = false → g = f ∧ rs = []

variable {f g : Func} {b c p : BlockId} {bb cc : Block} {i : InstId} {rs : List Replacement}

/-! ## The predecessor goes -/

lemma Arena.unlinked_inst? (hf : f.Arena) (hb : f.block? b = some bb) (p : BlockId) (i : InstId) :
    (f.unlinked b p bb).inst? i = (f.inst? i).map fun q =>
      { q with inst := if q.block = b then q.inst.dropIncoming p else q.inst } := by
  by_cases hi : i ∈ bb.phis
  · obtain ⟨node, hnode⟩ := (hf.mem_phis hb).1 hi
    have hidem := Phi.dropIncoming_idem (p := p) (hf.operandsOnce i node (phi?_of_inst hnode))
    have hnow : (f.unlinked b p bb).inst? i = some ⟨.phi (node.dropIncoming p), b⟩ :=
      inst?_foldl_modifyPhi_of_mem (g := (·.dropIncoming p))
        (f := f.modifyBlock b (·.dropPred p)) hi hnode hidem
    rw [hnow, hnode, Option.map_some, if_pos rfl]
    rfl
  · rw [unlinked_inst hi]
    cases hq : f.inst? i with
    | none => rfl
    | some q =>
      obtain ⟨inst, c⟩ := q
      rw [Option.map_some]
      split
      · rename_i hc
        obtain rfl : c = b := hc
        cases inst with
        | phi node => exact absurd ((hf.mem_phis hb).2 ⟨node, hq⟩) hi
        | _ => rfl
      · rfl

/-- Where there is nothing to drop, nothing is dropped. -/
lemma unlinked_eq_self (hb : f.block? b = some bb) (hp : p ∉ bb.preds)
    (hphis : ∀ i ∈ bb.phis, ∀ node, f.phi? i = some node → p ∉ node.blocks) :
    f.unlinked b p bb = f := by
  have hblocks : f.modifyBlock b (·.dropPred p) = f := by
    unfold modifyBlock
    refine congrArg (fun l => { f with blocks := l }) (modify_eq_self fun x hx => ?_)
    cases x with
    | none => rfl
    | some bb' =>
      have hbb' : f.block? b = some bb' := by
        unfold block?
        rw [hx]
        rfl
      rw [hb] at hbb'
      cases hbb'
      have hkeep : bb.preds.filter (· ≠ p) = bb.preds :=
        List.filter_eq_self.2 fun q hq => decide_eq_true fun he => hp (he ▸ hq)
      exact congrArg (fun l => some { bb with preds := l }) hkeep
  have hphi : ∀ i ∈ bb.phis, f.modifyPhi i (·.dropIncoming p) = f := by
    intro i hi
    unfold modifyPhi modifyInst
    refine congrArg (fun l => { f with insts := l }) (modify_eq_self fun x hx => ?_)
    cases x with
    | none => rfl
    | some q =>
      have hq : f.inst? i = some q := by
        unfold inst?
        rw [hx]
        rfl
      obtain ⟨inst, c⟩ := q
      cases inst with
      | phi node =>
        have hdrop := Phi.dropIncoming_of_not_mem (hphis i hi node (phi?_of_inst hq))
        simp only [Option.map_some, hdrop]
      | _ => rfl
  unfold unlinked
  rw [hblocks]
  -- every phi of the list leaves the function as it is
  suffices h : ∀ l : List InstId, l ⊆ bb.phis →
      l.foldl (fun g i => g.modifyPhi i (·.dropIncoming p)) f = f from h bb.phis fun _ hi => hi
  intro l
  induction l with
  | nil => exact fun _ => rfl
  | cons i rest ih =>
    intro hl
    obtain ⟨hi, hrest⟩ := List.cons_subset.1 hl
    rw [List.foldl_cons, hphi i hi, ih hrest]

/-! ## Both steps -/

lemma removePred_folded (hb : f.block? b = some bb) (hrun : f.removePred b p = (g, rs)) :
    Folded (f.unlinked b p bb) g rs := by
  rw [removePred_eq hb] at hrun
  have hfolded := (foldTrivialPhis_folded (f.unlinked b p bb) bb.phis fun _ => true).1
  rwa [hrun] at hfolded

/-- What every instruction is in the end. -/
lemma Arena.removePred_inst? (hf : f.Arena) (hrun : f.removePred b p = (g, rs)) (i : InstId) :
    g.inst? i = if ∃ r ∈ rs, r.phi = i then none else (f.inst? i).map fun q =>
      { q with
        inst := (if q.block = b then q.inst.dropIncoming p else q.inst).mapOperands (resolve rs) } := by
  cases hb : f.block? b with
  | none =>
    rw [removePred_deleted hb] at hrun
    cases hrun
    rw [if_neg (by simp)]
    cases hq : f.inst? i with
    | none => rfl
    | some q =>
      -- no instruction stands in a block that is not there
      have hne : q.block ≠ b := by
        intro he
        have hhas := hf.owned i q.block q.inst.isPhi (standing_of_inst hq)
        unfold hasBlock at hhas
        rw [he, hb] at hhas
        cases hhas
      rw [Option.map_some, if_neg hne, resolve_nil, Inst.mapOperands_id]
  | some bb =>
    have harena := (hf.descends.unlinked b p bb).arena
    rw [(removePred_folded hb hrun).inst?_eq harena.listsPlaced, hf.unlinked_inst? hb,
      Option.map_map]
    rfl

/-- The replaced instructions are phis. -/
lemma Arena.phi?_of_replaced (hf : f.Arena) (hrun : f.removePred b p = (g, rs)) {r : Replacement}
    (hr : r ∈ rs) : ∃ node, f.phi? r.phi = some node := by
  cases hb : f.block? b with
  | none =>
    rw [removePred_deleted hb] at hrun
    cases hrun
    cases hr
  | some bb =>
    have harena := (hf.descends.unlinked b p bb).arena
    obtain ⟨node, hnode, -⟩ :=
      (removePred_folded hb hrun).resolve_value harena.listsPlaced r hr
    obtain ⟨c, hinst⟩ := phi?_some hnode
    rw [hf.unlinked_inst? hb] at hinst
    obtain ⟨⟨inst, c'⟩, hq, he⟩ := Option.map_eq_some_iff.1 hinst
    cases inst with
    | phi old => exact ⟨old, phi?_of_inst hq⟩
    | _ =>
      simp only [Inst.dropIncoming, ite_self] at he
      cases he

/-- What every block is in the end. -/
lemma Arena.removePred_block? (hf : f.Arena) (hrun : f.removePred b p = (g, rs)) (c : BlockId) :
    g.block? c = (f.block? c).map fun cc => { cc with
      phis := cc.phis.filter fun i => ∀ r ∈ rs, r.phi ≠ i
      preds := if c = b then cc.preds.filter (· ≠ p) else cc.preds
      terminator := cc.terminator.map (·.mapOperands (resolve rs)) } := by
  cases hb : f.block? b with
  | none =>
    rw [removePred_deleted hb] at hrun
    cases hrun
    cases hc : f.block? c with
    | none => rfl
    | some cc =>
      have hne : c ≠ b := by
        rintro rfl
        rw [hb] at hc
        cases hc
      have hend : cc.terminator.map (·.mapOperands (resolve [])) = cc.terminator := by
        cases cc.terminator with
        | none => rfl
        | some t => rw [Option.map_some, resolve_nil, Terminator.mapOperands_id]
      simp [hend, if_neg hne]
  | some bb =>
    have harena := (hf.descends.unlinked b p bb).arena
    rw [(removePred_folded hb hrun).block?_eq harena.listsPlaced, unlinked_block]
    cases hc : f.block? c with
    | none =>
      split <;> rfl
    | some cc =>
      have hbody : (cc.body.filter fun i => ∀ r ∈ rs, r.phi ≠ i) = cc.body := by
        refine List.filter_eq_self.2 fun i hi => decide_eq_true fun r hr he => ?_
        obtain ⟨node, hnode⟩ := hf.phi?_of_replaced hrun hr
        exact hf.not_mem_body hc (he ▸ hnode) hi
      by_cases he : b = c
      · simp only [he, ↓reduceIte, Option.map_some, Block.dropPred, hbody]
      · simp only [if_neg he, if_neg (Ne.symm he), Option.map_some, hbody]

/-! ## What is left -/

/-- The phis that are left are those there were, and only those of the block lost an operand. -/
lemma Arena.removePred_phi (hf : f.Arena) (hrun : f.removePred b p = (g, rs)) {node' : Phi}
    (hi : g.inst? i = some ⟨.phi node', c⟩) : ∃ node, f.inst? i = some ⟨.phi node, c⟩ ∧
      node' = (if c = b then node.dropIncoming p else node).mapValues (resolve rs) := by
  rw [hf.removePred_inst? hrun] at hi
  split at hi
  · cases hi
  · obtain ⟨⟨inst, c'⟩, hq, he⟩ := Option.map_eq_some_iff.1 hi
    obtain ⟨hinst, rfl⟩ := PlacedInst.mk.inj he
    cases inst with
    | phi node =>
      refine ⟨node, hq, ?_⟩
      split
      · rename_i hc
        rw [if_pos hc] at hinst
        exact (Inst.phi.inj hinst).symm
      · rename_i hc
        rw [if_neg hc] at hinst
        exact (Inst.phi.inj hinst).symm
    | _ =>
      simp only [Inst.dropIncoming, ite_self] at hinst
      cases hinst

lemma Arena.removePred_preds (hf : f.Arena) (hrun : f.removePred b p = (g, rs)) (c : BlockId) :
    g.preds c = if c = b then (f.preds c).filter (· ≠ p) else f.preds c := by
  unfold preds
  rw [hf.removePred_block? hrun]
  cases f.block? c with
  | none => exact (ite_self _).symm
  | some cc => rfl

/-- What is left of the phis of the block is looked at, so it is not trivial. -/
lemma Arena.removePred_not_trivial (hf : f.Arena) (hrun : f.removePred b p = (g, rs)) {node' : Phi}
    (hi : g.inst? i = some ⟨.phi node', b⟩) : node'.trivial? i = none := by
  obtain ⟨node, hnode, -⟩ := hf.removePred_phi hrun hi
  obtain ⟨bb, hb⟩ := Option.isSome_iff_exists.1
    (hf.owned i b true (standing_of_inst hnode))
  have harena := (hf.descends.unlinked b p bb).arena
  have hnow : ((f.unlinked b p bb).foldTrivialPhis bb.phis fun _ => true).1.phi? i = some node' := by
    rw [← removePred_eq hb, hrun]
    exact phi?_of_inst hi
  exact harena.not_trivial_of_folded hnow rfl (.inl ((hf.mem_phis hb).2 ⟨node, hnode⟩))

lemma Arena.removePred_complete (hf : f.Arena) (hrun : f.removePred b p = (g, rs))
    (hcomplete : f.PhisComplete) : g.PhisComplete := by
  intro i c node' hi
  obtain ⟨node, hnode, rfl⟩ := hf.removePred_phi hrun hi
  have hperm := hcomplete i c node hnode
  rw [Phi.blocks_mapValues, hf.removePred_preds hrun]
  split
  · rw [Phi.blocks_dropIncoming_of_nodup (hf.operandsOnce i node (phi?_of_inst hnode))]
    exact hperm.filter _
  · exact hperm

lemma Arena.removePred_untouched (hf : f.Arena) (hrun : f.removePred b p = (g, rs))
    (hp : p ∉ f.preds b) (hphis : ∀ i node, f.inst? i = some ⟨.phi node, b⟩ →
      p ∉ node.blocks ∧ node.trivial? i = none) : g = f ∧ rs = [] := by
  suffices h : f.removePred b p = (f, []) from Prod.mk.inj (hrun.symm.trans h)
  cases hb : f.block? b with
  | none => exact removePred_deleted hb
  | some bb =>
    have hown : ∀ i ∈ bb.phis, ∀ node, f.phi? i = some node →
        p ∉ node.blocks ∧ node.trivial? i = none := by
      intro i hi node hnode
      obtain ⟨node₀, hnode₀⟩ := (hf.mem_phis hb).1 hi
      rw [phi?_of_inst hnode₀] at hnode
      cases hnode
      exact hphis i node hnode₀
    have hpreds : p ∉ bb.preds := by rwa [preds_of_block hb] at hp
    rw [removePred_eq hb, unlinked_eq_self hb hpreds fun i hi node hnode => (hown i hi node hnode).1]
    exact foldTrivialPhis_of_settled fun i hi _ node hnode => (hown i hi node hnode).2

lemma Arena.removePred_terminator? (hf : f.Arena) (hrun : f.removePred b p = (g, rs))
    (c : BlockId) : g.terminator? c = (f.terminator? c).map (·.mapOperands (resolve rs)) :=
  terminator?_eq_of_map (hf.removePred_block? hrun c) fun _ => rfl

/-- Instructions that are no phis are neither replaced nor do they drop anything. -/
lemma Arena.removePred_others (hf : f.Arena) (hrun : f.removePred b p = (g, rs)) {inst : Inst}
    (hplain : inst.isPhi = false) (hi : f.inst? i = some ⟨inst, c⟩) :
    g.inst? i = some ⟨inst.mapOperands (resolve rs), c⟩ := by
  have hnot : ¬ ∃ r ∈ rs, r.phi = i := by
    rintro ⟨r, hr, rfl⟩
    obtain ⟨node, hnode⟩ := hf.phi?_of_replaced hrun hr
    rw [phi?_of_inst? hi] at hnode
    rw [Inst.isPhi, hnode] at hplain
    cases hplain
  rw [hf.removePred_inst? hrun, if_neg hnot, hi, Option.map_some]
  cases inst with
  | phi node => cases hplain
  | _ => simp only [Inst.dropIncoming, ite_self]

lemma Arena.removePred_replaced_iff (hf : f.Arena) (hrun : f.removePred b p = (g, rs))
    (i : InstId) :
    (∃ r ∈ rs, r.phi = i) ↔ (∃ node, f.phi? i = some node) ∧ g.inst? i = none := by
  have hinst := hf.removePred_inst? hrun i
  constructor
  · intro hr
    refine ⟨?_, by rw [hinst, if_pos hr]⟩
    obtain ⟨r, hr, rfl⟩ := hr
    exact hf.phi?_of_replaced hrun hr
  · rintro ⟨⟨node, hnode⟩, hgone⟩
    by_contra hnot
    obtain ⟨c, hi⟩ := phi?_some hnode
    rw [hinst, if_neg hnot, hi] at hgone
    cases hgone

/-- No operand names a phi that was replaced. -/
lemma Arena.removePred_unused (hf : f.Arena) (hrun : f.removePred b p = (g, rs)) {r : Replacement}
    (hr : r ∈ rs) : (∀ i q, g.inst? i = some q → Value.inst r.phi ∉ q.inst.operands) ∧
      ∀ c t, g.terminator? c = some t → Value.inst r.phi ∉ t.operands := by
  cases hb : f.block? b with
  | none =>
    rw [removePred_deleted hb] at hrun
    cases hrun
    cases hr
  | some bb =>
    have harena := (hf.descends.unlinked b p bb).arena
    exact (removePred_folded hb hrun).unused harena.listsPlaced hr

/-- Taking a predecessor away keeps the phis consistent with it, and leaves all else alone. -/
theorem removePred_consistent (hf : f.Arena) (b p : BlockId) :
    LosesPred f b p (f.removePred b p).1 (f.removePred b p).2 := by
  rcases hrun : f.removePred b p with ⟨g, rs⟩
  have hunlinks := removePred_unlinks f b p
  rw [hrun] at hunlinks
  refine ⟨hf.removePred_preds hrun, hunlinks.blocks, hunlinks.succs,
    hf.removePred_terminator? hrun, ?_, fun i c inst => hf.removePred_others hrun,
    hf.removePred_replaced_iff hrun, ?_, ?_, ?_, hf.removePred_complete hrun,
    fun r => hf.removePred_unused hrun, hf.removePred_untouched hrun, ?_⟩
  · intro c cc hc
    rw [hf.removePred_block? hrun, hc]
    exact ⟨_, rfl, rfl, rfl⟩
  · intro i hi
    rw [hf.removePred_inst? hrun, hi, Option.map_none, ite_self]
  · intro i node' hi
    obtain ⟨node, hnode, rfl⟩ := hf.removePred_phi hrun hi
    rw [if_pos rfl] at hi ⊢
    refine ⟨node, hnode, ?_, rfl, hf.removePred_not_trivial hrun hi⟩
    rw [Phi.blocks_mapValues]
    exact Phi.blocks_dropIncoming_of_nodup (hf.operandsOnce i node (phi?_of_inst hnode))
  · intro i c node' hc hi
    obtain ⟨node, hnode, rfl⟩ := hf.removePred_phi hrun hi
    rw [if_neg hc]
    exact ⟨node, hnode, rfl⟩
  · intro hgone
    have hb : f.block? b = none := by
      unfold hasBlock at hgone
      simpa using hgone
    exact Prod.mk.inj (hrun.symm.trans (removePred_deleted hb))

/-- Block 1 is a predecessor of itself and has two phis that pass each other on, one of which flows
into a phi of block 2. -/
def knot : Func := Edit.applyAll (.new "knot" 1)
  [.addBlock, .addBlock, .addBlock,
    .appendPhi ⟨1⟩ [⟨⟨0⟩, .int 5⟩, ⟨⟨1⟩, .inst ⟨1⟩⟩, ⟨⟨2⟩, .inst ⟨1⟩⟩],
    .appendPhi ⟨1⟩ [⟨⟨0⟩, .int 6⟩, ⟨⟨1⟩, .inst ⟨0⟩⟩, ⟨⟨2⟩, .inst ⟨0⟩⟩],
    .appendPhi ⟨1⟩ [⟨⟨0⟩, .int 0⟩, ⟨⟨1⟩, .int 1⟩, ⟨⟨2⟩, .int 2⟩],
    .appendInst ⟨1⟩ (.binary .add (.inst ⟨0⟩) (.inst ⟨2⟩)) rfl,
    .appendPhi ⟨2⟩ [⟨⟨1⟩, .inst ⟨0⟩⟩],
    .setTerminator ⟨0⟩ (.jump ⟨1⟩),
    .setTerminator ⟨1⟩ (.branch (.arg 0) ⟨1⟩ ⟨2⟩),
    .setTerminator ⟨2⟩ (.branch (.inst ⟨3⟩) ⟨1⟩ ⟨3⟩),
    .setTerminator ⟨3⟩ (.ret (some (.inst ⟨4⟩)))]

lemma knot_arena : knot.Arena := (Edit.descends_applyAll (arena_new "knot" 1).descends _).arena

/-- Without what came from the entry, the phis that pass each other on amount to nothing, and so does
the phi they flow into. -/
theorem knot_without_entry :
    knot.Arena ∧
      LosesPred knot ⟨1⟩ ⟨0⟩ (knot.removePred ⟨1⟩ ⟨0⟩).1 (knot.removePred ⟨1⟩ ⟨0⟩).2 ∧
      (knot.removePred ⟨1⟩ ⟨0⟩).2 = [⟨⟨0⟩, .inst ⟨1⟩⟩, ⟨⟨1⟩, .undef⟩, ⟨⟨4⟩, .undef⟩] ∧
      (knot.removePred ⟨1⟩ ⟨0⟩).1.phi? ⟨2⟩ = some ⟨[⟨⟨1⟩, .int 1⟩, ⟨⟨2⟩, .int 2⟩]⟩ :=
  ⟨knot_arena, removePred_consistent knot_arena ⟨1⟩ ⟨0⟩, by decide +kernel, by decide +kernel⟩

end Func

end SsaBackend
