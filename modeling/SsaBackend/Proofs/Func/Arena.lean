import SsaBackend.Proofs.Func.Edges
import SsaBackend.Proofs.Func.FoldedPhis
import SsaBackend.Proofs.Func.Thinned

/-!
# Two tables that agree

The tables of a function say twice where an instruction stands: the instruction names its block,
and the block lists it. In every function that was made by edits the two agree (`Func.Arena`), and
what an edit deleted stays deleted (`Func.Descends`). There is a lemma for each of the steps of which
edits consist; most of them leave alone where instructions stand, and those are one lemma
(`Descends.same`).
-/

namespace SsaBackend

/-- The list of a block in which phis stand, or that of its other instructions. -/
def Block.part (bb : Block) (phi : Bool) : List InstId := if phi then bb.phis else bb.body

namespace Func

variable {f₀ f g : Func} {b : BlockId} {i : InstId}

/-- The block of an instruction and the part of it where it belongs. -/
def standing (f : Func) (i : InstId) : Option (BlockId × Bool) :=
  (f.inst? i).map fun p => (p.block, p.inst.isPhi)

/-- The handle was given out, and its block deleted. -/
def BlockGone (f : Func) (b : BlockId) : Prop := b.index < f.blockCapacity ∧ f.block? b = none

/-- The tables agree: instructions are listed once, where they belong and nowhere else, in blocks
that are there; nothing else is listed; predecessors, and operands of phis by block, are listed
once. -/
structure Arena (f : Func) : Prop where
  entry : f.hasBlock f.entry = true
  /-- The block of an instruction is there. -/
  owned : ∀ i b phi, f.standing i = some (b, phi) → f.hasBlock b = true
  /-- A part lists the instructions that belong there, and nothing else. -/
  listed : ∀ b bb, f.block? b = some bb → ∀ phi i, i ∈ bb.part phi ↔ f.standing i = some (b, phi)
  listedOnce : ∀ b bb, f.block? b = some bb → ∀ phi, (bb.part phi).Nodup
  predsOnce : ∀ b bb, f.block? b = some bb → bb.preds.Nodup
  operandsOnce : ∀ i node, f.phi? i = some node → node.blocks.Nodup

/-- A function with tables that agree, in which all is gone that was gone in an earlier one. -/
structure Descends (f₀ f : Func) : Prop where
  arena : f.Arena
  blocks : ∀ b, f₀.BlockGone b → f.BlockGone b
  insts : ∀ i, f₀.Gone i → f.Gone i

lemma Arena.descends (h : f.Arena) : Descends f f := ⟨h, fun _ hb => hb, fun _ hi => hi⟩

lemma arena_new (name : String) (numArgs : Nat) : (Func.new name numArgs).Arena where
  entry := rfl
  owned _ _ _ h := nomatch h
  listed b bb hb phi i := by
    rw [block?_new hb]
    refine iff_of_false ?_ (fun h => nomatch h)
    cases phi <;> exact List.not_mem_nil
  listedOnce b bb hb phi := by
    rw [block?_new hb]
    cases phi <;> exact List.nodup_nil
  predsOnce b bb hb := block?_new hb ▸ List.nodup_nil
  operandsOnce _ _ h := nomatch h

/-! ## Parts and standings -/

lemma part_append (bb : Block) (i : InstId) (phi q : Bool) :
    (bb.append i phi).part q = if q = phi then bb.part q ++ [i] else bb.part q := by
  cases phi <;> cases q <;> rfl

lemma part_unlist (bb : Block) (i : InstId) (q : Bool) :
    (bb.unlist i).part q = (bb.part q).filter (· ≠ i) := by
  cases q <;> rfl

lemma mem_insts_iff_part {bb : Block} : i ∈ bb.insts ↔ ∃ phi, i ∈ bb.part phi := by
  unfold Block.insts Block.part
  simp [List.mem_append, or_comm]

lemma standing_of_inst {p : PlacedInst} (h : f.inst? i = some p) :
    f.standing i = some (p.block, p.inst.isPhi) := by
  unfold standing
  rw [h]
  rfl

lemma standing_eq_none : f.standing i = none ↔ f.inst? i = none := Option.map_eq_none_iff

/-! ## What blocks list -/

/-- The phis that a block lists are the phis that know it. -/
lemma Arena.mem_phis (hf : f.Arena) {bb : Block} (hb : f.block? b = some bb) :
    i ∈ bb.phis ↔ ∃ node, f.inst? i = some ⟨.phi node, b⟩ := by
  refine (hf.listed b bb hb true i).trans ⟨fun h => ?_, ?_⟩
  · obtain ⟨⟨inst, c⟩, hi, hs⟩ := Option.map_eq_some_iff.1 h
    obtain ⟨rfl, hphi⟩ := Prod.mk.inj hs
    cases inst with
    | phi node => exact ⟨node, hi⟩
    | _ => cases hphi
  · rintro ⟨node, hi⟩
    unfold standing
    rw [hi]
    rfl

lemma Arena.listsPlaced (hf : f.Arena) : f.ListsPlaced := by
  rintro b i ⟨bb, hb, hi⟩
  obtain ⟨phi, hi⟩ := mem_insts_iff_part.1 hi
  obtain ⟨q, hq, hs⟩ := Option.map_eq_some_iff.1 ((hf.listed b bb hb phi i).1 hi)
  exact ⟨q, hq, (Prod.mk.inj hs).1⟩

/-- Blocks list phis apart from other instructions. -/
lemma Arena.not_mem_body (hf : f.Arena) {bb : Block} (hb : f.block? b = some bb) {node : Phi}
    (hi : f.phi? i = some node) : i ∉ bb.body := by
  intro hmem
  obtain ⟨q, hq, hs⟩ := Option.map_eq_some_iff.1 ((hf.listed b bb hb false i).1 hmem)
  obtain ⟨-, hphi⟩ := Prod.mk.inj hs
  rw [phi?_of_inst? hq] at hi
  rw [Inst.isPhi, hi] at hphi
  cases hphi

/-- A phi that is there is listed by its block. -/
lemma Arena.mem_phiIds (hf : f.Arena) {node : Phi} (hi : f.phi? i = some node) : i ∈ f.phiIds := by
  obtain ⟨b, hinst⟩ := phi?_some hi
  obtain ⟨bb, hb⟩ := Option.isSome_iff_exists.1
    (hf.owned i b true (standing_of_inst hinst))
  exact Func.mem_phiIds.2 ⟨b, bb, hb, (hf.mem_phis hb).2 ⟨node, hinst⟩⟩

/-! ## Steps that leave instructions where they stand -/

/-- Changes of other things than the lists of instructions and their blocks. -/
lemma Descends.same (h : Descends f₀ f) (hblocks : g.blockCapacity = f.blockCapacity)
    (hinsts : g.instCapacity = f.instCapacity) (hstand : ∀ i, g.standing i = f.standing i)
    (hblock : ∀ b, ∃ k : Block → Block, g.block? b = (f.block? b).map k ∧
      ∀ bb, (∀ phi, (k bb).part phi = bb.part phi) ∧ (bb.preds.Nodup → (k bb).preds.Nodup))
    (hops : ∀ i node, g.phi? i = some node → node.blocks.Nodup) : Descends f₀ g := by
  have hhas : ∀ b, g.hasBlock b = f.hasBlock b := by
    intro b
    obtain ⟨k, hk, -⟩ := hblock b
    exact hasBlock_eq_of_map hk
  have hinv : ∀ b bb', g.block? b = some bb' → ∃ bb, f.block? b = some bb ∧
      (∀ phi, bb'.part phi = bb.part phi) ∧ (bb.preds.Nodup → bb'.preds.Nodup) := by
    intro b bb' hb
    obtain ⟨k, hk, hsame⟩ := hblock b
    rw [hk] at hb
    obtain ⟨bb, hold, rfl⟩ := Option.map_eq_some_iff.1 hb
    exact ⟨bb, hold, hsame bb⟩
  refine ⟨⟨?_, ?_, ?_, ?_, ?_, hops⟩, ?_, ?_⟩
  · exact (hhas _).trans h.arena.entry
  · intro i b phi hi
    rw [hhas]
    exact h.arena.owned i b phi (hstand i ▸ hi)
  · intro b bb' hb phi i
    obtain ⟨bb, hold, hpart, -⟩ := hinv b bb' hb
    rw [hpart, hstand]
    exact h.arena.listed b bb hold phi i
  · intro b bb' hb phi
    obtain ⟨bb, hold, hpart, -⟩ := hinv b bb' hb
    rw [hpart]
    exact h.arena.listedOnce b bb hold phi
  · intro b bb' hb
    obtain ⟨bb, hold, -, hpreds⟩ := hinv b bb' hb
    exact hpreds (h.arena.predsOnce b bb hold)
  · intro b hb
    obtain ⟨hlt, hnone⟩ := h.blocks b hb
    obtain ⟨k, hk, -⟩ := hblock b
    exact ⟨hblocks ▸ hlt, by rw [hk, hnone]; rfl⟩
  · intro i hi
    obtain ⟨hlt, hnone⟩ := h.insts i hi
    exact ⟨hinsts ▸ hlt, standing_eq_none.1 ((hstand i).trans (standing_eq_none.2 hnone))⟩

/-- A change of a block that leaves its instructions alone. -/
lemma Descends.modifyBlock (h : Descends f₀ f) (b : BlockId) {k : Block → Block}
    (hpart : ∀ bb phi, (k bb).part phi = bb.part phi)
    (hpreds : ∀ bb, bb.preds.Nodup → (k bb).preds.Nodup) : Descends f₀ (f.modifyBlock b k) := by
  refine h.same (blockCapacity_modifyBlock ..) rfl (fun _ => rfl) (fun c => ?_)
    h.arena.operandsOnce
  rw [block?_modifyBlock]
  by_cases hc : b = c
  · exact ⟨k, if_pos hc, fun bb => ⟨hpart bb, hpreds bb⟩⟩
  · refine ⟨id, ?_, fun bb => ⟨fun _ => rfl, id⟩⟩
    rw [if_neg hc, Option.map_id, id]

/-- A change of instructions that turns phis, and nothing else, into phis. -/
lemma Descends.mapInsts (h : Descends f₀ f) (hblocks : g.blockCapacity = f.blockCapacity)
    (hinsts : g.instCapacity = f.instCapacity)
    (hblock : ∀ b, ∃ k : Block → Block, g.block? b = (f.block? b).map k ∧
      ∀ bb, (∀ phi, (k bb).part phi = bb.part phi) ∧ (bb.preds.Nodup → (k bb).preds.Nodup))
    (hinst : ∀ i, ∃ k : Inst → Inst,
      g.inst? i = (f.inst? i).map (fun p => { p with inst := k p.inst }) ∧
      ∀ inst, (k inst).isPhi = inst.isPhi ∧ ∀ node, (k inst).phi? = some node →
        ∃ old, inst.phi? = some old ∧ (old.blocks.Nodup → node.blocks.Nodup)) :
    Descends f₀ g := by
  refine h.same hblocks hinsts (fun i => ?_) hblock fun i node hnode => ?_
  · obtain ⟨k, hk, hsame⟩ := hinst i
    unfold standing
    rw [hk]
    cases f.inst? i with
    | none => rfl
    | some p => exact congrArg (fun phi => some (p.block, phi)) (hsame p.inst).1
  · obtain ⟨k, hk, hsame⟩ := hinst i
    unfold phi? at hnode
    rw [hk] at hnode
    cases hp : f.inst? i with
    | none =>
      rw [hp] at hnode
      cases hnode
    | some p =>
      rw [hp] at hnode
      obtain ⟨old, hold, honce⟩ := (hsame p.inst).2 node hnode
      exact honce (h.arena.operandsOnce i old ((phi?_of_inst? hp).trans hold))

/-- A change of the operands of a phi. -/
lemma Descends.modifyPhi (h : Descends f₀ f) (i : InstId) {k : Phi → Phi}
    (hops : ∀ node, node.blocks.Nodup → (k node).blocks.Nodup) :
    Descends f₀ (f.modifyPhi i k) := by
  refine h.mapInsts rfl (instCapacity_modifyPhi ..) (fun c => ?_) fun j => ?_
  · refine ⟨id, ?_, fun bb => ⟨fun _ => rfl, id⟩⟩
    rw [block?_modifyPhi, Option.map_id, id]
  · unfold Func.modifyPhi
    rw [inst?_modifyInst]
    by_cases hj : j = i
    · refine ⟨fun inst => inst.phi?.elim inst fun node => .phi (k node), ?_, fun inst => ?_⟩
      · rw [if_pos hj]
        refine congrArg (fun g => (f.inst? j).map g) (funext fun p => ?_)
        obtain ⟨inst, c⟩ := p
        cases inst <;> rfl
      · cases inst with
        | phi old =>
          refine ⟨rfl, fun node hnode => ⟨old, rfl, ?_⟩⟩
          cases hnode
          exact hops old
        | _ => exact ⟨rfl, by rintro node ⟨⟩⟩
    · refine ⟨id, ?_, fun inst => ⟨rfl, fun node hnode => ⟨node, hnode, id⟩⟩⟩
      rw [if_neg hj]
      exact Option.map_id'.symm

lemma Descends.setPhiIncoming (h : Descends f₀ f) {p : BlockId} {v : Value}
    (hrun : f.setPhiIncoming i p v = .ok g) : Descends f₀ g := by
  unfold Func.setPhiIncoming at hrun
  obtain ⟨_, -, hrun⟩ := except_bind_ok.1 hrun
  split at hrun
  · cases hrun
    exact h.modifyPhi i fun node hn => Phi.nodup_setIncoming hn p v
  · cases hrun

/-- A change of operands. -/
lemma Descends.mapOperands (h : Descends f₀ f) (k : Value → Value) :
    Descends f₀ (f.mapOperands k) := by
  refine h.mapInsts ?_ (instCapacity_mapOperands ..) (fun b => ?_) fun i => ?_
  · simp [Func.mapOperands, blockCapacity]
  · exact ⟨_, block?_mapOperands f k b, fun bb => ⟨fun _ => rfl, id⟩⟩
  · refine ⟨_, inst?_mapOperands f k i, fun inst => ⟨Inst.isPhi_mapOperands k inst, ?_⟩⟩
    intro node hnode
    rw [Inst.phi?_mapOperands] at hnode
    obtain ⟨old, hold, rfl⟩ := Option.map_eq_some_iff.1 hnode
    exact ⟨old, hold, fun hn => (Phi.blocks_mapValues k old).symm ▸ hn⟩

/-! ## Steps that add -/

lemma standing_lt {s : BlockId × Bool} (h : f.standing i = some s) : i.index < f.instCapacity := by
  obtain ⟨p, hp, -⟩ := Option.map_eq_some_iff.1 h
  exact lt_instCapacity hp

lemma Descends.addBlock (h : Descends f₀ f) : Descends f₀ f.addBlock := by
  have hinv : ∀ b bb, f.addBlock.block? b = some bb →
      bb = {} ∧ b = f.nextBlock ∨ b ≠ f.nextBlock ∧ f.block? b = some bb := by
    intro b bb hb
    rw [block?_addBlock] at hb
    split at hb
    · rename_i he
      exact .inl ⟨(Option.some.inj hb).symm, he⟩
    · rename_i he
      exact .inr ⟨he, hb⟩
  refine ⟨⟨hasBlock_addBlock h.arena.entry, ?_, ?_, ?_, ?_, h.arena.operandsOnce⟩, ?_, h.insts⟩
  · exact fun i b phi hi => hasBlock_addBlock (h.arena.owned i b phi hi)
  · intro b bb hb phi i
    rcases hinv b bb hb with ⟨rfl, rfl⟩ | ⟨-, hold⟩
    · -- nothing stands in a block that is not there yet
      refine iff_of_false (by cases phi <;> exact List.not_mem_nil) fun hi => ?_
      exact ne_nextBlock_of_hasBlock (h.arena.owned i _ phi hi) rfl
    · exact h.arena.listed b bb hold phi i
  · intro b bb hb phi
    rcases hinv b bb hb with ⟨rfl, -⟩ | ⟨-, hold⟩
    · cases phi <;> exact List.nodup_nil
    · exact h.arena.listedOnce b bb hold phi
  · intro b bb hb
    rcases hinv b bb hb with ⟨rfl, -⟩ | ⟨-, hold⟩
    · exact List.nodup_nil
    · exact h.arena.predsOnce b bb hold
  · intro b hb
    obtain ⟨hlt, hnone⟩ := h.blocks b hb
    have hne : b ≠ f.nextBlock := fun he => Nat.lt_irrefl _ (he ▸ hlt)
    refine ⟨?_, ?_⟩
    · unfold Func.addBlock blockCapacity at *
      rw [Array.size_push]
      omega
    · rw [block?_addBlock, if_neg hne, hnone]

/-! ## One instruction stands elsewhere

An instruction that is appended, removed or moved is taken from the list where it was, if it was
in one, and put at the end of the list where it stands afterwards, if it stands anywhere. -/

/-- A list in which an instruction does not stand does not have it. -/
lemma Arena.filter_part (hf : f.Arena) {bb : Block} (hb : f.block? b = some bb) {phi : Bool}
    (hne : f.standing i ≠ some (b, phi)) : (bb.part phi).filter (· ≠ i) = bb.part phi := by
  refine List.filter_eq_self.2 fun j hj => decide_eq_true fun hji => hne ?_
  exact (hf.listed b bb hb phi i).1 (hji ▸ hj)

/-- The instruction stands at `s` from now on, and the others where they stood. -/
lemma Descends.restood (h : Descends f₀ f) {s : Option (BlockId × Bool)}
    (hstand : ∀ j, g.standing j = if j = i then s else f.standing j)
    (howned : ∀ c phi, s = some (c, phi) → f.hasBlock c = true)
    (hblock : ∀ c, ∃ k : Block → Block, g.block? c = (f.block? c).map k ∧
      ∀ cc, f.block? c = some cc → (k cc).preds = cc.preds ∧ ∀ phi, (k cc).part phi =
        (cc.part phi).filter (· ≠ i) ++ if s = some (c, phi) then [i] else [])
    (hops : ∀ j node, g.phi? j = some node → node.blocks.Nodup)
    (hcap : g.blockCapacity = f.blockCapacity) (hgone : ∀ j, f.Gone j → g.Gone j) :
    Descends f₀ g := by
  have hhas : ∀ c, g.hasBlock c = f.hasBlock c := by
    intro c
    obtain ⟨k, hk, -⟩ := hblock c
    exact hasBlock_eq_of_map hk
  have hinv : ∀ c cc', g.block? c = some cc' → ∃ cc, f.block? c = some cc ∧
      cc'.preds = cc.preds ∧ ∀ phi, cc'.part phi =
        (cc.part phi).filter (· ≠ i) ++ if s = some (c, phi) then [i] else [] := by
    intro c cc' hc
    obtain ⟨k, hk, hparts⟩ := hblock c
    rw [hk] at hc
    obtain ⟨cc, hold, rfl⟩ := Option.map_eq_some_iff.1 hc
    exact ⟨cc, hold, hparts cc hold⟩
  refine ⟨⟨(hhas _).trans h.arena.entry, ?_, ?_, ?_, ?_, hops⟩, ?_,
    fun j hj => hgone j (h.insts j hj)⟩
  · intro j c phi hj
    rw [hhas]
    rw [hstand] at hj
    split at hj
    · exact howned c phi hj
    · exact h.arena.owned j c phi hj
  · intro c cc' hc phi j
    obtain ⟨cc, hold, -, hparts⟩ := hinv c cc' hc
    rw [hparts, List.mem_append, List.mem_filter, hstand, h.arena.listed c cc hold,
      decide_eq_true_eq]
    by_cases hj : j = i
    · rw [if_pos hj]
      split <;> simp [*]
    · rw [if_neg hj]
      split <;> simp [hj]
  · intro c cc' hc phi
    obtain ⟨cc, hold, -, hparts⟩ := hinv c cc' hc
    rw [hparts]
    refine List.Nodup.append ((h.arena.listedOnce c cc hold phi).filter _) ?_ ?_
    · split
      · exact List.nodup_singleton _
      · exact List.nodup_nil
    · -- what is left of the old list is not the instruction
      intro j hj hj'
      refine of_decide_eq_true (List.mem_filter.1 hj).2 ?_
      split at hj'
      · exact List.mem_singleton.1 hj'
      · cases hj'
  · intro c cc' hc
    obtain ⟨cc, hold, hpreds, -⟩ := hinv c cc' hc
    rw [hpreds]
    exact h.arena.predsOnce c cc hold
  · intro c hc
    obtain ⟨hlt, hnone⟩ := h.blocks c hc
    obtain ⟨k, hk, -⟩ := hblock c
    exact ⟨hcap ▸ hlt, by rw [hk, hnone]; rfl⟩

/-- An instruction comes into the table and into its part of a block that is there. -/
lemma Descends.appended (h : Descends f₀ f) {new : Inst} (hg : Appended f g b new)
    (hcap : g.blockCapacity = f.blockCapacity) (hb : f.hasBlock b = true)
    (hnew : ∀ node, new.phi? = some node → node.blocks.Nodup) : Descends f₀ g := by
  have hfresh : ∀ s, f.standing f.nextInst ≠ some s :=
    fun s hs => Nat.lt_irrefl _ (standing_lt hs)
  refine h.restood (i := f.nextInst) (s := some (b, new.isPhi)) ?_ ?_ ?_ ?_ hcap ?_
  · intro j
    unfold standing
    rw [hg.inst]
    split <;> rfl
  · rintro c phi ⟨⟩
    exact hb
  · intro c
    rw [hg.block]
    by_cases hc : b = c
    · refine ⟨_, if_pos hc, fun cc hcc => ⟨cc.preds_append .., fun phi => ?_⟩⟩
      rw [h.arena.filter_part hcc (hfresh _), part_append]
      by_cases hphi : phi = new.isPhi
      · rw [if_pos hphi, if_pos (by rw [hc, hphi])]
      · rw [if_neg hphi, if_neg fun he => hphi (Prod.mk.inj (Option.some.inj he)).2.symm,
          List.append_nil]
    · refine ⟨id, (if_neg hc).trans Option.map_id'.symm, fun cc hcc => ⟨rfl, fun phi => ?_⟩⟩
      rw [h.arena.filter_part hcc (hfresh _),
        if_neg fun he => hc (Prod.mk.inj (Option.some.inj he)).1, List.append_nil, id]
  · intro i node hnode
    unfold phi? at hnode
    rw [hg.inst] at hnode
    split at hnode
    · exact hnew node hnode
    · exact h.arena.operandsOnce i node hnode
  · rintro j ⟨hlt, hnone⟩
    have hne : j ≠ f.nextInst := fun he => Nat.lt_irrefl _ (he ▸ hlt)
    exact ⟨hg.capacity ▸ Nat.lt_succ_of_lt hlt, by rw [hg.inst, if_neg hne, hnone]⟩

lemma Descends.appendInst (h : Descends f₀ f) {new : Inst} {r : InstId × Func}
    (hrun : f.appendInst b new = .ok r)
    (hnew : ∀ node, new.phi? = some node → node.blocks.Nodup) : Descends f₀ r.2 := by
  obtain ⟨-, ⟨bb, hbb⟩, happended⟩ := appendInst_ok (i := r.1) hrun
  refine h.appended happended ?_ (hasBlock_of_block hbb) hnew
  unfold Func.appendInst getBlock at hrun
  rw [hbb] at hrun
  cases hrun
  exact blockCapacity_modifyBlock ..

lemma Descends.removeInst (h : Descends f₀ f) (i : InstId) : Descends f₀ (f.removeInst i) := by
  cases hp : f.inst? i with
  | none =>
    rw [removeInst_of_missing hp]
    exact h
  | some p =>
    have hself := standing_of_inst hp
    refine h.restood (i := i) (s := none) ?_ (by rintro c phi ⟨⟩) ?_ ?_ ?_ ?_
    · intro j
      unfold standing
      rw [inst?_removeInst]
      split <;> rfl
    · intro c
      rw [block?_removeInst hp]
      by_cases hc : p.block = c
      · refine ⟨fun cc => cc.unlist i, if_pos hc, fun cc _ => ⟨rfl, fun phi => ?_⟩⟩
        rw [part_unlist, if_neg (by rintro ⟨⟩), List.append_nil]
      · -- the other blocks do not list the instruction anyway
        refine ⟨id, (if_neg hc).trans Option.map_id'.symm, fun cc hcc => ⟨rfl, fun phi => ?_⟩⟩
        rw [h.arena.filter_part hcc fun he => hc (Prod.mk.inj (Option.some.inj (hself ▸ he))).1,
          if_neg (by rintro ⟨⟩), List.append_nil, id]
    · intro j node hnode
      unfold phi? at hnode
      rw [inst?_removeInst] at hnode
      split at hnode
      · cases hnode
      · exact h.arena.operandsOnce j node hnode
    · unfold Func.removeInst
      rw [hp]
      exact blockCapacity_modifyBlock ..
    · rintro j ⟨hlt, hnone⟩
      refine ⟨(instCapacity_removeInst f i).symm ▸ hlt, ?_⟩
      rw [inst?_removeInst, hnone, ite_self]

lemma Descends.moved (h : Descends f₀ f) {p : PlacedInst} (hm : Moved f g i p b)
    (hphi : p.inst.isPhi = false) (hb : f.hasBlock b = true)
    (hcap : g.instCapacity = f.instCapacity) : Descends f₀ g := by
  have hself : f.standing i = some (p.block, false) := hphi ▸ standing_of_inst hm.was
  refine h.restood (i := i) (s := some (b, false)) ?_ ?_ ?_ ?_ hm.capacity ?_
  · intro j
    unfold standing
    rw [hm.inst]
    split
    · exact congrArg (fun q => some (b, q)) hphi
    · rfl
  · rintro c phi ⟨⟩
    exact hb
  · intro c
    refine ⟨_, hm.block c, fun cc hcc => ⟨rfl, fun phi => ?_⟩⟩
    have hother : (c, phi) ≠ (p.block, false) → (cc.part phi).filter (· ≠ i) = cc.part phi :=
      fun hne => h.arena.filter_part hcc fun he => hne (Option.some.inj (hself ▸ he)).symm
    cases phi with
    | true =>
      rw [hother (by simp), if_neg (show some (b, false) ≠ some (c, true) by simp), List.append_nil]
      rfl
    | false =>
      show (if c = p.block then cc.body.filter (· ≠ i) else cc.body) ++ (if c = b then [i] else []) =
        cc.body.filter (· ≠ i) ++ if some (b, false) = some (c, false) then [i] else []
      simp only [Option.some.injEq, Prod.mk.injEq, and_true, @eq_comm _ b c]
      congr 1
      split
      · rfl
      · rename_i hne
        exact (hother fun he => hne (Prod.mk.inj he).1).symm
  · intro j node hnode
    unfold phi? at hnode
    rw [hm.inst] at hnode
    split at hnode
    · rename_i hj
      subst hj
      exact h.arena.operandsOnce j node ((phi?_of_inst? hm.was).trans hnode)
    · exact h.arena.operandsOnce j node hnode
  · rintro j ⟨hlt, hnone⟩
    have hne : j ≠ i := by
      rintro rfl
      rw [hm.was] at hnone
      cases hnone
    exact ⟨hcap ▸ hlt, by rw [hm.inst, if_neg hne, hnone]⟩

lemma Descends.moveInst (h : Descends f₀ f) (hrun : f.moveInst i b = .ok g) : Descends f₀ g := by
  obtain ⟨p, hm⟩ := moveInst_ok hrun
  have hget : f.getInst i = .ok p := by
    unfold getInst
    rw [hm.was]
  unfold Func.moveInst at hrun
  rw [hget] at hrun
  cases hphi : p.inst.isPhi with
  | true =>
    simp only [bind, Except.bind, hphi] at hrun
    cases hrun
  | false =>
    simp only [bind, Except.bind, hphi] at hrun
    obtain ⟨bb, hbb, hrun⟩ := except_bind_ok.1 hrun
    obtain ⟨_, -, hrun⟩ := except_bind_ok.1 hrun
    refine h.moved hm hphi ?_ ?_
    · exact hasBlock_of_block (block?_of_getBlock hbb)
    · cases hrun
      simp [Func.modifyBlock, instCapacity]

lemma instCapacity_clearBlock (f : Func) (b : BlockId) (bb : Block) :
    (f.clearBlock b bb).instCapacity = f.instCapacity := by
  unfold Func.clearBlock
  show _ = Func.instCapacity { f with blocks := f.blocks.modify b.index fun _ => none }
  generalize { f with blocks := f.blocks.modify b.index fun _ => none } = g
  induction bb.insts generalizing g with
  | nil => rfl
  | cons i rest ih =>
    rw [List.foldl_cons, ih]
    simp [clearInst, instCapacity]

/-- A block goes with all that stands in it. -/
lemma Descends.clearBlock (h : Descends f₀ f) {bb : Block} (hb : f.block? b = some bb)
    (hne : b ≠ f.entry) : Descends f₀ (f.clearBlock b bb) := by
  -- the instructions that go are those of the block
  have hgone : ∀ i phi c, f.standing i = some (c, phi) → (i ∈ bb.insts ↔ c = b) := by
    intro i phi c hi
    rw [mem_insts_iff_part]
    simp only [h.arena.listed b bb hb, hi, Option.some.injEq, Prod.mk.injEq]
    exact ⟨fun he => he.choose_spec.1, fun he => ⟨phi, he, rfl⟩⟩
  have hstand : ∀ i c phi, (f.clearBlock b bb).standing i = some (c, phi) ↔
      f.standing i = some (c, phi) ∧ c ≠ b := by
    intro i c phi
    unfold standing
    rw [clearBlock_inst]
    split
    · rename_i hmem
      refine iff_of_false (fun he => nomatch he) fun he => he.2 ?_
      exact (hgone i phi c he.1).1 hmem
    · rename_i hmem
      exact ⟨fun he => ⟨he, fun hcb => hmem ((hgone i phi c he).2 hcb)⟩, fun he => he.1⟩
  have hinv : ∀ c cc, (f.clearBlock b bb).block? c = some cc → c ≠ b ∧ f.block? c = some cc := by
    intro c cc hc
    rw [clearBlock_block] at hc
    split at hc
    · cases hc
    · rename_i hbc
      exact ⟨Ne.symm hbc, hc⟩
  have hhas : ∀ c, c ≠ b → (f.clearBlock b bb).hasBlock c = f.hasBlock c := by
    intro c hc
    unfold hasBlock
    rw [clearBlock_block, if_neg (Ne.symm hc)]
  refine ⟨⟨?_, ?_, ?_, ?_, ?_, ?_⟩, ?_, ?_⟩
  · exact (hhas _ (Ne.symm hne)).trans h.arena.entry
  · intro i c phi hi
    obtain ⟨hold, hcb⟩ := (hstand i c phi).1 hi
    rw [hhas c hcb]
    exact h.arena.owned i c phi hold
  · intro c cc hc phi i
    obtain ⟨hcb, hold⟩ := hinv c cc hc
    rw [h.arena.listed c cc hold, hstand]
    exact (and_iff_left hcb).symm
  · exact fun c cc hc => h.arena.listedOnce c cc (hinv c cc hc).2
  · exact fun c cc hc => h.arena.predsOnce c cc (hinv c cc hc).2
  · intro i node hnode
    unfold phi? at hnode
    rw [clearBlock_inst] at hnode
    split at hnode
    · cases hnode
    · exact h.arena.operandsOnce i node hnode
  · intro c hc
    obtain ⟨hlt, hnone⟩ := h.blocks c hc
    exact ⟨clearBlock_numArgs.2.symm ▸ hlt, by rw [clearBlock_block, hnone, ite_self]⟩
  · intro i hi
    obtain ⟨hlt, hnone⟩ := h.insts i hi
    refine ⟨?_, by rw [clearBlock_inst, hnone, ite_self]⟩
    exact (instCapacity_clearBlock f b bb).symm ▸ hlt

/-- A trivial phi, or an instruction whose value is known, is replaced. -/
lemma Descends.replaced (h : Descends f₀ f) (i : InstId) (v : Value) :
    Descends f₀ ((f.replaceUses i v).removeInst i) :=
  (h.mapOperands _).removeInst i

lemma Descends.foldTrivialPhis (h : Descends f₀ f) (candidates : List InstId)
    (mayFold : InstId → Bool) : Descends f₀ (f.foldTrivialPhis candidates mayFold).1 :=
  foldTrivialPhis_kept (Descends f₀) (fun _ i v hg => hg.replaced i v) h candidates mayFold

/-! ## Edges and blocks -/

lemma Descends.addPred (h : Descends f₀ f) (b p : BlockId) :
    Descends f₀ (f.modifyBlock b (·.addPred p)) := by
  refine h.modifyBlock b (fun bb phi => ?_) fun bb hn => Block.nodup_addPred bb hn p
  rw [Block.addPred_eq]
  rfl

lemma Descends.terminate (h : Descends f₀ f) (b : BlockId) (t : Terminator) :
    Descends f₀ (f.modifyBlock b ({ · with terminator := some t })) :=
  h.modifyBlock b (fun _ _ => rfl) fun _ hn => hn

lemma Descends.setTerminator (h : Descends f₀ f) {t : Terminator}
    (hrun : f.setTerminator b t = .ok g) : Descends f₀ g := by
  unfold Func.setTerminator at hrun
  split at hrun
  · cases hrun
  · obtain ⟨bb, -, hrun⟩ := except_bind_ok.1 hrun
    cases hterm : bb.terminator with
    | some t' =>
      rw [hterm] at hrun
      cases hrun
    | none =>
      rw [hterm] at hrun
      cases hrun
      have hstart := h.terminate b t
      generalize f.modifyBlock b ({ · with terminator := some t }) = g at hstart
      induction t.successors generalizing g with
      | nil => exact hstart
      | cons s rest ih => exact ih _ (hstart.addPred s b)

/-- A block loses a predecessor, and its phis the operands from it. -/
lemma Descends.unlinked (h : Descends f₀ f) (b p : BlockId) (bb : Block) :
    Descends f₀ (f.unlinked b p bb) := by
  unfold Func.unlinked
  have hstart : Descends f₀ (f.modifyBlock b (·.dropPred p)) :=
    h.modifyBlock b (fun _ _ => rfl) fun _ hn => hn.filter _
  generalize f.modifyBlock b (·.dropPred p) = g at hstart
  induction bb.phis generalizing g with
  | nil => exact hstart
  | cons i rest ih =>
    refine ih _ (hstart.modifyPhi i fun node hn => ?_)
    rw [Phi.blocks_dropIncoming]
    exact hn.erase p

lemma Descends.removePred (h : Descends f₀ f) (b p : BlockId) :
    Descends f₀ (f.removePred b p).1 := by
  cases hb : f.block? b with
  | none =>
    rw [removePred_deleted hb]
    exact h
  | some bb =>
    rw [removePred_eq hb]
    exact (h.unlinked b p bb).foldTrivialPhis _ _

lemma Descends.removeBlock (h : Descends f₀ f) (b : BlockId) {r : Func × List Replacement}
    (hrun : f.removeBlock b = .ok r) : Descends f₀ r.1 := by
  unfold Func.removeBlock at hrun
  split at hrun
  · cases hrun
  · rename_i hne
    obtain ⟨bb, hbb, hrun⟩ := except_bind_ok.1 hrun
    cases hrun
    have hstart : Descends f₀ (f.clearBlock b bb, ([] : List Replacement)).1 :=
      h.clearBlock (block?_of_getBlock hbb) hne
    generalize (f.clearBlock b bb, ([] : List Replacement)) = acc at hstart
    induction bb.successors generalizing acc with
    | nil => exact hstart
    | cons s rest ih => exact ih _ (hstart.removePred s b)

end Func

end SsaBackend
