import Mathlib.Tactic.Common
import SsaBackend.Func.Edit
import SsaBackend.Proofs.Func.Blocks
import SsaBackend.Proofs.Func.Phi
import SsaBackend.Proofs.Work

/-!
# Looking up what was edited

What the two tables of a function hold after each of the edits.
-/

namespace SsaBackend

namespace Terminator

@[simp] lemma successors_mapOperands (g : Value → Value) (t : Terminator) :
    (t.mapOperands g).successors = t.successors := by
  cases t <;> rfl

@[simp] lemma operands_mapOperands (g : Value → Value) (t : Terminator) :
    (t.mapOperands g).operands = t.operands.map g := by
  cases t with
  | jump b => rfl
  | branch c x y => rfl
  | ret v => cases v <;> rfl

lemma mapOperands_mapOperands (g h : Value → Value) (t : Terminator) :
    (t.mapOperands g).mapOperands h = t.mapOperands fun v => h (g v) := by
  cases t <;> simp [mapOperands, Function.comp_def]

lemma mapOperands_id (t : Terminator) : t.mapOperands id = t := by
  cases t <;> simp [mapOperands]

end Terminator

namespace Inst

@[simp] lemma isPhi_mapOperands (g : Value → Value) (inst : Inst) :
    (inst.mapOperands g).isPhi = inst.isPhi := by
  cases inst <;> rfl

lemma mapOperands_mapOperands (g h : Value → Value) (inst : Inst) :
    (inst.mapOperands g).mapOperands h = inst.mapOperands fun v => h (g v) := by
  cases inst <;> simp [mapOperands, Phi.mapValues]

/-- Operands that stay what they are leave the instruction as it is. -/
lemma mapOperands_eq_self {g : Value → Value} {inst : Inst} (h : ∀ v ∈ inst.operands, g v = v) :
    inst.mapOperands g = inst := by
  cases inst with
  | call callee args => exact congrArg (call callee) ((List.map_congr_left h).trans (List.map_id _))
  | phi node => exact congrArg phi (Phi.mapValues_eq_self h)
  | _ => simp_all [mapOperands, operands]

lemma mapOperands_id (inst : Inst) : inst.mapOperands id = inst := mapOperands_eq_self fun _ _ => rfl

/-- An instruction is a phi, or it is not. -/
lemma isPhi_iff {inst : Inst} : inst.isPhi = true ↔ ∃ node, inst = .phi node := by
  cases inst <;> simp [isPhi, phi?]

/-- Changing operands turns phis, and nothing else, into phis. -/
lemma phi?_mapOperands (g : Value → Value) (inst : Inst) :
    (inst.mapOperands g).phi? = inst.phi?.map (·.mapValues g) := by
  cases inst <;> rfl

end Inst

namespace Block

@[simp] lemma preds_append (bb : Block) (i : InstId) (phi : Bool) :
    (bb.append i phi).preds = bb.preds := by
  cases phi <;> rfl

@[simp] lemma successors_append (bb : Block) (i : InstId) (phi : Bool) :
    (bb.append i phi).successors = bb.successors := by
  cases phi <;> rfl

/-- Recording a predecessor changes nothing else. -/
lemma mem_preds_addPred (bb : Block) (p q : BlockId) :
    q ∈ (bb.addPred p).preds ↔ q ∈ bb.preds ∨ q = p := by
  unfold addPred
  split
  · rename_i hp
    constructor
    · exact .inl
    · intro h
      rcases h with h | h
      · exact h
      · exact h ▸ hp
  · simp

/-- Predecessors are recorded once each. -/
lemma nodup_addPred (bb : Block) (h : bb.preds.Nodup) (p : BlockId) :
    (bb.addPred p).preds.Nodup := by
  unfold addPred
  split
  · exact h
  · rename_i hp
    rw [List.nodup_append]
    refine ⟨h, by simp, ?_⟩
    rintro q hq r hr rfl
    exact hp (List.mem_singleton.1 hr ▸ hq)

lemma addPred_eq (bb : Block) (p : BlockId) :
    bb.addPred p = { bb with preds := (bb.addPred p).preds } := by
  unfold addPred
  split <;> rfl

end Block

namespace Func

/-! ## Places in the tables -/

/-- A change that leaves empty places empty is seen at its own place only. -/
lemma join_getElem?_modify {α : Type} (a : Array (Option α)) (i j : Nat)
    {k : Option α → Option α} (hk : k none = none) :
    ((a.modify i k)[j]?).join = if i = j then k (a[j]?).join else (a[j]?).join := by
  rw [Array.getElem?_modify]
  split
  · cases a[j]? with
    | none => exact hk.symm
    | some o => rfl
  · rfl

@[simp] lemma block?_modifyBlock (f : Func) (b c : BlockId) (g : Block → Block) :
    (f.modifyBlock b g).block? c = if b = c then (f.block? c).map g else f.block? c := by
  unfold modifyBlock block?
  rw [join_getElem?_modify _ _ _ rfl]
  simp only [BlockId.index_inj]

lemma preds_modifyBlock (f : Func) (b : BlockId) (g : Block → Block) (c : BlockId) :
    (f.modifyBlock b g).preds c =
      if b = c then (f.block? c).elim [] fun cc => (g cc).preds else f.preds c := by
  unfold preds
  rw [block?_modifyBlock]
  split
  · cases f.block? c <;> rfl
  · rfl

lemma succs_modifyBlock (f : Func) (b : BlockId) (g : Block → Block) (c : BlockId) :
    (f.modifyBlock b g).succs c =
      if b = c then (f.block? c).elim [] fun cc => (g cc).successors else f.succs c := by
  unfold succs
  rw [block?_modifyBlock]
  split
  · cases f.block? c <;> rfl
  · rfl

lemma hasBlock_modifyBlock (f : Func) (b : BlockId) (g : Block → Block) (c : BlockId) :
    (f.modifyBlock b g).hasBlock c = f.hasBlock c :=
  hasBlock_eq_of_map (map_of_ite (block?_modifyBlock f b c g))

@[simp] lemma inst?_modifyBlock (f : Func) (b : BlockId) (g : Block → Block) (i : InstId) :
    (f.modifyBlock b g).inst? i = f.inst? i := rfl

/-- The phi that a handle names is its instruction, if that is one. -/
lemma phi?_of_inst? {f : Func} {i : InstId} {p : PlacedInst} (h : f.inst? i = some p) :
    f.phi? i = p.inst.phi? := by
  unfold phi?
  rw [h]
  rfl

/-- A change of what the table has for one handle is seen there only. -/
lemma inst?_modify (f : Func) (i j : InstId) {k : Option PlacedInst → Option PlacedInst}
    (hk : k none = none) : ({ f with insts := f.insts.modify i.index k } : Func).inst? j =
      if j = i then k (f.inst? j) else f.inst? j := by
  refine (join_getElem?_modify f.insts i.index j.index hk).trans ?_
  simp only [InstId.index_inj, eq_comm (a := i)]
  rfl

lemma inst?_modifyInst (f : Func) (i j : InstId) (k : Inst → Inst) :
    (f.modifyInst i k).inst? j =
      if j = i then (f.inst? j).map fun p => { p with inst := k p.inst } else f.inst? j :=
  inst?_modify f i j rfl

lemma inst?_clearInst (f : Func) (i j : InstId) :
    (f.clearInst i).inst? j = if j = i then none else f.inst? j :=
  inst?_modify f i j rfl

@[simp] lemma blockCapacity_modifyBlock (f : Func) (b : BlockId) (g : Block → Block) :
    (f.modifyBlock b g).blockCapacity = f.blockCapacity := by
  simp [modifyBlock, blockCapacity]

/-- A block that can be had is there. -/
lemma block?_of_getBlock {f : Func} {b : BlockId} {bb : Block} (h : f.getBlock b = .ok bb) :
    f.block? b = some bb := by
  unfold getBlock at h
  split at h
  · cases h
    assumption
  · cases h

/-- A new function has an empty block and nothing else. -/
lemma block?_new {name : String} {numArgs : Nat} {b : BlockId} {bb : Block}
    (h : (Func.new name numArgs).block? b = some bb) : bb = {} := by
  unfold block? at h
  cases hi : b.index with
  | zero =>
    rw [hi] at h
    cases h
    rfl
  | succ n =>
    rw [hi] at h
    cases h

/-- A new function has no edges. -/
lemma preds_new (name : String) (numArgs : Nat) (b : BlockId) :
    (Func.new name numArgs).preds b = [] := by
  cases hb : (Func.new name numArgs).block? b with
  | none => exact preds_of_missing hb
  | some bb => rw [preds_of_block hb, block?_new hb]

lemma succs_new (name : String) (numArgs : Nat) (b : BlockId) :
    (Func.new name numArgs).succs b = [] := by
  cases hb : (Func.new name numArgs).block? b with
  | none => exact succs_of_missing hb
  | some bb =>
    rw [succs_of_block hb, block?_new hb]
    rfl

lemma inst?_new (name : String) (numArgs : Nat) (i : InstId) :
    (Func.new name numArgs).inst? i = none := rfl

/-! ## Moving -/

/-- What a move that ends well does: the instruction is listed at the end of its new block and
no more in its old one, and knows its new block. -/
structure Moved (f g : Func) (i : InstId) (p : PlacedInst) (b : BlockId) : Prop where
  was : f.inst? i = some p
  inst : ∀ j, g.inst? j = if j = i then some { p with block := b } else f.inst? j
  block : ∀ c, g.block? c = (f.block? c).map fun bb =>
    { bb with
      body := (if c = p.block then bb.body.filter (· ≠ i) else bb.body) ++
        (if c = b then [i] else []) }
  capacity : g.blockCapacity = f.blockCapacity
  numArgs : g.numArgs = f.numArgs

lemma moveInst_ok {f g : Func} {i : InstId} {b : BlockId} (h : f.moveInst i b = .ok g) :
    ∃ p, Moved f g i p b := by
  unfold moveInst at h
  obtain ⟨p, hp, h⟩ := except_bind_ok.1 h
  have hwas : f.inst? i = some p := by
    unfold getInst at hp
    split at hp
    · rename_i q hq
      cases hp
      exact hq
    · cases hp
  cases hphi : p.inst.isPhi with
  | true =>
    rw [hphi] at h
    cases h
  | false =>
    rw [hphi] at h
    obtain ⟨_, _, h⟩ := except_bind_ok.1 h
    obtain ⟨_, _, h⟩ := except_bind_ok.1 h
    cases h
    refine ⟨p, hwas, ?_, ?_, by simp [blockCapacity, modifyBlock], rfl⟩
    · intro j
      refine (inst?_modify f i j rfl).trans ?_
      split
      · rename_i hj
        rw [hj, hwas]
        rfl
      · rfl
    · intro c
      show ((f.modifyBlock p.block _).modifyBlock b _).block? c = _
      rw [block?_modifyBlock, block?_modifyBlock]
      cases f.block? c with
      | none => simp
      | some bb =>
        by_cases h1 : p.block = c
        · by_cases h2 : b = c
          · simp [h1, h2]
          · simp [h1, h2, Ne.symm h2]
        · by_cases h2 : b = c
          · simp [h1, h2, Ne.symm h1]
          · simp [h1, h2, Ne.symm h1, Ne.symm h2]

/-- An instruction that is there and no phi can move between blocks that are there. -/
lemma exists_moveInst {f : Func} {i : InstId} {p : PlacedInst} {b : BlockId} {bb pb : Block}
    (hp : f.inst? i = some p) (hphi : p.inst.isPhi = false) (hb : f.block? b = some bb)
    (hpb : f.block? p.block = some pb) : ∃ g, f.moveInst i b = .ok g := by
  have hget : f.getInst i = .ok p := by
    unfold getInst
    rw [hp]
  have htarget : f.getBlock b = .ok bb := by
    unfold getBlock
    rw [hb]
  have hsource : f.getBlock p.block = .ok pb := by
    unfold getBlock
    rw [hpb]
  unfold moveInst
  rw [hget]
  simp only [bind, Except.bind, hphi]
  rw [htarget]
  simp only
  rw [hsource]
  exact ⟨_, rfl⟩

/-! ## Adding -/

@[simp] lemma block?_addBlock (f : Func) (b : BlockId) :
    f.addBlock.block? b = if b = f.nextBlock then some {} else f.block? b := by
  show (f.blocks.push (some {}))[b.index]?.join = _
  rw [Array.getElem?_push]
  by_cases hb : b = f.nextBlock
  · subst hb
    rw [if_pos rfl]
    exact congrArg Option.join (if_pos rfl)
  · have hne : b.index ≠ f.blocks.size := fun he => hb (BlockId.index_inj.1 he)
    rw [if_neg hb, if_neg hne]
    rfl

@[simp] lemma inst?_addBlock (f : Func) (i : InstId) : f.addBlock.inst? i = f.inst? i := rfl

/-- The next block is not there yet. -/
lemma block?_nextBlock (f : Func) : f.block? f.nextBlock = none := by
  show f.blocks[f.blocks.size]?.join = none
  rw [Array.getElem?_eq_none (Nat.le_refl _)]
  rfl

lemma ne_nextBlock_of_hasBlock {f : Func} {b : BlockId} (h : f.hasBlock b = true) :
    b ≠ f.nextBlock := by
  rintro rfl
  unfold hasBlock at h
  rw [block?_nextBlock] at h
  cases h

/-- A block was there, or it is the new one, which is empty. -/
lemma block_of_addBlock {f : Func} {b : BlockId} {bb : Block}
    (h : f.addBlock.block? b = some bb) : bb = {} ∨ f.block? b = some bb := by
  rw [block?_addBlock] at h
  split at h
  · exact .inl (Option.some.inj h).symm
  · exact .inr h

lemma block_addBlock {f : Func} {b : BlockId} {bb : Block} (h : f.block? b = some bb) :
    f.addBlock.block? b = some bb := by
  rw [block?_addBlock, if_neg (ne_nextBlock_of_hasBlock (hasBlock_of_block h)), h]

/-- Blocks that are there stay there when one is added. -/
lemma hasBlock_addBlock {f : Func} {b : BlockId} (h : f.hasBlock b = true) :
    f.addBlock.hasBlock b = true := by
  obtain ⟨bb, hb⟩ := Option.isSome_iff_exists.1 h
  exact hasBlock_of_block (block_addBlock hb)

/-- No edge begins or ends at a new block. -/
lemma preds_addBlock (f : Func) (b : BlockId) : f.addBlock.preds b = f.preds b := by
  unfold preds
  rw [block?_addBlock]
  split
  · rename_i hb
    rw [hb, block?_nextBlock]
    rfl
  · rfl

lemma succs_addBlock (f : Func) (b : BlockId) : f.addBlock.succs b = f.succs b := by
  unfold succs
  rw [block?_addBlock]
  split
  · rename_i hb
    rw [hb, block?_nextBlock]
    rfl
  · rfl

/-- An instruction that is there has a place in the table. -/
lemma lt_instCapacity {f : Func} {i : InstId} {p : PlacedInst} (h : f.inst? i = some p) :
    i.index < f.instCapacity := by
  unfold inst? at h
  by_contra hge
  rw [Array.getElem?_eq_none (by unfold instCapacity at hge; omega)] at h
  cases h

/-- What adding an instruction does: it is listed at the end of its part of its block. -/
structure Appended (f g : Func) (b : BlockId) (new : Inst) : Prop where
  inst : ∀ j, g.inst? j = if j = f.nextInst then some ⟨new, b⟩ else f.inst? j
  block : ∀ c, g.block? c =
    if b = c then (f.block? c).map (·.append f.nextInst new.isPhi) else f.block? c
  capacity : g.instCapacity = f.instCapacity + 1
  numArgs : g.numArgs = f.numArgs

namespace Appended

variable {f g : Func} {b : BlockId} {new : Inst}

/-- The instructions are those there were, and the new one. -/
lemma of_inst (h : Appended f g b new) {j : InstId} {p : PlacedInst} (hj : g.inst? j = some p) :
    (j = f.nextInst ∧ p = ⟨new, b⟩) ∨ f.inst? j = some p := by
  rw [h.inst] at hj
  split at hj
  · rename_i he
    exact .inl ⟨he, (Option.some.inj hj).symm⟩
  · exact .inr hj

/-- The instructions that were there stay. -/
lemma inst_old (h : Appended f g b new) {j : InstId} {p : PlacedInst} (hj : f.inst? j = some p) :
    g.inst? j = some p := by
  have hne : j ≠ f.nextInst := by
    intro he
    exact Nat.lt_irrefl _ (he ▸ lt_instCapacity hj)
  rw [h.inst, if_neg hne, hj]

/-- The blocks are those there were, and one of them lists the instruction. -/
lemma of_block (h : Appended f g b new) {c : BlockId} {cc : Block} (hc : g.block? c = some cc) :
    ∃ old, f.block? c = some old ∧
      cc = if b = c then old.append f.nextInst new.isPhi else old := by
  rw [h.block] at hc
  split at hc
  · rename_i he
    obtain ⟨old, hold, rfl⟩ := Option.map_eq_some_iff.1 hc
    exact ⟨old, hold, (if_pos he).symm⟩
  · rename_i he
    exact ⟨cc, hc, (if_neg he).symm⟩

lemma hasBlock_eq (h : Appended f g b new) (c : BlockId) : g.hasBlock c = f.hasBlock c :=
  hasBlock_eq_of_map (map_of_ite (h.block c))

lemma preds_eq (h : Appended f g b new) (c : BlockId) : g.preds c = f.preds c :=
  preds_eq_of_map (map_of_ite (h.block c)) fun bb => by split <;> simp

lemma succs_eq (h : Appended f g b new) (c : BlockId) : g.succs c = f.succs c :=
  succs_eq_of_map (map_of_ite (h.block c)) fun bb => by split <;> simp

end Appended

lemma appendInst_eq {f : Func} {b : BlockId} {bb : Block} (new : Inst) (h : f.block? b = some bb) :
    ∃ g, f.appendInst b new = .ok (f.nextInst, g) ∧ Appended f g b new := by
  let listed := f.modifyBlock b (·.append f.nextInst new.isPhi)
  refine ⟨{ listed with insts := listed.insts.push (some ⟨new, b⟩) }, ?_, ?_, ?_, ?_, rfl⟩
  · unfold appendInst getBlock
    rw [h]
    rfl
  · intro j
    show (f.insts.push _)[j.index]?.join = _
    rw [Array.getElem?_push]
    by_cases hj : j = f.nextInst
    · subst hj
      rw [if_pos rfl]
      exact congrArg Option.join (if_pos rfl)
    · have hne : j.index ≠ f.insts.size := fun he => hj (InstId.index_inj.1 he)
      rw [if_neg hj, if_neg hne]
      rfl
  · intro c
    exact block?_modifyBlock f b c _
  · exact Array.size_push ..

/-- Instructions are only added to blocks that are there. -/
lemma appendInst_ok {f g : Func} {b : BlockId} {new : Inst} {i : InstId}
    (h : f.appendInst b new = .ok (i, g)) :
    i = f.nextInst ∧ (∃ bb, f.block? b = some bb) ∧ Appended f g b new := by
  cases hb : f.block? b with
  | none =>
    unfold appendInst getBlock at h
    rw [hb] at h
    cases h
  | some bb =>
    obtain ⟨g', hg', happ⟩ := appendInst_eq new hb
    rw [h] at hg'
    cases hg'
    exact ⟨rfl, ⟨bb, rfl⟩, happ⟩

/-! ## Changing phis -/

@[simp] lemma block?_modifyPhi (f : Func) (i : InstId) (g : Phi → Phi) (b : BlockId) :
    (f.modifyPhi i g).block? b = f.block? b := rfl

@[simp] lemma instCapacity_modifyPhi (f : Func) (i : InstId) (g : Phi → Phi) :
    (f.modifyPhi i g).instCapacity = f.instCapacity := by
  simp [modifyPhi, modifyInst, instCapacity]

/-- A phi that is changed is changed in its place. -/
lemma inst?_modifyPhi {f : Func} {i : InstId} {node : Phi} {b : BlockId} (g : Phi → Phi)
    (h : f.inst? i = some ⟨.phi node, b⟩) (j : InstId) :
    (f.modifyPhi i g).inst? j = if j = i then some ⟨.phi (g node), b⟩ else f.inst? j := by
  unfold modifyPhi
  rw [inst?_modifyInst]
  split
  · rename_i hj
    rw [hj, h]
    rfl
  · rfl

/-- Setting an operand of a phi that is there does not fail. -/
lemma setPhiIncoming_eq {f : Func} {i : InstId} {node : Phi} {b : BlockId} (pred : BlockId)
    (v : Value) (h : f.inst? i = some ⟨.phi node, b⟩) :
    f.setPhiIncoming i pred v = .ok (f.modifyPhi i (·.setIncoming pred v)) := by
  unfold setPhiIncoming getInst
  rw [h]
  rfl

/-- Setting an operand of a phi leaves the blocks alone. -/
lemma blocks_setPhiIncoming {f g : Func} {i : InstId} {pred : BlockId} {v : Value}
    (h : f.setPhiIncoming i pred v = .ok g) : g.blocks = f.blocks := by
  unfold setPhiIncoming at h
  obtain ⟨p, -, h⟩ := except_bind_ok.1 h
  split at h
  · cases h
    rfl
  · cases h

/-! ## Operands -/

@[simp] lemma inst?_mapOperands (f : Func) (g : Value → Value) (i : InstId) :
    (f.mapOperands g).inst? i =
      (f.inst? i).map fun p => { p with inst := p.inst.mapOperands g } := by
  show ((f.insts.map _)[i.index]?).join = (f.insts[i.index]?.join).map _
  rw [Array.getElem?_map]
  cases f.insts[i.index]? with
  | none => rfl
  | some o => rfl

@[simp] lemma block?_mapOperands (f : Func) (g : Value → Value) (b : BlockId) :
    (f.mapOperands g).block? b =
      (f.block? b).map fun bb => { bb with terminator := bb.terminator.map (·.mapOperands g) } := by
  show ((f.blocks.map _)[b.index]?).join = (f.blocks[b.index]?.join).map _
  rw [Array.getElem?_map]
  cases f.blocks[b.index]? with
  | none => rfl
  | some o => rfl

lemma hasBlock_mapOperands (f : Func) (g : Value → Value) (b : BlockId) :
    (f.mapOperands g).hasBlock b = f.hasBlock b :=
  hasBlock_eq_of_map (block?_mapOperands f g b)

lemma preds_mapOperands (f : Func) (g : Value → Value) (b : BlockId) :
    (f.mapOperands g).preds b = f.preds b :=
  preds_eq_of_map (block?_mapOperands f g b) fun _ => rfl

lemma succs_mapOperands (f : Func) (g : Value → Value) (b : BlockId) :
    (f.mapOperands g).succs b = f.succs b :=
  succs_eq_of_map (block?_mapOperands f g b) fun bb => by
    cases ht : bb.terminator <;> simp [Block.successors, ht]

@[simp] lemma instCapacity_mapOperands (f : Func) (g : Value → Value) :
    (f.mapOperands g).instCapacity = f.instCapacity := by
  simp [mapOperands, instCapacity]

/-! ## Removing -/

/-- A removed instruction is gone from the table and from the lists of its block. -/
lemma inst?_removeInst (f : Func) (i j : InstId) :
    (f.removeInst i).inst? j = if j = i then none else f.inst? j := by
  unfold removeInst
  cases h : f.inst? i with
  | none =>
    show f.inst? j = _
    by_cases hj : j = i
    · rw [if_pos hj, hj, h]
    · rw [if_neg hj]
  | some p => exact inst?_clearInst f i j

/-- There is nothing to remove twice. -/
lemma removeInst_of_missing {f : Func} {i : InstId} (h : f.inst? i = none) :
    f.removeInst i = f := by
  unfold removeInst
  rw [h]

lemma block?_removeInst {f : Func} {i : InstId} {p : PlacedInst} (h : f.inst? i = some p)
    (b : BlockId) : (f.removeInst i).block? b =
      if p.block = b then (f.block? b).map (·.unlist i) else f.block? b := by
  unfold removeInst
  rw [h]
  exact block?_modifyBlock ..

lemma hasBlock_removeInst (f : Func) (i : InstId) (b : BlockId) :
    (f.removeInst i).hasBlock b = f.hasBlock b := by
  cases h : f.inst? i with
  | none => rw [removeInst_of_missing h]
  | some p => exact hasBlock_eq_of_map (map_of_ite (block?_removeInst h b))

lemma preds_removeInst (f : Func) (i : InstId) (b : BlockId) :
    (f.removeInst i).preds b = f.preds b := by
  cases h : f.inst? i with
  | none => rw [removeInst_of_missing h]
  | some p => exact preds_eq_of_map (map_of_ite (block?_removeInst h b)) fun bb => by split <;> rfl

@[simp] lemma instCapacity_removeInst (f : Func) (i : InstId) :
    (f.removeInst i).instCapacity = f.instCapacity := by
  unfold removeInst
  split
  · simp [clearInst, modifyBlock, instCapacity]
  · rfl

/-! ## Edges -/

/-- Several blocks record one predecessor. -/
lemma block?_addPreds (b c : BlockId) (l : List BlockId) (f : Func) :
    (l.foldl (fun g s => g.modifyBlock s (·.addPred b)) f).block? c = (f.block? c).map fun bb =>
      { bb with preds := if c ∈ l then (bb.addPred b).preds else bb.preds } := by
  induction l generalizing f with
  | nil => simp
  | cons s rest ih =>
    rw [List.foldl_cons, ih, block?_modifyBlock]
    cases f.block? c with
    | none => simp
    | some bb =>
      have hidem : ((bb.addPred b).addPred b).preds = (bb.addPred b).preds := by
        have hmem := (bb.mem_preds_addPred b b).2 (.inr rfl)
        rw [Block.addPred, if_pos hmem]
      by_cases hs : s = c
      · subst hs
        rw [if_pos rfl]
        simp only [Option.map_some, List.mem_cons, true_or, if_true]
        rw [hidem, ite_self, ← Block.addPred_eq]
      · simp [hs, Ne.symm hs]

lemma inst?_addPreds (b : BlockId) (l : List BlockId) (f : Func) :
    (l.foldl (fun g s => g.modifyBlock s (·.addPred b)) f).insts = f.insts := by
  induction l generalizing f with
  | nil => rfl
  | cons s rest ih =>
    rw [List.foldl_cons, ih]
    rfl

lemma numArgs_addPreds (b : BlockId) (l : List BlockId) (f : Func) :
    (l.foldl (fun g s => g.modifyBlock s (·.addPred b)) f).numArgs = f.numArgs := by
  induction l generalizing f with
  | nil => rfl
  | cons s rest ih =>
    rw [List.foldl_cons, ih]
    rfl

/-- What completing a block does. -/
structure Terminated (f g : Func) (b : BlockId) (t : Terminator) : Prop where
  insts : g.insts = f.insts
  numArgs : g.numArgs = f.numArgs
  targets : ∀ s ∈ t.successors, f.hasBlock s = true
  was : ∃ bb, f.block? b = some bb ∧ bb.terminator = none
  block : ∀ c, g.block? c = (f.block? c).map fun bb =>
    { bb with
      terminator := if c = b then some t else bb.terminator
      preds := if c ∈ t.successors then (bb.addPred b).preds else bb.preds }

lemma setTerminator_ok {f g : Func} {b : BlockId} {t : Terminator}
    (h : f.setTerminator b t = .ok g) : Terminated f g b t := by
  unfold setTerminator at h
  split at h
  · cases h
  · rename_i hfind
    obtain ⟨bb, hbb, h⟩ := except_bind_ok.1 h
    have hb := block?_of_getBlock hbb
    cases hterm : bb.terminator with
    | some t' =>
      rw [hterm] at h
      cases h
    | none =>
      rw [hterm] at h
      cases h
      refine ⟨inst?_addPreds .., numArgs_addPreds .., ?_, ⟨bb, hb, hterm⟩, ?_⟩
      · intro s hs
        have := List.find?_eq_none.1 hfind s hs
        simpa using this
      · intro c
        rw [block?_addPreds, block?_modifyBlock]
        cases f.block? c with
        | none => simp
        | some cc =>
          by_cases hc : b = c
          · subst hc
            simp only [if_true, Option.map_some, Block.addPred]
            split
            · split <;> rfl
            · rfl
          · simp [hc, Ne.symm hc]

namespace Terminated

variable {f g : Func} {b : BlockId} {t : Terminator}

lemma inst? (h : Terminated f g b t) (i : InstId) : g.inst? i = f.inst? i := by
  unfold Func.inst?
  rw [h.insts]

lemma capacity (h : Terminated f g b t) : g.instCapacity = f.instCapacity := by
  unfold instCapacity
  rw [h.insts]

lemma of_block (h : Terminated f g b t) {c : BlockId} {cc : Block} (hc : g.block? c = some cc) :
    ∃ old, f.block? c = some old ∧ cc =
      { old with
        terminator := if c = b then some t else old.terminator
        preds := if c ∈ t.successors then (old.addPred b).preds else old.preds } := by
  rw [h.block] at hc
  obtain ⟨old, hold, rfl⟩ := Option.map_eq_some_iff.1 hc
  exact ⟨old, hold, rfl⟩

lemma hasBlock_eq (h : Terminated f g b t) (c : BlockId) : g.hasBlock c = f.hasBlock c :=
  hasBlock_eq_of_map (h.block c)

/-- The block was there, and led nowhere yet. -/
lemma hasBlock (h : Terminated f g b t) : f.hasBlock b = true := by
  obtain ⟨bb, hbb, -⟩ := h.was
  exact hasBlock_of_block hbb

lemma succs_before (h : Terminated f g b t) : f.succs b = [] := by
  obtain ⟨bb, hbb, hterm⟩ := h.was
  rw [succs_of_block hbb, Block.successors, hterm]
  rfl

lemma succs_eq (h : Terminated f g b t) (c : BlockId) :
    g.succs c = if c = b then t.successors else f.succs c := by
  split
  · rename_i hc
    subst hc
    obtain ⟨bb, hbb, -⟩ := h.was
    exact succs_of_terminator ((h.block c).trans (congrArg _ hbb)) (if_pos rfl)
  · rename_i hc
    exact succs_eq_of_map (h.block c) fun bb => by simp [Block.successors, hc]

lemma preds_eq (h : Terminated f g b t) {c : BlockId} (hc : c ∉ t.successors) :
    g.preds c = f.preds c :=
  preds_eq_of_map (h.block c) fun _ => if_neg hc

/-- A target of the terminator has the block among its predecessors. -/
lemma preds_target (h : Terminated f g b t) {c : BlockId} (hc : c ∈ t.successors) :
    ∃ cc, f.block? c = some cc ∧ g.preds c = (cc.addPred b).preds := by
  obtain ⟨cc, hcc⟩ := Option.isSome_iff_exists.1 (h.targets c hc)
  exact ⟨cc, hcc, (preds_of_block ((h.block c).trans (congrArg _ hcc))).trans (if_pos hc)⟩

lemma mem_preds_iff (h : Terminated f g b t) {c p : BlockId} :
    p ∈ g.preds c ↔ p ∈ f.preds c ∨ (p = b ∧ c ∈ t.successors) := by
  by_cases hc : c ∈ t.successors
  · obtain ⟨cc, hcc, hpreds⟩ := h.preds_target hc
    rw [hpreds, preds_of_block hcc, Block.mem_preds_addPred, and_iff_left hc]
  · rw [h.preds_eq hc]
    simp [hc]

lemma nodup_preds (h : Terminated f g b t) {c : BlockId} (hc : (f.preds c).Nodup) :
    (g.preds c).Nodup := by
  by_cases hmem : c ∈ t.successors
  · obtain ⟨cc, hcc, hpreds⟩ := h.preds_target hmem
    rw [hpreds]
    exact cc.nodup_addPred (preds_of_block hcc ▸ hc) b
  · rwa [h.preds_eq hmem]

end Terminated

end Func

end SsaBackend
