import Mathlib.Data.List.Nodup
import SsaBackend.Func.Cfg
import SsaBackend.Func.Verify
import SsaBackend.Proofs.Func.Blocks
import SsaBackend.Proofs.Graph.SpanWalk
import SsaBackend.Proofs.Work

/-!
# What the structural checks establish

`Func.Verified` says in one place what holds of a function that `Func.verify` accepts, and
`Func.verified_of_verify` that it does. In particular the lists of predecessors are the reverse
of the edges, so that the control-flow graph is one that dominators are computed for
(`Func.Verified.consistent`).
-/

namespace SsaBackend

namespace Func

/-- The blocks that are listed are those that are there. -/
lemma mem_liveBlocks {f : Func} {b : BlockId} {bb : Block} :
    (b, bb) ∈ f.liveBlocks ↔ f.block? b = some bb := by
  unfold liveBlocks
  rw [List.mem_filterMap]
  constructor
  · intro h
    obtain ⟨i, -, hi⟩ := h
    obtain ⟨x, hx, he⟩ := Option.map_eq_some_iff.1 hi
    cases he
    exact hx
  · intro h
    refine ⟨b.index, ?_, by rw [h, Option.map_some]⟩
    exact List.mem_range.2 (lt_blockCapacity h)

lemma blockIds_eq (f : Func) : f.blockIds =
    ((List.range f.blockCapacity).filter fun i => f.hasBlock ⟨i⟩).map BlockId.mk := by
  unfold blockIds liveBlocks
  generalize List.range f.blockCapacity = l
  induction l with
  | nil => rfl
  | cons i rest ih =>
    rw [List.filterMap_cons, List.filter_cons]
    unfold hasBlock at ih ⊢
    cases f.block? ⟨i⟩ with
    | none => simpa using ih
    | some bb => simpa using ih

lemma nodup_blockIds (f : Func) : f.blockIds.Nodup := by
  rw [blockIds_eq]
  refine List.Nodup.map ?_ (List.nodup_range.filter _)
  intro a b h
  exact BlockId.mk.inj h

lemma mem_blockIds {f : Func} {b : BlockId} : b ∈ f.blockIds ↔ f.hasBlock b = true := by
  unfold blockIds hasBlock
  rw [List.mem_map, Option.isSome_iff_exists]
  constructor
  · rintro ⟨⟨c, cc⟩, hmem, rfl⟩
    exact ⟨cc, mem_liveBlocks.1 hmem⟩
  · rintro ⟨bb, hb⟩
    exact ⟨(b, bb), mem_liveBlocks.2 hb, rfl⟩

/-- What holds of a function that passes the checks. -/
structure Verified (f : Func) : Prop where
  entry : ∃ bb, f.block? f.entry = some bb
  ended : ∀ b bb, f.block? b = some bb → ∃ t, bb.terminator = some t
  /-- Edges and predecessors agree. -/
  linked : ∀ b s, s ∈ f.succs b ↔ b ∈ f.preds s
  predsOnce : ∀ b, (f.preds b).Nodup
  phis : ∀ b bb, f.block? b = some bb → ∀ i ∈ bb.phis, ∃ node, f.inst? i = some ⟨.phi node, b⟩ ∧
    node.arity = bb.preds.length ∧ ∀ p ∈ bb.preds, (node.incoming? p).isSome = true
  body : ∀ b bb, f.block? b = some bb → ∀ i ∈ bb.body, ∃ p, f.inst? i = some p ∧ p.block = b ∧
    p.inst.isPhi = false
  /-- Operands name instructions that are there. -/
  operands : ∀ b bb, f.block? b = some bb → ∀ i, Value.inst i ∈ f.blockOperands bb →
    ∃ p, f.inst? i = some p

/-! ## Reading the checks -/

lemma require_ok {f : Func} {cond : Bool} {defect : FuncDefect} :
    f.require cond defect = .ok () ↔ cond = true := by
  unfold require
  cases cond <;> simp

lemma verifyPreds_ok {f : Func} {b : BlockId} {seen preds : List BlockId}
    (h : f.verifyPreds b seen preds = .ok ()) :
    preds.Nodup ∧ (∀ p ∈ preds, p ∉ seen) ∧ ∀ p ∈ preds, b ∈ f.succs p := by
  induction preds generalizing seen with
  | nil => simp
  | cons p rest ih =>
    unfold verifyPreds at h
    obtain ⟨_, hnew, h⟩ := except_bind_ok.1 h
    obtain ⟨_, hedge, h⟩ := except_bind_ok.1 h
    have hnew' : p ∉ seen := by simpa using require_ok.1 hnew
    have hedge' : b ∈ f.succs p := by simpa using require_ok.1 hedge
    obtain ⟨hnodup, hdisj, hall⟩ := ih h
    refine ⟨List.nodup_cons.2 ⟨?_, hnodup⟩, ?_, ?_⟩
    · intro hp
      exact hdisj p hp (List.mem_cons_self ..)
    · intro q hq
      rcases List.mem_cons.1 hq with he | hq
      · exact he ▸ hnew'
      · exact fun hs => hdisj q hq (List.mem_cons_of_mem _ hs)
    · intro q hq
      rcases List.mem_cons.1 hq with he | hq
      · exact he ▸ hedge'
      · exact hall q hq

lemma verifyPhi_ok {f : Func} {b : BlockId} {preds : List BlockId} {i : InstId}
    (h : f.verifyPhi b preds i = .ok ()) :
    ∃ node, f.inst? i = some ⟨.phi node, b⟩ ∧ node.arity = preds.length ∧
      ∀ p ∈ preds, (node.incoming? p).isSome = true := by
  unfold verifyPhi at h
  split at h
  · have := require_ok.1 h
    cases this
  · rename_i node hnode
    obtain ⟨p, hp, hphi⟩ := Option.bind_eq_some_iff.1 hnode
    obtain ⟨hp, hblock⟩ := Option.filter_eq_some_iff.1 hp
    have hcond := require_ok.1 h
    rw [Bool.and_eq_true, decide_eq_true_eq, List.all_eq_true] at hcond
    refine ⟨node, ?_, hcond.1, hcond.2⟩
    obtain ⟨inst, blk⟩ := p
    have hb : blk = b := by simpa using hblock
    cases inst with
    | phi nd =>
      cases hphi
      rw [hp, hb]
    | _ => cases hphi

lemma verifyBlock_ok {f : Func} {b : BlockId} {bb : Block} (h : f.verifyBlock b bb = .ok ()) :
    ∃ t, bb.terminator = some t ∧ (∀ s ∈ t.successors, b ∈ f.preds s) ∧
      f.verifyPreds b [] bb.preds = .ok () ∧ (∀ i ∈ bb.phis, f.verifyPhi b bb.preds i = .ok ()) ∧
      (∀ i ∈ bb.body, f.verifyInst b i = .ok ()) ∧
      ∀ v ∈ f.blockOperands bb, f.verifyOperand b v = .ok () := by
  unfold verifyBlock at h
  split at h
  · have := require_ok.1 h
    cases this
  · rename_i t ht
    obtain ⟨_, hsuccs, h⟩ := except_bind_ok.1 h
    obtain ⟨_, hpreds, h⟩ := except_bind_ok.1 h
    obtain ⟨_, hphis, h⟩ := except_bind_ok.1 h
    obtain ⟨_, hbody, hops⟩ := except_bind_ok.1 h
    refine ⟨t, ht, ?_, hpreds, forM_ok.1 hphis, forM_ok.1 hbody, forM_ok.1 hops⟩
    intro s hs
    have := require_ok.1 (forM_ok.1 hsuccs s hs)
    simpa using this

/-- A function that passes the checks is as they say. -/
theorem verified_of_verify {f : Func} (h : f.verify = .ok ()) : f.Verified := by
  unfold verify at h
  obtain ⟨_, hentry, h⟩ := except_bind_ok.1 h
  have hblock : ∀ b bb, f.block? b = some bb → f.verifyBlock b bb = .ok () := by
    intro b bb hb
    exact forM_ok.1 h (b, bb) (mem_liveBlocks.2 hb)
  refine ⟨?_, ?_, ?_, ?_, ?_, ?_, ?_⟩
  · exact Option.isSome_iff_exists.1 (require_ok.1 hentry)
  · intro b bb hb
    obtain ⟨t, ht, -⟩ := verifyBlock_ok (hblock b bb hb)
    exact ⟨t, ht⟩
  · intro b s
    constructor
    · -- an edge was checked at its source
      intro hs
      obtain ⟨bb, hb⟩ := exists_block_of_succ hs
      obtain ⟨t, ht, hsuccs, -⟩ := verifyBlock_ok (hblock b bb hb)
      rw [succs_of_terminator hb ht] at hs
      exact hsuccs s hs
    · -- a predecessor was checked at the block that lists it
      intro hp
      obtain ⟨bb, hs⟩ := exists_block_of_pred hp
      obtain ⟨t, ht, -, hpreds, -⟩ := verifyBlock_ok (hblock s bb hs)
      rw [preds_of_block hs] at hp
      exact (verifyPreds_ok hpreds).2.2 b hp
  · intro b
    cases hb : f.block? b with
    | none =>
      rw [preds_of_missing hb]
      exact List.nodup_nil
    | some bb =>
      obtain ⟨t, ht, -, hpreds, -⟩ := verifyBlock_ok (hblock b bb hb)
      rw [preds_of_block hb]
      exact (verifyPreds_ok hpreds).1
  · intro b bb hb i hi
    obtain ⟨t, ht, -, -, hphis, -⟩ := verifyBlock_ok (hblock b bb hb)
    exact verifyPhi_ok (hphis i hi)
  · intro b bb hb i hi
    obtain ⟨t, ht, -, -, -, hbody, -⟩ := verifyBlock_ok (hblock b bb hb)
    have := require_ok.1 (hbody i hi)
    cases hp : f.inst? i with
    | none => simp [hp] at this
    | some p =>
      rw [hp] at this
      simp only [Option.any_some, Bool.and_eq_true, decide_eq_true_eq, Bool.not_eq_true'] at this
      exact ⟨p, rfl, this.1, this.2⟩
  · intro b bb hb i hi
    obtain ⟨t, ht, -, -, -, -, hops⟩ := verifyBlock_ok (hblock b bb hb)
    -- an operand was checked to be there
    have := require_ok.1 (hops (.inst i) hi)
    exact Option.isSome_iff_exists.1 this

/-! ## The control-flow graph -/

/-- An edge of the graph is a successor. -/
lemma edge_iff {f : Func} {b s : BlockId} : f.cfg.Edge b.index s.index ↔ s ∈ f.succs b := by
  show s.index ∈ (f.succs ⟨b.index⟩).map (·.index) ↔ _
  rw [List.mem_map]
  constructor
  · intro h
    obtain ⟨x, hx, he⟩ := h
    exact BlockId.index_inj.1 he ▸ hx
  · intro h
    exact ⟨s, h, rfl⟩

/-- Blocks that list predecessors or are successors are there. -/
lemma Verified.exists_block {f : Func} (h : f.Verified) {b s : BlockId} (hs : s ∈ f.succs b) :
    ∃ bb, f.block? s = some bb :=
  exists_block_of_pred ((h.linked b s).1 hs)

/-- With edges that are listed at both ends, the control-flow graph stays among the blocks, and its
two sides agree. -/
lemma cfg_consistent {f : Func} (hentry : ∃ bb, f.block? f.entry = some bb)
    (hlinked : ∀ b s, s ∈ f.succs b ↔ b ∈ f.preds s) : f.cfg.Consistent := by
  obtain ⟨bb, hb⟩ := hentry
  refine ⟨lt_blockCapacity hb, ?_, ?_⟩
  · intro m _ n hn
    obtain ⟨s, hs, rfl⟩ := List.mem_map.1 hn
    obtain ⟨ss, hss⟩ := exists_block_of_pred ((hlinked _ s).1 hs)
    exact lt_blockCapacity hss
  · intro m _ n _
    show m ∈ (f.preds ⟨n⟩).map (·.index) ↔ n ∈ (f.succs ⟨m⟩).map (·.index)
    rw [List.mem_map, List.mem_map]
    constructor
    · rintro ⟨p, hp, rfl⟩
      exact ⟨⟨n⟩, (hlinked p ⟨n⟩).2 hp, rfl⟩
    · rintro ⟨s, hs, rfl⟩
      exact ⟨⟨m⟩, (hlinked ⟨m⟩ s).1 hs, rfl⟩

lemma Verified.consistent {f : Func} (h : f.Verified) : f.cfg.Consistent :=
  cfg_consistent h.entry h.linked

end Func

end SsaBackend
