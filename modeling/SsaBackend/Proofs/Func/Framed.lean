import SsaBackend.Proofs.Func.Phi
import SsaBackend.Proofs.Func.Strict

/-!
# Functions in the course of being edited

The checks hold of a function before and after a pass, but not between the edits that the pass
is made of. What does hold all the time is `Func.Wired`: listed instructions belong to the
block that lists them, phis have one operand per listed predecessor, and edges are listed where
they lead to. Taking blocks away leaves edges that lead nowhere and listed predecessors that are
gone; a function without such loose ends is `Func.Tight`. Together with operands that exist,
that is all the checks ask for. Most passes also rely on an entry without predecessors; a wired
function with such an entry is `Func.Framed` (`Func.verify_iff`).
-/

namespace SsaBackend

namespace Func

/-- The tables agree, loose ends of removed blocks and edges apart. -/
structure Wired (f : Func) : Prop where
  start : ∃ bb, f.block? f.entry = some bb
  ended : ∀ b bb, f.block? b = some bb → ∃ t, bb.terminator = some t
  linked : ∀ b s ss, f.block? s = some ss → s ∈ f.succs b → b ∈ ss.preds
  predsOnce : ∀ b bb, f.block? b = some bb → bb.preds.Nodup
  phis : ∀ b bb, f.block? b = some bb → ∀ i ∈ bb.phis, ∃ node, f.inst? i = some ⟨.phi node, b⟩ ∧
    node.blocks.Perm bb.preds
  body : ∀ b bb, f.block? b = some bb → ∀ i ∈ bb.body, ∃ p, f.inst? i = some p ∧ p.block = b ∧
    p.inst.isPhi = false

/-- The tables agree, and the entry has no predecessors. -/
structure Framed (f : Func) : Prop extends Wired f where
  source : f.preds f.entry = []

/-- Listed predecessors have their edge, and edges lead to blocks. -/
structure Tight (f : Func) : Prop where
  edges : ∀ b s, b ∈ f.preds s → s ∈ f.succs b
  targets : ∀ b s, s ∈ f.succs b → ∃ ss, f.block? s = some ss

/-- An operand names something that exists. -/
def Knows (f : Func) : Value → Prop
  | .inst i => ∃ p, f.inst? i = some p
  | .arg n => n < f.numArgs
  | _ => True

/-- All operands of the blocks name something that exists. -/
def OperandsKnown (f : Func) : Prop :=
  ∀ b bb, f.block? b = some bb → ∀ v ∈ f.blockOperands bb, f.Knows v

/-- All arguments among the operands of the blocks are arguments of the function. -/
def ArgsKnown (f : Func) : Prop :=
  ∀ b bb, f.block? b = some bb → ∀ n, Value.arg n ∈ f.blockOperands bb → n < f.numArgs

lemma OperandsKnown.args {f : Func} (h : f.OperandsKnown) : f.ArgsKnown :=
  fun b bb hb n hn => h b bb hb (.arg n) hn

/-- An instruction that is a phi is found as one. -/
lemma phi?_of_inst {f : Func} {i : InstId} {node : Phi} {b : BlockId}
    (h : f.inst? i = some ⟨.phi node, b⟩) : f.phi? i = some node := by
  unfold phi?
  rw [h]
  rfl

lemma verifyOperand_ok {f : Func} {b : BlockId} {v : Value} :
    f.verifyOperand b v = .ok () ↔ f.Knows v := by
  cases v with
  | inst i =>
    unfold verifyOperand Knows
    rw [require_ok, Option.isSome_iff_exists]
  | arg n =>
    unfold verifyOperand Knows
    rw [require_ok, decide_eq_true_iff]
  | const c => exact ⟨fun _ => trivial, fun _ => rfl⟩
  | undef => exact ⟨fun _ => trivial, fun _ => rfl⟩

lemma mem_blockOperands {f : Func} {bb : Block} {v : Value} :
    v ∈ f.blockOperands bb ↔ (∃ i ∈ bb.insts, ∃ p, f.inst? i = some p ∧ v ∈ p.inst.operands) ∨
      ∃ t, bb.terminator = some t ∧ v ∈ t.operands := by
  unfold blockOperands
  rw [List.mem_append, List.mem_flatMap]
  constructor
  · rintro (⟨p, hp, hv⟩ | hv)
    · obtain ⟨i, hi, hip⟩ := List.mem_filterMap.1 hp
      exact .inl ⟨i, hi, p, hip, hv⟩
    · cases ht : bb.terminator with
      | none =>
        rw [ht] at hv
        cases hv
      | some t =>
        rw [ht] at hv
        exact .inr ⟨t, rfl, hv⟩
  · rintro (⟨i, hi, p, hp, hv⟩ | ⟨t, ht, hv⟩)
    · exact .inl ⟨p, List.mem_filterMap.2 ⟨i, hi, hp⟩, hv⟩
    · rw [ht]
      exact .inr hv

/-! ## Listed instructions -/

namespace Wired

variable {f : Func}

/-- An instruction belongs to the block that lists it. -/
lemma block_of_lists (h : f.Wired) {b : BlockId} {i : InstId} (hi : f.Lists b i) :
    ∃ p, f.inst? i = some p ∧ p.block = b := by
  obtain ⟨bb, hb, hi⟩ := hi
  rcases List.mem_append.1 hi with hi | hi
  · obtain ⟨node, hnode, -⟩ := h.phis b bb hb i hi
    exact ⟨_, hnode, rfl⟩
  · obtain ⟨p, hp, hblock, -⟩ := h.body b bb hb i hi
    exact ⟨p, hp, hblock⟩

/-- No two blocks list one instruction. -/
lemma lists_unique (h : f.Wired) {b c : BlockId} {i : InstId} (hb : f.Lists b i)
    (hc : f.Lists c i) : b = c := by
  obtain ⟨p, hp, hpb⟩ := h.block_of_lists hb
  obtain ⟨q, hq, hqc⟩ := h.block_of_lists hc
  rw [hp] at hq
  cases hq
  rw [← hpb, hqc]

/-- No block lists one instruction both as a phi and in its body. -/
lemma not_mem_phis (h : f.Wired) {b : BlockId} {bb : Block} (hb : f.block? b = some bb)
    {i : InstId} (hi : i ∈ bb.body) : i ∉ bb.phis := by
  intro hphi
  obtain ⟨p, hp, -, hnot⟩ := h.body b bb hb i hi
  obtain ⟨node, hnode, -⟩ := h.phis b bb hb i hphi
  rw [hp] at hnode
  cases hnode
  cases hnot

/-- A phi has an operand for every edge to its block. -/
lemma incoming (h : f.Wired) {b p : BlockId} {bb : Block} (hb : f.block? b = some bb)
    {i : InstId} (hi : i ∈ bb.phis) {node : Phi} (hnode : f.phi? i = some node)
    (hedge : b ∈ f.succs p) : ∃ v, node.incoming? p = some v := by
  obtain ⟨node', hnode', hperm⟩ := h.phis b bb hb i hi
  rw [phi?_of_inst hnode'] at hnode
  cases hnode
  exact Phi.exists_incoming? (hperm.mem_iff.2 (h.linked p b bb hb hedge))

end Wired

namespace Framed

variable {f : Func}

lemma entry (h : f.Framed) : ∃ bb, f.block? f.entry = some bb ∧ bb.preds = [] := by
  obtain ⟨bb, hb⟩ := h.start
  exact ⟨bb, hb, (preds_of_block hb).symm.trans h.source⟩

end Framed

/-- The control-flow graph of a wired function without loose ends stays among its blocks. -/
lemma Wired.consistent {f : Func} (hf : f.Wired) (ht : f.Tight) : f.cfg.Consistent := by
  refine cfg_consistent hf.start fun b s => ⟨fun hs => ?_, ht.edges b s⟩
  obtain ⟨ss, hss⟩ := ht.targets b s hs
  rw [preds_of_block hss]
  exact hf.linked b s ss hss hs

/-! ## What the checks ask for -/

/-- One operand per predecessor, as the checks count it. -/
lemma perm_blocks {node : Phi} {preds : List BlockId} (hnodup : preds.Nodup) :
    (node.arity = preds.length ∧ ∀ p ∈ preds, (node.incoming? p).isSome = true) ↔
      node.blocks.Perm preds := by
  have hlen : node.blocks.length = node.arity := List.length_map ..
  constructor
  · rintro ⟨harity, hall⟩
    have hsub : preds ⊆ node.blocks := fun p hp => Phi.isSome_incoming?.1 (hall p hp)
    exact ((hnodup.subperm hsub).perm_of_length_le (by omega)).symm
  · intro hperm
    refine ⟨by rw [← hlen, hperm.length_eq], ?_⟩
    intro p hp
    exact Phi.isSome_incoming?.2 (hperm.mem_iff.2 hp)

/-- A function that passes the checks is wired, tight and knows its operands. -/
lemma wired_of_verify {f : Func} (h : f.verify = .ok ()) :
    f.Wired ∧ f.Tight ∧ f.OperandsKnown := by
  have hv := verified_of_verify h
  have honce : ∀ b bb, f.block? b = some bb → bb.preds.Nodup := by
    intro b bb hb
    exact preds_of_block hb ▸ hv.predsOnce b
  refine ⟨⟨hv.entry, hv.ended, ?_, honce, ?_, hv.body⟩, ⟨fun b s => (hv.linked b s).2, ?_⟩, ?_⟩
  · intro b s ss hs hedge
    exact preds_of_block hs ▸ (hv.linked b s).1 hedge
  · intro b bb hb i hi
    obtain ⟨node, hnode, hmatch⟩ := hv.phis b bb hb i hi
    exact ⟨node, hnode, (perm_blocks (honce b bb hb)).1 hmatch⟩
  · intro b s hs
    exact hv.exists_block hs
  · intro b bb hb v hvmem
    unfold verify at h
    obtain ⟨_, -, h⟩ := except_bind_ok.1 h
    obtain ⟨_, -, -, -, -, -, hops⟩ := verifyBlock_ok (forM_ok.1 h (b, bb) (mem_liveBlocks.2 hb))
    exact verifyOperand_ok.1 (hops v hvmem)

lemma framed_of_verify {f : Func} (h : f.verify = .ok ()) (hentry : f.preds f.entry = []) :
    f.Framed ∧ f.Tight ∧ f.OperandsKnown := by
  obtain ⟨hf, ht, hk⟩ := wired_of_verify h
  exact ⟨⟨hf, hentry⟩, ht, hk⟩

lemma verifyPreds_of {f : Func} {b : BlockId} {seen l : List BlockId} (hnodup : l.Nodup)
    (hseen : ∀ p ∈ l, p ∉ seen) (hedge : ∀ p ∈ l, b ∈ f.succs p) :
    f.verifyPreds b seen l = .ok () := by
  induction l generalizing seen with
  | nil => rfl
  | cons p rest ih =>
    obtain ⟨hp, hrest⟩ := List.nodup_cons.1 hnodup
    unfold verifyPreds
    refine except_bind_ok.2 ⟨(), require_ok.2 ?_, except_bind_ok.2 ⟨(), require_ok.2 ?_, ?_⟩⟩
    · simpa using hseen p List.mem_cons_self
    · simpa using hedge p List.mem_cons_self
    · refine ih hrest ?_ fun q hq => hedge q (List.mem_cons_of_mem _ hq)
      intro q hq hmem
      rcases List.mem_cons.1 hmem with rfl | hmem
      · exact hp hq
      · exact hseen q (List.mem_cons_of_mem _ hq) hmem

/-- The checks find nothing in such a function. -/
lemma verify_of_wired {f : Func} (hf : f.Wired) (ht : f.Tight) (hk : f.OperandsKnown) :
    f.verify = .ok () := by
  have hentry : f.hasBlock f.entry = true := by
    obtain ⟨bb, hb⟩ := hf.start
    exact hasBlock_of_block hb
  refine except_bind_ok.2 ⟨(), require_ok.2 hentry, forM_ok.2 ?_⟩
  rintro ⟨b, bb⟩ hmem
  have hb := mem_liveBlocks.1 hmem
  obtain ⟨t, hterm⟩ := hf.ended b bb hb
  have hsuccs : f.succs b = t.successors := succs_of_terminator hb hterm
  have hedges : ∀ p ∈ bb.preds, b ∈ f.succs p := by
    intro p hp
    apply ht.edges
    rwa [preds_of_block hb]
  unfold verifyBlock
  rw [hterm]
  refine except_bind_ok.2 ⟨(), forM_ok.2 ?_, except_bind_ok.2 ⟨(),
    verifyPreds_of (hf.predsOnce b bb hb) (by simp) hedges, except_bind_ok.2 ⟨(), forM_ok.2 ?_,
      except_bind_ok.2 ⟨(), forM_ok.2 ?_, forM_ok.2 ?_⟩⟩⟩⟩
  · intro s hs
    rw [← hsuccs] at hs
    obtain ⟨ss, hss⟩ := ht.targets b s hs
    have := hf.linked b s ss hss hs
    exact require_ok.2 (by simpa [preds, hss] using this)
  · intro i hi
    obtain ⟨node, hnode, hperm⟩ := hf.phis b bb hb i hi
    obtain ⟨harity, hall⟩ := (perm_blocks (hf.predsOnce b bb hb)).2 hperm
    unfold verifyPhi
    rw [hnode]
    simp only [Option.filter_some, decide_true, if_true, Option.bind_some, Inst.phi?]
    exact require_ok.2 (by simpa [harity] using hall)
  · intro i hi
    obtain ⟨p, hp, hblock, hphi⟩ := hf.body b bb hb i hi
    exact require_ok.2 (by simp [hp, hblock, hphi])
  · intro v hv
    exact verifyOperand_ok.2 (hk b bb hb v hv)

theorem verify_iff {f : Func} : (f.verify = .ok () ∧ f.preds f.entry = []) ↔
    f.Framed ∧ f.Tight ∧ f.OperandsKnown := by
  constructor
  · rintro ⟨hv, hentry⟩
    exact framed_of_verify hv hentry
  · rintro ⟨hf, ht, hk⟩
    exact ⟨verify_of_wired hf.toWired ht hk, hf.source⟩

end Func

end SsaBackend
