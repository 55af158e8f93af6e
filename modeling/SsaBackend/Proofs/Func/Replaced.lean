import SsaBackend.Proofs.Func.Dominated
import SsaBackend.Proofs.Func.PhiFold

/-!
# Putting a value in the place of an instruction

Constant operations and trivial phis are replaced by the value they amount to: every operand
that names the instruction becomes the value, and the instruction is removed (`Func.Replaced`).
That keeps the graph and the frame of the function. It keeps uses dominated if the value stands
for the instruction, that is, if what the value names is available wherever the instruction is
(`Func.StandsFor`). An operand of a computation stands for the computation
(`Func.standsFor_of_operand`), and so does the one value that a trivial phi merges
(`Func.standsFor_of_trivial`).
-/

namespace SsaBackend

namespace Func

/-- What replacing an instruction by a value does. -/
structure Replaced (f g : Func) (i : InstId) (v : Value) : Prop where
  inst : ∀ j, g.inst? j = if j = i then none else (f.inst? j).map fun p =>
    { p with inst := p.inst.mapOperands (Value.subst (.inst i) v) }
  block : ∀ b, g.block? b = (f.block? b).map fun bb =>
    { bb with
      phis := bb.phis.filter (· ≠ i)
      body := bb.body.filter (· ≠ i)
      terminator := bb.terminator.map (·.mapOperands (Value.subst (.inst i) v)) }
  capacity : g.blockCapacity = f.blockCapacity
  numArgs : g.numArgs = f.numArgs

/-- Where only the block of an instruction lists it, taking it out there takes it out
everywhere. -/
lemma replaced_of_lists {f : Func} {i : InstId}
    (h : ∀ b, f.Lists b i → ∃ p, f.inst? i = some p ∧ p.block = b) (v : Value) :
    Replaced f ((f.replaceUses i v).removeInst i) i v := by
  have hkeep : ∀ b bb, f.block? b = some bb → ¬ f.Lists b i →
      bb.phis.filter (· ≠ i) = bb.phis ∧ bb.body.filter (· ≠ i) = bb.body := by
    intro b bb hb hnot
    refine ⟨List.filter_eq_self.2 ?_, List.filter_eq_self.2 ?_⟩
    · intro x hx
      refine decide_eq_true ?_
      rintro rfl
      exact hnot ⟨bb, hb, List.mem_append_left _ hx⟩
    · intro x hx
      refine decide_eq_true ?_
      rintro rfl
      exact hnot ⟨bb, hb, List.mem_append_right _ hx⟩
  refine ⟨?_, ?_, ?_, ?_⟩
  · intro j
    rw [inst?_removeInst]
    split
    · rfl
    · exact inst?_mapOperands f _ j
  · intro b
    cases hi : f.inst? i with
    | none =>
      have hnone : (f.replaceUses i v).inst? i = none := by
        rw [replaceUses, inst?_mapOperands, hi, Option.map_none]
      rw [removeInst, hnone]
      show (f.mapOperands _).block? b = _
      rw [block?_mapOperands]
      cases hb : f.block? b with
      | none => rfl
      | some bb =>
        -- no block lists what is not there
        have hnot : ¬ f.Lists b i := by
          intro hl
          obtain ⟨p, hp, -⟩ := h b hl
          rw [hi] at hp
          cases hp
        obtain ⟨hphis, hbody⟩ := hkeep b bb hb hnot
        simp only [Option.map_some, hphis, hbody]
    | some p =>
      have hsome : (f.replaceUses i v).inst? i =
          some { p with inst := p.inst.mapOperands (Value.subst (.inst i) v) } := by
        rw [replaceUses, inst?_mapOperands, hi, Option.map_some]
      rw [block?_removeInst hsome, replaceUses, block?_mapOperands]
      cases hb : f.block? b with
      | none => simp
      | some bb =>
        by_cases hpb : p.block = b
        · simp only [if_pos hpb, Option.map_some, Block.unlist]
        · have hnot : ¬ f.Lists b i := by
            intro hl
            obtain ⟨q, hq, hqb⟩ := h b hl
            rw [hi] at hq
            cases hq
            exact hpb hqb
          obtain ⟨hphis, hbody⟩ := hkeep b bb hb hnot
          simp only [if_neg hpb, Option.map_some, hphis, hbody]
  · unfold removeInst
    split <;> simp [blockCapacity, replaceUses, mapOperands, modifyBlock, clearInst]
  · unfold removeInst
    split <;> rfl

lemma Framed.replaced {f : Func} (h : f.Framed) (i : InstId) (v : Value) :
    Replaced f ((f.replaceUses i v).removeInst i) i v :=
  replaced_of_lists (fun _ hl => h.block_of_lists hl) v

namespace Replaced

variable {f g : Func} {i : InstId} {v : Value}

/-! ## The graph -/

lemma hasBlock_eq (h : Replaced f g i v) (b : BlockId) : g.hasBlock b = f.hasBlock b :=
  hasBlock_eq_of_map (h.block b)

lemma preds_eq (h : Replaced f g i v) (b : BlockId) : g.preds b = f.preds b :=
  preds_eq_of_map (h.block b) fun _ => rfl

lemma succs_eq (h : Replaced f g i v) (b : BlockId) : g.succs b = f.succs b :=
  succs_eq_of_map (h.block b) fun bb => by cases ht : bb.terminator <;> simp [Block.successors, ht]

lemma cfg_eq (h : Replaced f g i v) : g.cfg = f.cfg := by
  unfold cfg
  simp only [h.succs_eq, h.preds_eq, h.capacity]
  rfl

lemma reached_iff (h : Replaced f g i v) (b : BlockId) : g.Reached b ↔ f.Reached b := by
  unfold Func.Reached
  rw [h.cfg_eq]

lemma dom_iff (h : Replaced f g i v) (d b : BlockId) : g.Dom d b ↔ f.Dom d b := by
  unfold Func.Dom
  rw [h.cfg_eq]

lemma block_eq (h : Replaced f g i v) {b : BlockId} {bb : Block} (hb : f.block? b = some bb) :
    g.block? b = some { bb with
      phis := bb.phis.filter (· ≠ i)
      body := bb.body.filter (· ≠ i)
      terminator := bb.terminator.map (·.mapOperands (Value.subst (.inst i) v)) } := by
  rw [h.block, hb]
  rfl

lemma inst_eq (h : Replaced f g i v) {j : InstId} {p : PlacedInst} (hp : f.inst? j = some p)
    (hne : j ≠ i) :
    g.inst? j = some { p with inst := p.inst.mapOperands (Value.subst (.inst i) v) } := by
  rw [h.inst, if_neg hne, hp]
  rfl

lemma block_inv (h : Replaced f g i v) {b : BlockId} {bb' : Block} (hb : g.block? b = some bb') :
    ∃ bb, f.block? b = some bb ∧ bb'.phis = bb.phis.filter (· ≠ i) ∧
      bb'.body = bb.body.filter (· ≠ i) ∧ bb'.preds = bb.preds ∧
      bb'.terminator = bb.terminator.map (·.mapOperands (Value.subst (.inst i) v)) := by
  rw [h.block] at hb
  obtain ⟨bb, hbb, rfl⟩ := Option.map_eq_some_iff.1 hb
  exact ⟨bb, hbb, rfl, rfl, rfl, rfl⟩

lemma inst_inv (h : Replaced f g i v) {j : InstId} {q : PlacedInst} (hq : g.inst? j = some q) :
    j ≠ i ∧ ∃ p, f.inst? j = some p ∧ q.block = p.block ∧
      q.inst = p.inst.mapOperands (Value.subst (.inst i) v) := by
  rw [h.inst] at hq
  split at hq
  · cases hq
  · rename_i hne
    obtain ⟨p, hp, rfl⟩ := Option.map_eq_some_iff.1 hq
    exact ⟨hne, p, hp, rfl, rfl⟩

lemma phi_inv (h : Replaced f g i v) {j : InstId} {node' : Phi} (hj : g.phi? j = some node') :
    ∃ node, f.phi? j = some node ∧ node' = node.mapValues (Value.subst (.inst i) v) := by
  obtain ⟨q, hq, hphi⟩ := Option.bind_eq_some_iff.1 hj
  obtain ⟨-, p, hp, -, hinst⟩ := h.inst_inv hq
  rw [hinst, Inst.phi?_mapOperands] at hphi
  obtain ⟨node, hnode, rfl⟩ := Option.map_eq_some_iff.1 hphi
  refine ⟨node, ?_, rfl⟩
  unfold phi?
  rw [hp, Option.bind_some, hnode]

lemma framed (h : Replaced f g i v) (hf : f.Framed) : g.Framed := by
  refine ⟨⟨?_, ?_, ?_, ?_, ?_, ?_⟩, (h.preds_eq _).trans hf.source⟩
  · obtain ⟨bb, hb⟩ := hf.start
    exact ⟨_, h.block_eq hb⟩
  · intro b bb' hb'
    obtain ⟨bb, hb, -, -, -, hterm⟩ := h.block_inv hb'
    obtain ⟨t, ht⟩ := hf.ended b bb hb
    exact ⟨_, by rw [hterm, ht, Option.map_some]⟩
  · intro b s ss' hs' hedge
    obtain ⟨ss, hs, -, -, hpreds, -⟩ := h.block_inv hs'
    rw [h.succs_eq] at hedge
    exact hpreds ▸ hf.linked b s ss hs hedge
  · intro b bb' hb'
    obtain ⟨bb, hb, -, -, hpreds, -⟩ := h.block_inv hb'
    exact hpreds ▸ hf.predsOnce b bb hb
  · intro b bb' hb' k hk
    obtain ⟨bb, hb, hphis, -, hpreds, -⟩ := h.block_inv hb'
    rw [hphis, List.mem_filter] at hk
    obtain ⟨node, hnode, hperm⟩ := hf.phis b bb hb k hk.1
    refine ⟨node.mapValues (Value.subst (.inst i) v), h.inst_eq hnode (by simpa using hk.2), ?_⟩
    · rw [Phi.blocks_mapValues, hpreds]
      exact hperm
  · intro b bb' hb' k hk
    obtain ⟨bb, hb, -, hbody, -, -⟩ := h.block_inv hb'
    rw [hbody, List.mem_filter] at hk
    obtain ⟨p, hp, hblock, hphi⟩ := hf.body b bb hb k hk.1
    exact ⟨_, h.inst_eq hp (by simpa using hk.2), hblock, by rw [Inst.isPhi_mapOperands, hphi]⟩

/-! ## Operands -/

/-- The operands are those there were, with the value in the place of the instruction. -/
lemma mem_operands (h : Replaced f g i v) {b : BlockId} {bb' : Block} (hb' : g.block? b = some bb')
    {w : Value} (hw : w ∈ g.blockOperands bb') :
    ∃ bb, f.block? b = some bb ∧ ∃ u ∈ f.blockOperands bb, w = Value.subst (.inst i) v u := by
  obtain ⟨bb, hb, hphis, hbody, -, hterm⟩ := h.block_inv hb'
  refine ⟨bb, hb, ?_⟩
  rcases mem_blockOperands.1 hw with ⟨k, hk, q, hq, hmem⟩ | ⟨t', ht', hmem⟩
  · obtain ⟨-, p, hp, -, hinst⟩ := h.inst_inv hq
    rw [hinst, Inst.operands_mapOperands] at hmem
    obtain ⟨u, hu, rfl⟩ := List.mem_map.1 hmem
    refine ⟨u, mem_blockOperands.2 (.inl ⟨k, ?_, p, hp, hu⟩), rfl⟩
    unfold Block.insts at hk ⊢
    rw [hphis, hbody, ← List.filter_append] at hk
    exact (List.mem_filter.1 hk).1
  · rw [hterm] at ht'
    obtain ⟨t, ht, rfl⟩ := Option.map_eq_some_iff.1 ht'
    rw [Terminator.operands_mapOperands] at hmem
    obtain ⟨u, hu, rfl⟩ := List.mem_map.1 hmem
    exact ⟨u, mem_blockOperands.2 (.inr ⟨t, ht, hu⟩), rfl⟩

/-- Operands still exist if the value does and is not the instruction itself. -/
lemma operandsKnown (h : Replaced f g i v) (hk : f.OperandsKnown) (hv : f.Knows v)
    (hne : v ≠ .inst i) : g.OperandsKnown := by
  have hkeep : ∀ u, f.Knows u → u ≠ .inst i → g.Knows u := by
    intro u hu hui
    cases u with
    | inst j =>
      obtain ⟨p, hp⟩ := hu
      have hj : j ≠ i := fun he => hui (congrArg _ he)
      exact ⟨_, h.inst_eq hp hj⟩
    | arg n =>
      show n < g.numArgs
      rw [h.numArgs]
      exact hu
    | const c => trivial
    | undef => trivial
  intro b bb' hb' w hw
  obtain ⟨bb, hb, u, hu, rfl⟩ := h.mem_operands hb' hw
  unfold Value.subst
  split
  · exact hkeep v hv hne
  · rename_i hui
    exact hkeep u (hk b bb hb u hu) hui

lemma argsKnown (h : Replaced f g i v) (hk : f.ArgsKnown) (hv : ∀ n, v = .arg n → n < f.numArgs) :
    g.ArgsKnown := by
  intro b bb' hb' n hn
  obtain ⟨bb, hb, u, hu, he⟩ := h.mem_operands hb' hn
  rw [h.numArgs]
  unfold Value.subst at he
  split at he
  · exact hv n he.symm
  · exact hk b bb hb n (he ▸ hu)

/-! ## Reads -/

lemma lists_of_ne (h : Replaced f g i v) {b : BlockId} {j : InstId} (hl : f.Lists b j)
    (hne : j ≠ i) : g.Lists b j := by
  obtain ⟨bb, hb, hj⟩ := hl
  refine ⟨_, h.block_eq hb, ?_⟩
  show j ∈ bb.phis.filter (· ≠ i) ++ bb.body.filter (· ≠ i)
  rw [← List.filter_append]
  exact List.mem_filter.2 ⟨hj, by simpa using hne⟩

lemma available (h : Replaced f g i v) {b : BlockId} {before : List InstId} {j : InstId}
    (ha : f.Available b before j) (hne : j ≠ i) : g.Available b (before.filter (· ≠ i)) j := by
  rcases ha with hj | ⟨d, hd, hdom, hl⟩
  · exact .inl (List.mem_filter.2 ⟨hj, by simpa using hne⟩)
  · exact .inr ⟨d, hd, (h.dom_iff d b).2 hdom, h.lists_of_ne hl hne⟩

/-- A read is one there was, of the operand as it is now. -/
lemma reads_inv (h : Replaced f g i v) {w : Value} {b : BlockId} {before' : List InstId}
    (hr : g.Reads w b before') :
    ∃ u before, f.Reads u b before ∧ w = Value.subst (.inst i) v u ∧
      before' = before.filter (· ≠ i) := by
  cases hr with
  | inBody hb' hsplit hq hmem =>
    obtain ⟨bb, hb, hphis, hbody, -, -⟩ := h.block_inv hb'
    obtain ⟨-, p, hp, -, hinst⟩ := h.inst_inv hq
    rw [hinst, Inst.operands_mapOperands] at hmem
    obtain ⟨u, hu, rfl⟩ := List.mem_map.1 hmem
    -- the place among the instructions that stay is a place among all of them
    rw [hbody] at hsplit
    obtain ⟨l₁, l₂, hl, hl₁, hl₂⟩ := List.filter_eq_append_iff.1 hsplit
    obtain ⟨m₁, m₂, rfl, hm₁, -, -⟩ := List.filter_eq_cons_iff.1 hl₂
    rw [← List.append_assoc] at hl
    have hnil : m₁.filter (· ≠ i) = [] := List.filter_eq_nil_iff.2 hm₁
    refine ⟨u, _, .inBody hb hl hp hu, rfl, ?_⟩
    rw [List.filter_append, List.filter_append, hl₁, hnil, hphis, List.append_nil]
  | atEnd hb' ht' hmem =>
    obtain ⟨bb, hb, hphis, hbody, -, hterm⟩ := h.block_inv hb'
    rw [hterm] at ht'
    obtain ⟨t, ht, rfl⟩ := Option.map_eq_some_iff.1 ht'
    rw [Terminator.operands_mapOperands] at hmem
    obtain ⟨u, hu, rfl⟩ := List.mem_map.1 hmem
    refine ⟨u, _, .atEnd hb ht hu, rfl, ?_⟩
    unfold Block.insts
    rw [hphis, hbody, List.filter_append]
  | inPhi hb' hk hnode' hp' hedge hin =>
    obtain ⟨bb, hb, hphis, -, -, -⟩ := h.block_inv hb'
    obtain ⟨pp, hp, hphis', hbody', -, -⟩ := h.block_inv hp'
    rw [hphis, List.mem_filter] at hk
    obtain ⟨node, hnode, rfl⟩ := h.phi_inv hnode'
    rw [Phi.incoming?_mapValues] at hin
    obtain ⟨u, hu, rfl⟩ := Option.map_eq_some_iff.1 hin
    rw [h.succs_eq] at hedge
    refine ⟨u, _, .inPhi hb hk.1 hnode hp hedge hu, rfl, ?_⟩
    unfold Block.insts
    rw [hphis', hbody', List.filter_append]

end Replaced

/-! ## Values that stand for an instruction -/

/-- Wherever the entry leads and `i` is available, what `v` names is available too and is not
`i` itself. -/
def StandsFor (f : Func) (v : Value) (i : InstId) : Prop :=
  ∀ b before, f.Reached b → (∃ bb, f.block? b = some bb ∧ before <+: bb.insts) →
    f.Available b before i → ∀ j, v = .inst j → j ≠ i ∧ f.Available b before j

/-- Replacing an instruction by a value that stands for it keeps uses dominated. -/
lemma Replaced.dominated {f g : Func} {i : InstId} {v : Value} (h : Replaced f g i v)
    (hd : f.DominatedWhereReached) (hv : f.StandsFor v i) : g.DominatedWhereReached := by
  refine ⟨?_, ?_⟩
  · intro b bb' hb' hreach
    obtain ⟨bb, hb, -, hbody, -, -⟩ := h.block_inv hb'
    rw [hbody]
    exact (hd.once b bb hb ((h.reached_iff b).1 hreach)).filter _
  · intro b before' j hread hreach
    rw [h.reached_iff] at hreach
    obtain ⟨u, before, hu, he, rfl⟩ := h.reads_inv hread
    unfold Value.subst at he
    split at he
    · -- the instruction was read here, and now the value is
      rename_i hui
      subst hui
      obtain ⟨hne, ha⟩ := hv b before hreach hu.place (hd.reads b before i hu hreach) j he.symm
      exact h.available ha hne
    · rename_i hui
      subst he
      exact h.available (hd.reads b before j hu hreach) fun he => hui (congrArg _ he)

/-- An operand of a computation stands for it: it was available before. -/
lemma standsFor_of_operand {f : Func} (hf : f.Framed) (hd : f.DominatedWhereReached) {i : InstId}
    {p : PlacedInst} (hi : f.inst? i = some p) (hphi : p.inst.isPhi = false) {v : Value}
    (hv : ∀ j, v = .inst j → Value.inst j ∈ p.inst.operands) : f.StandsFor v i := by
  intro b before hreach hplace ha j hj
  obtain ⟨d, hlist, hdom, hbelow⟩ := ha.exists_above hplace
  obtain ⟨dd, hdd, hmem⟩ := id hlist
  have hbody : i ∈ dd.body := by
    rcases List.mem_append.1 hmem with hmem | hmem
    · obtain ⟨node, hnode, -⟩ := hf.phis d dd hdd i hmem
      rw [hi] at hnode
      cases hnode
      cases hphi
    · exact hmem
  have hdreach : f.Reached d := hdom.reaches hreach
  obtain ⟨front, after, hsplit⟩ := List.append_of_mem hbody
  have hread : f.Reads (.inst j) d (dd.phis ++ front) := .inBody hdd hsplit hi (hv j hj)
  have havail := hd.reads d _ j hread hdreach
  -- the block lists the instruction in one place
  have honce := hd.once d dd hdd hdreach
  have hfront : i ∉ front := by
    rw [hsplit] at honce
    intro hmem
    exact (List.nodup_append.1 honce).2.2 i hmem i List.mem_cons_self rfl
  refine ⟨?_, ?_⟩
  · rintro rfl
    rcases havail with hmem | ⟨c, hc, -, hlist'⟩
    · rcases List.mem_append.1 hmem with hmem | hmem
      · exact hf.not_mem_phis hdd hbody hmem
      · exact hfront hmem
    · exact hc (hf.lists_unique hlist' hlist)
  · refine havail.below (fun x hx => lists_of_place hread.place hx) hdom ?_ hreach
    refine hbelow.imp_right fun ⟨he, hib⟩ => ⟨he, ?_⟩
    -- what came before the instruction came before this place
    subst he
    obtain ⟨bb, hb, rest, hpre⟩ := hplace
    rw [hdd] at hb
    cases hb
    have hinsts : before ++ rest = (dd.phis ++ front) ++ i :: after := by
      rw [hpre, Block.insts, hsplit, List.append_assoc]
    have hnot : i ∉ dd.phis ++ front := by
      rw [List.mem_append, not_or]
      exact ⟨hf.not_mem_phis hdd hbody, hfront⟩
    rcases List.append_eq_append_iff.1 hinsts with ⟨l, hl, -⟩ | ⟨l, hl, -⟩
    · exact absurd (hl ▸ List.mem_append_left _ hib) hnot
    · rw [hl]
      exact List.subset_append_left ..

/-! ## Trivial phis -/

/-- The one value that a phi merges, other than itself, flows in where its block is come to for
a first time, for there the phi is not available. So its definition lies above the block. -/
lemma dom_of_trivial {f : Func} (hf : f.Framed) (hd : f.DominatedWhereReached) {i j : InstId}
    {b : BlockId} {bb : Block} (hb : f.block? b = some bb) (hi : i ∈ bb.phis) {node : Phi}
    (hnode : f.phi? i = some node) (ht : node.trivial? i = some (.inst j)) (hreach : f.Reached b) :
    ∃ d, d ≠ b ∧ f.Dom d b ∧ f.Lists d j := by
  have hlist : f.Lists b i := ⟨bb, hb, List.mem_append_left _ hi⟩
  obtain ⟨hall, hsame⟩ := Phi.trivial?_some ht
  -- the entry has no predecessors, and its phis no operands
  have hne : b ≠ f.entry := by
    rintro rfl
    obtain ⟨cc, hc, hpreds⟩ := hf.entry
    rw [hb] at hc
    cases hc
    obtain ⟨node', hnode', hperm⟩ := hf.phis f.entry bb hb i hi
    obtain ⟨c, hc⟩ := phi?_some hnode
    rw [hnode'] at hc
    cases hc
    rw [hpreds] at hperm
    have hnil : node.operands = [] := List.map_eq_nil_iff.1 hperm.eq_nil
    rcases hsame with hsame | hsame
    · cases hsame
    · simp [Phi.values, hnil] at hsame
  have hfirst : ∀ m l, f.cfg.Edge m b.index → Route f.cfg.Edge f.cfg.entry (m :: l) →
      b.index ∉ m :: l → ∃ d, f.Dom d ⟨m⟩ ∧ f.Lists d j := by
    intro m l hedge hroute hnot
    set p : BlockId := ⟨m⟩
    have hedge : b ∈ f.succs p := edge_iff.1 hedge
    obtain ⟨v, hv⟩ := hf.incoming hb hi hnode hedge
    obtain ⟨pp, hp⟩ := exists_block_of_succ hedge
    have habove : ∀ k, v = .inst k → ∃ d, f.Lists d k ∧ f.Dom d p := by
      rintro k rfl
      have hread : f.Reads (.inst k) p pp.insts := .inPhi hb hi hnode hp hedge hv
      obtain ⟨d, hl, hdom, -⟩ :=
        (hd.reads p _ k hread ⟨l, hroute⟩).exists_above hread.place
      exact ⟨d, hl, hdom⟩
    rcases hall v (Phi.mem_values_of_incoming? hv) with rfl | rfl
    · -- the phi itself can not flow in here
      obtain ⟨d, hl, hdom⟩ := habove i rfl
      rw [hf.lists_unique hl hlist] at hdom
      exact absurd (hdom l hroute) hnot
    · obtain ⟨d, hl, hdom⟩ := habove j rfl
      exact ⟨d, hdom, hl⟩
  have hstart : b.index ≠ f.cfg.entry := fun he => hne (BlockId.index_inj.1 he)
  obtain ⟨m, l, hedge, hroute, hnot⟩ := hreach.exists_first hstart
  obtain ⟨d, hdom, hld⟩ := hfirst m l hedge hroute hnot
  refine ⟨d, ?_, ?_, hld⟩
  · rintro rfl
    exact hnot (hdom l hroute)
  · intro r hr
    obtain ⟨m', r', hedge', hroute', hnot', hsub⟩ := hr.first_visit hstart
    obtain ⟨c, hdom', hlc⟩ := hfirst m' r' hedge' hroute' hnot'
    rw [← hf.lists_unique hld hlc] at hdom'
    exact List.mem_cons_of_mem _ (hsub _ (hdom' r' hroute'))

/-- The value that a trivial phi merges stands for it. -/
lemma standsFor_of_trivial {f : Func} (hf : f.Framed) (hd : f.DominatedWhereReached) {i : InstId}
    {node : Phi} (hnode : f.phi? i = some node) {same : Value}
    (ht : node.trivial? i = some same) : f.StandsFor same i := by
  rintro b before hreach hplace ha j rfl
  refine ⟨fun he => Phi.trivial?_ne ht (congrArg _ he), ?_⟩
  obtain ⟨c, hlist, hdom, -⟩ := ha.exists_above hplace
  obtain ⟨cc, hc, hmem⟩ := hlist
  have hi : i ∈ cc.phis := by
    rcases List.mem_append.1 hmem with hmem | hmem
    · exact hmem
    · obtain ⟨p, hp, -, hphi⟩ := hf.body c cc hc i hmem
      obtain ⟨c', hc'⟩ := phi?_some hnode
      rw [hp] at hc'
      cases hc'
      cases hphi
  have hcreach : f.Reached c := hdom.reaches hreach
  obtain ⟨d, hne, hdc, hl⟩ := dom_of_trivial hf hd hc hi hnode ht hcreach
  refine .inr ⟨d, ?_, hdc.trans hdom, hl⟩
  rintro rfl
  exact hne (BlockId.index_inj.1 (Dominates.antisymm hdc hdom hreach))

end Func

end SsaBackend
