import SsaBackend.Proofs.Func.Replaced

/-!
# Taking edges and blocks away

Folding a branch takes an edge away, and removing a block all of its edges. Fewer edges mean
fewer paths, so what dominated a block still does, and uses stay dominated
(`Func.Thinned.dominated`). Three edits are thinnings: turning a branch into a jump, dropping a
predecessor together with the phi operands that came from it, and clearing a block that the
entry does not reach.
-/

namespace SsaBackend

/-- A phi without an operand from some block has none to drop. -/
lemma Phi.dropIncoming_of_not_mem {p : BlockId} {node : Phi} (h : p ∉ node.blocks) :
    node.dropIncoming p = node := by
  unfold Phi.dropIncoming
  rw [List.eraseP_of_forall_not]
  intro op hop he
  exact h (List.mem_map.2 ⟨op, hop, by simpa using he⟩)

lemma Phi.dropIncoming_idem {p : BlockId} {node : Phi} (h : node.blocks.Nodup) :
    (node.dropIncoming p).dropIncoming p = node.dropIncoming p := by
  apply Phi.dropIncoming_of_not_mem
  rw [Phi.blocks_dropIncoming]
  exact h.not_mem_erase

lemma erase_eq_filter_ne {l : List BlockId} (h : l.Nodup) (p : BlockId) :
    l.erase p = l.filter (· ≠ p) := by
  rw [h.erase_eq_filter]
  refine List.filter_congr fun q _ => ?_
  by_cases hq : q = p <;> simp [hq]

/-- Where every block has one operand, dropping one leaves those of the other blocks. -/
lemma Phi.blocks_dropIncoming_of_nodup {p : BlockId} {node : Phi} (h : node.blocks.Nodup) :
    (node.dropIncoming p).blocks = node.blocks.filter (· ≠ p) := by
  rw [Phi.blocks_dropIncoming, erase_eq_filter_ne h]

namespace Func

/-- The function `g` is `f` with edges and blocks taken away. -/
structure Thinned (f g : Func) : Prop where
  succs : ∀ b s, s ∈ g.succs b → s ∈ f.succs b
  block : ∀ b bb', g.block? b = some bb' → ∃ bb, f.block? b = some bb ∧ bb'.phis = bb.phis ∧
    bb'.body = bb.body ∧ ∀ t', bb'.terminator = some t' → ∀ v ∈ t'.operands,
      ∃ t, bb.terminator = some t ∧ v ∈ t.operands
  /-- Blocks that are still reached are still there. -/
  stays : ∀ b bb, f.block? b = some bb → g.Reached b → ∃ bb', g.block? b = some bb'
  body : ∀ b bb', g.block? b = some bb' → ∀ i ∈ bb'.body, g.inst? i = f.inst? i
  phis : ∀ b bb', g.block? b = some bb' → ∀ i ∈ bb'.phis, ∀ node', g.phi? i = some node' →
    ∃ node, f.phi? i = some node ∧ (∀ v ∈ node'.values, v ∈ node.values) ∧
      ∀ p, b ∈ g.succs p → node'.incoming? p = node.incoming? p

namespace Thinned

variable {f g : Func}

lemma edge (h : Thinned f g) {m n : Nat} (he : g.cfg.Edge m n) : f.cfg.Edge m n :=
  edge_iff.2 (h.succs ⟨m⟩ ⟨n⟩ (edge_iff.1 he))

/-- What is left of the paths were paths before. -/
lemma route (h : Thinned f g) {l : List Nat} (hl : Route g.cfg.Edge g.cfg.entry l) :
    Route f.cfg.Edge f.cfg.entry l := by
  induction hl with
  | start => exact .start
  | step _ last ih => exact ih.step (h.edge last)

lemma reached (h : Thinned f g) {b : BlockId} (hb : g.Reached b) : f.Reached b := by
  obtain ⟨l, hl⟩ := hb
  exact ⟨l, h.route hl⟩

lemma dom (h : Thinned f g) {d b : BlockId} (hd : f.Dom d b) : g.Dom d b :=
  fun l hl => hd l (h.route hl)

lemma available (h : Thinned f g) {b : BlockId} {before : List InstId} {i : InstId}
    (ha : f.Available b before i) (hreach : g.Reached b) : g.Available b before i := by
  rcases ha with hi | ⟨d, hne, hdom, dd, hdd, hmem⟩
  · exact .inl hi
  · obtain ⟨dd', hdd'⟩ := h.stays d dd hdd ((h.dom hdom).reaches hreach)
    obtain ⟨dd₀, hdd₀, hphis, hbody, -⟩ := h.block d dd' hdd'
    rw [hdd] at hdd₀
    cases hdd₀
    refine .inr ⟨d, hne, h.dom hdom, dd', hdd', ?_⟩
    unfold Block.insts
    rw [hphis, hbody]
    exact hmem

/-- A read is one there was, at the same place. -/
lemma reads (h : Thinned f g) {v : Value} {b : BlockId} {before : List InstId}
    (hr : g.Reads v b before) : f.Reads v b before := by
  have hinsts : ∀ {c cc' cc}, g.block? c = some cc' → f.block? c = some cc →
      cc'.insts = cc.insts := by
    intro c cc' cc hc' hc
    obtain ⟨cc₀, hc₀, hphis, hbody, -⟩ := h.block c cc' hc'
    rw [hc] at hc₀
    cases hc₀
    unfold Block.insts
    rw [hphis, hbody]
  cases hr with
  | inBody hb' hsplit hp hmem =>
    obtain ⟨bb, hb, hphis, hbody, -⟩ := h.block _ _ hb'
    rw [h.body _ _ hb' _ (hsplit ▸ List.mem_append_right _ List.mem_cons_self)] at hp
    rw [hphis]
    rw [hbody] at hsplit
    exact .inBody hb hsplit hp hmem
  | atEnd hb' ht' hmem =>
    obtain ⟨bb, hb, -, -, hterm⟩ := h.block _ _ hb'
    obtain ⟨t, ht, hv⟩ := hterm _ ht' _ hmem
    rw [hinsts hb' hb]
    exact .atEnd hb ht hv
  | inPhi hb' hi hnode' hp' hedge hin =>
    obtain ⟨bb, hb, hphis, -, -⟩ := h.block _ _ hb'
    obtain ⟨pp, hp, -⟩ := h.block _ _ hp'
    obtain ⟨node, hnode, -, hsame⟩ := h.phis _ _ hb' _ hi _ hnode'
    rw [hsame _ hedge] at hin
    rw [hinsts hp' hp]
    exact .inPhi hb (hphis ▸ hi) hnode hp (h.succs _ _ hedge) hin

/-- Taking edges and blocks away keeps uses dominated. -/
lemma dominated (h : Thinned f g) (hd : f.DominatedWhereReached) : g.DominatedWhereReached := by
  refine ⟨?_, ?_⟩
  · intro b bb' hb' hreach
    obtain ⟨bb, hb, -, hbody, -⟩ := h.block b bb' hb'
    rw [hbody]
    exact hd.once b bb hb (h.reached hreach)
  · intro b before i hread hreach
    exact h.available (hd.reads b before i (h.reads hread) (h.reached hreach)) hreach

/-- The operands were operands before. -/
lemma mem_operands (h : Thinned f g) (hg : g.Framed) {b : BlockId} {bb' : Block}
    (hb' : g.block? b = some bb') {v : Value} (hv : v ∈ g.blockOperands bb') :
    ∃ bb, f.block? b = some bb ∧ v ∈ f.blockOperands bb := by
  obtain ⟨bb, hb, hphis, hbody, hterm⟩ := h.block b bb' hb'
  refine ⟨bb, hb, mem_blockOperands.2 ?_⟩
  rcases mem_blockOperands.1 hv with ⟨i, hi, p, hp, hmem⟩ | ⟨t', ht', hmem⟩
  · have hi' : i ∈ bb.insts := by
      unfold Block.insts at hi ⊢
      rwa [hphis, hbody] at hi
    rcases List.mem_append.1 hi with hi | hi
    · obtain ⟨node', hnode', -⟩ := hg.phis b bb' hb' i hi
      rw [hp] at hnode'
      cases hnode'
      obtain ⟨node, hnode, hvals, -⟩ := h.phis b bb' hb' i hi node' (phi?_of_inst hp)
      obtain ⟨c, hc⟩ := phi?_some hnode
      exact .inl ⟨i, hi', _, hc, hvals v hmem⟩
    · rw [h.body b bb' hb' i hi] at hp
      exact .inl ⟨i, hi', p, hp, hmem⟩
  · obtain ⟨t, ht, hmem⟩ := hterm t' ht' v hmem
    exact .inr ⟨t, ht, hmem⟩

end Thinned

/-! ## Turning a branch into a jump -/

section Jump

variable {f : Func} {b taken : BlockId}

/-- The function in which a block jumps. -/
def jumping (f : Func) (b taken : BlockId) : Func :=
  f.modifyBlock b ({ · with terminator := some (.jump taken) })

lemma jumping_block (f : Func) (b taken c : BlockId) : (f.jumping b taken).block? c =
    if b = c then (f.block? c).map ({ · with terminator := some (.jump taken) }) else f.block? c :=
  block?_modifyBlock ..

lemma jumping_block_inv {c : BlockId} {cc' : Block} (h : (f.jumping b taken).block? c = some cc') :
    ∃ cc, f.block? c = some cc ∧ cc'.phis = cc.phis ∧ cc'.body = cc.body ∧ cc'.preds = cc.preds ∧
      cc'.terminator = if b = c then some (.jump taken) else cc.terminator := by
  rw [jumping_block] at h
  split at h
  · rename_i he
    obtain ⟨cc, hcc, rfl⟩ := Option.map_eq_some_iff.1 h
    exact ⟨cc, hcc, rfl, rfl, rfl, (if_pos he).symm⟩
  · rename_i he
    exact ⟨cc', h, rfl, rfl, rfl, (if_neg he).symm⟩

lemma jumping_succs (hb : ∃ bb, f.block? b = some bb) (c : BlockId) :
    (f.jumping b taken).succs c = if c = b then [taken] else f.succs c := by
  obtain ⟨bb, hb⟩ := hb
  unfold succs
  rw [jumping_block]
  by_cases hc : c = b
  · subst hc
    rw [if_pos rfl, hb]
    simp [Block.successors, Terminator.successors]
  · rw [if_neg (Ne.symm hc), if_neg hc]

lemma jumping_preds (c : BlockId) : (f.jumping b taken).preds c = f.preds c :=
  preds_eq_of_map (map_of_ite (jumping_block f b taken c)) fun bb => by split <;> rfl

lemma jumping_hasBlock (c : BlockId) : (f.jumping b taken).hasBlock c = f.hasBlock c :=
  hasBlock_eq_of_map (map_of_ite (jumping_block f b taken c))

lemma jumping_thinned (htaken : taken ∈ f.succs b) : Thinned f (f.jumping b taken) := by
  have hlive : ∃ bb, f.block? b = some bb := exists_block_of_succ htaken
  refine ⟨?_, ?_, ?_, fun _ _ _ _ _ => rfl, fun _ _ _ i _ node h =>
    ⟨node, h, fun v hv => hv, fun _ _ => rfl⟩⟩
  · intro c s hs
    rw [jumping_succs hlive] at hs
    split at hs
    · rename_i hc
      rw [hc, List.mem_singleton.1 hs]
      exact htaken
    · exact hs
  · intro c cc' hc'
    obtain ⟨cc, hc, hphis, hbody, -, hterm⟩ := jumping_block_inv hc'
    refine ⟨cc, hc, hphis, hbody, ?_⟩
    intro t' ht' v hv
    rw [hterm] at ht'
    split at ht'
    · cases ht'
      cases hv
    · exact ⟨t', ht', hv⟩
  · intro c cc hc _
    rw [jumping_block]
    split
    · exact ⟨_, by rw [hc]; rfl⟩
    · exact ⟨cc, hc⟩

lemma jumping_framed (hf : f.Framed) (htaken : taken ∈ f.succs b) : (f.jumping b taken).Framed := by
  refine ⟨⟨?_, ?_, ?_, ?_, ?_, ?_⟩, (jumping_preds _).trans hf.source⟩
  · obtain ⟨bb, hb⟩ := hf.start
    rw [show (f.jumping b taken).entry = f.entry from rfl, jumping_block, hb]
    split
    · exact ⟨_, rfl⟩
    · exact ⟨bb, rfl⟩
  · intro c cc' hc'
    obtain ⟨cc, hc, -, -, -, hterm⟩ := jumping_block_inv hc'
    rw [hterm]
    split
    · exact ⟨_, rfl⟩
    · exact hf.ended c cc hc
  · intro c s ss' hs' hedge
    obtain ⟨ss, hs, -, -, hpreds, -⟩ := jumping_block_inv hs'
    rw [hpreds]
    exact hf.linked c s ss hs ((jumping_thinned htaken).succs c s hedge)
  · intro c cc' hc'
    obtain ⟨cc, hc, -, -, hpreds, -⟩ := jumping_block_inv hc'
    rw [hpreds]
    exact hf.predsOnce c cc hc
  · intro c cc' hc' i hi
    obtain ⟨cc, hc, hphis, -, hpreds, -⟩ := jumping_block_inv hc'
    rw [hphis] at hi
    rw [hpreds]
    exact hf.phis c cc hc i hi
  · intro c cc' hc' i hi
    obtain ⟨cc, hc, -, hbody, -, -⟩ := jumping_block_inv hc'
    rw [hbody] at hi
    exact hf.body c cc hc i hi

end Jump

/-! ## Changing several phis -/

lemma inst?_modifyPhi_ne {f : Func} {i j : InstId} (g : Phi → Phi) (h : j ≠ i) :
    (f.modifyPhi i g).inst? j = f.inst? j := by
  unfold modifyPhi
  rw [inst?_modifyInst, if_neg h]

lemma block?_foldl_modifyPhi (g : Phi → Phi) (l : List InstId) (f : Func) (b : BlockId) :
    (l.foldl (fun h i => h.modifyPhi i g) f).block? b = f.block? b := by
  induction l generalizing f with
  | nil => rfl
  | cons i rest ih => rw [List.foldl_cons, ih, block?_modifyPhi]

lemma inst?_foldl_modifyPhi_of_not_mem (g : Phi → Phi) {l : List InstId} {j : InstId}
    (h : j ∉ l) (f : Func) : (l.foldl (fun h i => h.modifyPhi i g) f).inst? j = f.inst? j := by
  induction l generalizing f with
  | nil => rfl
  | cons i rest ih =>
    rw [List.mem_cons, not_or] at h
    rw [List.foldl_cons, ih h.2, inst?_modifyPhi_ne g h.1]

/-- A change that is the same when made twice is made once to every phi of the list. -/
lemma inst?_foldl_modifyPhi_of_mem {g : Phi → Phi} {l : List InstId} {j : InstId} (h : j ∈ l)
    {f : Func} {node : Phi} {b : BlockId} (hj : f.inst? j = some ⟨.phi node, b⟩)
    (hidem : g (g node) = g node) :
    (l.foldl (fun h i => h.modifyPhi i g) f).inst? j = some ⟨.phi (g node), b⟩ := by
  induction l generalizing f node with
  | nil => cases h
  | cons i rest ih =>
    rw [List.foldl_cons]
    by_cases hij : j = i
    · subst hij
      have hnow : (f.modifyPhi j g).inst? j = some ⟨.phi (g node), b⟩ := by
        rw [inst?_modifyPhi g hj, if_pos rfl]
      by_cases hrest : j ∈ rest
      · rw [ih hrest hnow (by rw [hidem, hidem]), hidem]
      · rw [inst?_foldl_modifyPhi_of_not_mem g hrest, hnow]
    · have hrest : j ∈ rest := (List.mem_cons.1 h).resolve_left hij
      exact ih hrest (by rw [inst?_modifyPhi_ne g hij, hj]) hidem

lemma numArgs_foldl_modifyPhi (g : Phi → Phi) (l : List InstId) (f : Func) :
    (l.foldl (fun h i => h.modifyPhi i g) f).numArgs = f.numArgs ∧
      (l.foldl (fun h i => h.modifyPhi i g) f).blockCapacity = f.blockCapacity := by
  induction l generalizing f with
  | nil => exact ⟨rfl, rfl⟩
  | cons i rest ih =>
    rw [List.foldl_cons]
    exact ih _

/-! ## Dropping a predecessor -/

section Unlink

variable {f : Func} {b pred : BlockId} {bb : Block}

/-- The function in which a block has lost a predecessor, and its phis the operands from it. -/
def unlinked (f : Func) (b pred : BlockId) (bb : Block) : Func :=
  bb.phis.foldl (fun g i => g.modifyPhi i (·.dropIncoming pred)) (f.modifyBlock b (·.dropPred pred))

/-- A block that was deleted is passed over. -/
lemma removePred_deleted (hb : f.block? b = none) : f.removePred b pred = (f, []) := by
  unfold removePred
  rw [hb]

lemma removePred_eq (hb : f.block? b = some bb) :
    f.removePred b pred = (f.unlinked b pred bb).foldTrivialPhis bb.phis fun _ => true := by
  unfold removePred
  rw [hb]
  rfl

lemma unlinked_block (c : BlockId) : (f.unlinked b pred bb).block? c =
    if b = c then (f.block? c).map (·.dropPred pred) else f.block? c := by
  unfold unlinked
  rw [block?_foldl_modifyPhi, block?_modifyBlock]

lemma unlinked_block_inv {c : BlockId} {cc' : Block}
    (h : (f.unlinked b pred bb).block? c = some cc') :
    ∃ cc, f.block? c = some cc ∧ cc'.phis = cc.phis ∧ cc'.body = cc.body ∧
      cc'.terminator = cc.terminator ∧
      cc'.preds = if b = c then cc.preds.filter (· ≠ pred) else cc.preds := by
  rw [unlinked_block] at h
  split at h
  · rename_i he
    obtain ⟨cc, hcc, rfl⟩ := Option.map_eq_some_iff.1 h
    exact ⟨cc, hcc, rfl, rfl, rfl, (if_pos he).symm⟩
  · rename_i he
    exact ⟨cc', h, rfl, rfl, rfl, (if_neg he).symm⟩

lemma unlinked_hasBlock (c : BlockId) : (f.unlinked b pred bb).hasBlock c = f.hasBlock c :=
  hasBlock_eq_of_map (map_of_ite (unlinked_block c))

lemma unlinked_succs (c : BlockId) : (f.unlinked b pred bb).succs c = f.succs c :=
  succs_eq_of_map (map_of_ite (unlinked_block c)) fun bb => by split <;> rfl

lemma unlinked_preds (c : BlockId) : (f.unlinked b pred bb).preds c =
    if b = c then (f.preds c).filter (· ≠ pred) else f.preds c := by
  unfold preds
  rw [unlinked_block]
  split
  · cases f.block? c <;> rfl
  · rfl

/-- What the phis of the block are now. -/
lemma unlinked_phi (pred : BlockId) (hf : f.Framed) (hb : f.block? b = some bb) {i : InstId}
    (hi : i ∈ bb.phis) :
    ∃ node, f.inst? i = some ⟨.phi node, b⟩ ∧ node.blocks.Perm bb.preds ∧
      (f.unlinked b pred bb).inst? i = some ⟨.phi (node.dropIncoming pred), b⟩ := by
  obtain ⟨node, hnode, hperm⟩ := hf.phis b bb hb i hi
  refine ⟨node, hnode, hperm, ?_⟩
  have hidem := Phi.dropIncoming_idem (p := pred) (hperm.nodup_iff.2 (hf.predsOnce b bb hb))
  exact inst?_foldl_modifyPhi_of_mem (g := (·.dropIncoming pred))
    (f := f.modifyBlock b (·.dropPred pred)) hi hnode hidem

/-- Nothing else is changed. -/
lemma unlinked_inst {i : InstId} (hi : i ∉ bb.phis) :
    (f.unlinked b pred bb).inst? i = f.inst? i := by
  unfold unlinked
  rw [inst?_foldl_modifyPhi_of_not_mem _ hi]
  rfl

/-- The phis of one block are not listed by others. -/
lemma Wired.not_phi_of_ne (hf : f.Wired) (hb : f.block? b = some bb) {c : BlockId}
    (hne : b ≠ c) {i : InstId} (hi : f.Lists c i) : i ∉ bb.phis := by
  intro hmem
  exact hne (hf.lists_unique ⟨bb, hb, List.mem_append_left _ hmem⟩ hi)

lemma unlinked_thinned (hf : f.Framed) (hb : f.block? b = some bb) (hgone : b ∉ f.succs pred) :
    Thinned f (f.unlinked b pred bb) := by
  refine ⟨?_, ?_, ?_, ?_, ?_⟩
  · intro c s hs
    rwa [unlinked_succs] at hs
  · intro c cc' hc'
    obtain ⟨cc, hc, hphis, hbody, hterm, -⟩ := unlinked_block_inv hc'
    exact ⟨cc, hc, hphis, hbody, fun t ht v hv => ⟨t, hterm ▸ ht, hv⟩⟩
  · intro c cc hc _
    rw [unlinked_block]
    split
    · exact ⟨_, by rw [hc]; rfl⟩
    · exact ⟨cc, hc⟩
  · intro c cc' hc' i hi
    obtain ⟨cc, hc, -, hbody, -, -⟩ := unlinked_block_inv hc'
    rw [hbody] at hi
    apply unlinked_inst
    by_cases hbc : b = c
    · subst hbc
      rw [hb] at hc
      cases hc
      exact hf.not_mem_phis hb hi
    · exact hf.not_phi_of_ne hb hbc ⟨cc, hc, List.mem_append_right _ hi⟩
  · intro c cc' hc' i hi node' hnode'
    obtain ⟨cc, hc, hphis, -, -, -⟩ := unlinked_block_inv hc'
    rw [hphis] at hi
    by_cases hbc : b = c
    · subst hbc
      rw [hb] at hc
      cases hc
      obtain ⟨node, hnode, -, hnow⟩ := unlinked_phi pred hf hb hi
      rw [phi?_of_inst hnow] at hnode'
      cases hnode'
      refine ⟨node, phi?_of_inst hnode, fun v hv => Phi.values_dropIncoming hv, ?_⟩
      intro p hp
      rw [unlinked_succs] at hp
      -- what was received over the edges that are left is received still
      exact Phi.incoming?_dropIncoming _ fun he => hgone (he ▸ hp)
    · refine ⟨node', ?_, fun v hv => hv, fun _ _ => rfl⟩
      unfold phi? at hnode' ⊢
      rwa [unlinked_inst (hf.not_phi_of_ne hb hbc ⟨cc, hc, List.mem_append_left _ hi⟩)] at hnode'

lemma unlinked_framed (hf : f.Framed) (hb : f.block? b = some bb) (hgone : b ∉ f.succs pred) :
    (f.unlinked b pred bb).Framed := by
  have hth := unlinked_thinned hf hb hgone
  refine ⟨⟨?_, ?_, ?_, ?_, ?_, ?_⟩, ?_⟩
  · obtain ⟨ee, he⟩ := hf.start
    rw [show (f.unlinked b pred bb).entry = f.entry from rfl, unlinked_block, he]
    split
    · exact ⟨_, rfl⟩
    · exact ⟨ee, rfl⟩
  · intro c cc' hc'
    obtain ⟨cc, hc, -, -, hterm, -⟩ := unlinked_block_inv hc'
    rw [hterm]
    exact hf.ended c cc hc
  · intro c s ss' hs' hedge
    obtain ⟨ss, hs, -, -, -, hpreds⟩ := unlinked_block_inv hs'
    rw [unlinked_succs] at hedge
    have hmem := hf.linked c s ss hs hedge
    rw [hpreds]
    split
    · rename_i hbs
      -- only an edge from the block that was unlinked is off the list, and that is gone
      refine List.mem_filter.2 ⟨hmem, ?_⟩
      refine decide_eq_true ?_
      rintro rfl
      exact hgone (hbs ▸ hedge)
    · exact hmem
  · intro c cc' hc'
    obtain ⟨cc, hc, -, -, -, hpreds⟩ := unlinked_block_inv hc'
    rw [hpreds]
    split
    · exact (hf.predsOnce c cc hc).filter _
    · exact hf.predsOnce c cc hc
  · intro c cc' hc' i hi
    obtain ⟨cc, hc, hphis, -, -, hpreds⟩ := unlinked_block_inv hc'
    rw [hphis] at hi
    by_cases hbc : b = c
    · subst hbc
      rw [hb] at hc
      cases hc
      -- the phis of the block lost the operand with the predecessor
      obtain ⟨node, -, hperm, hnow⟩ := unlinked_phi pred hf hb hi
      refine ⟨_, hnow, ?_⟩
      rw [hpreds, if_pos rfl, Phi.blocks_dropIncoming, ← erase_eq_filter_ne (hf.predsOnce b bb hb)]
      exact hperm.erase pred
    · rw [hpreds, if_neg hbc,
        unlinked_inst (hf.not_phi_of_ne hb hbc ⟨cc, hc, List.mem_append_left _ hi⟩)]
      exact hf.phis c cc hc i hi
  · intro c cc' hc' i hi
    rw [hth.body c cc' hc' i hi]
    obtain ⟨cc, hc, -, hbody, -, -⟩ := unlinked_block_inv hc'
    exact hf.body c cc hc i (hbody ▸ hi)
  · rw [unlinked_preds, show (f.unlinked b pred bb).entry = f.entry from rfl, hf.source]
    exact ite_self _

end Unlink

/-! ## Clearing a block -/

section Clear

variable {f : Func} {b : BlockId} {bb : Block}

lemma foldl_clearInst (l : List InstId) (f : Func) :
    (∀ c, (l.foldl clearInst f).block? c = f.block? c) ∧
      (∀ i, (l.foldl clearInst f).inst? i = if i ∈ l then none else f.inst? i) ∧
      (l.foldl clearInst f).blockCapacity = f.blockCapacity ∧
      (l.foldl clearInst f).numArgs = f.numArgs := by
  induction l generalizing f with
  | nil => simp
  | cons i rest ih =>
    obtain ⟨hblock, hinst, hcap, hargs⟩ := ih (f.clearInst i)
    refine ⟨hblock, ?_, hcap, hargs⟩
    intro j
    rw [List.foldl_cons, hinst, inst?_clearInst]
    by_cases hj : j = i <;> simp [hj]

lemma clearBlock_block (c : BlockId) :
    (f.clearBlock b bb).block? c = if b = c then none else f.block? c := by
  unfold clearBlock
  rw [(foldl_clearInst _ _).1]
  refine (join_getElem?_modify f.blocks b.index c.index rfl).trans ?_
  simp only [BlockId.index_inj]
  rfl

lemma clearBlock_inst (i : InstId) :
    (f.clearBlock b bb).inst? i = if i ∈ bb.insts then none else f.inst? i := by
  unfold clearBlock
  rw [(foldl_clearInst _ _).2.1]
  rfl

lemma clearBlock_numArgs : (f.clearBlock b bb).numArgs = f.numArgs ∧
    (f.clearBlock b bb).blockCapacity = f.blockCapacity := by
  unfold clearBlock
  rw [(foldl_clearInst _ _).2.2.1, (foldl_clearInst _ _).2.2.2]
  simp [blockCapacity]

lemma clearBlock_succs (c : BlockId) :
    (f.clearBlock b bb).succs c = if b = c then [] else f.succs c := by
  unfold succs
  rw [clearBlock_block]
  split <;> rfl

lemma clearBlock_hasBlock (c : BlockId) :
    (f.clearBlock b bb).hasBlock c = (f.hasBlock c && decide (b ≠ c)) := by
  unfold hasBlock
  rw [clearBlock_block]
  by_cases hc : b = c <;> simp [hc]

lemma clearBlock_preds (c : BlockId) :
    (f.clearBlock b bb).preds c = if b = c then [] else f.preds c := by
  unfold preds
  rw [clearBlock_block]
  split <;> rfl

lemma clearBlock_block_inv {c : BlockId} {cc : Block}
    (h : (f.clearBlock b bb).block? c = some cc) : b ≠ c ∧ f.block? c = some cc := by
  rw [clearBlock_block] at h
  split at h
  · cases h
  · rename_i hne
    exact ⟨hne, h⟩

/-- The instructions that other blocks list are left alone. -/
lemma clearBlock_listed (hf : f.Framed) (hb : f.block? b = some bb) {c : BlockId} (hne : b ≠ c)
    {i : InstId} (hi : f.Lists c i) : (f.clearBlock b bb).inst? i = f.inst? i := by
  rw [clearBlock_inst, if_neg]
  intro hmem
  exact hne (hf.lists_unique ⟨bb, hb, hmem⟩ hi)

lemma clearBlock_thinned (hf : f.Framed) (hb : f.block? b = some bb) (hdead : ¬ f.Reached b) :
    Thinned f (f.clearBlock b bb) := by
  have hsuccs : ∀ c s, s ∈ (f.clearBlock b bb).succs c → s ∈ f.succs c := by
    intro c s hs
    rw [clearBlock_succs] at hs
    split at hs
    · cases hs
    · exact hs
  have hroute : ∀ l, Route (f.clearBlock b bb).cfg.Edge (f.clearBlock b bb).cfg.entry l →
      Route f.cfg.Edge f.cfg.entry l := by
    intro l hl
    induction hl with
    | start => exact .start
    | @step m n _ _ last ih => exact ih.step (edge_iff.2 (hsuccs ⟨m⟩ ⟨n⟩ (edge_iff.1 last)))
  refine ⟨hsuccs, ?_, ?_, ?_, ?_⟩
  · intro c cc hc'
    exact ⟨cc, (clearBlock_block_inv hc').2, rfl, rfl, fun t ht v hv => ⟨t, ht, hv⟩⟩
  · intro c cc hc hreach
    refine ⟨cc, ?_⟩
    rw [clearBlock_block, if_neg, hc]
    rintro rfl
    obtain ⟨l, hl⟩ := hreach
    exact hdead ⟨l, hroute _ hl⟩
  · intro c cc hc' i hi
    obtain ⟨hne, hc⟩ := clearBlock_block_inv hc'
    exact clearBlock_listed hf hb hne ⟨cc, hc, List.mem_append_right _ hi⟩
  · intro c cc hc' i hi node hnode
    obtain ⟨hne, hc⟩ := clearBlock_block_inv hc'
    refine ⟨node, ?_, fun v hv => hv, fun _ _ => rfl⟩
    unfold phi? at hnode ⊢
    rwa [clearBlock_listed hf hb hne ⟨cc, hc, List.mem_append_left _ hi⟩] at hnode

lemma clearBlock_framed (hf : f.Framed) (hb : f.block? b = some bb) (hne : b ≠ f.entry) :
    (f.clearBlock b bb).Framed := by
  refine ⟨⟨?_, ?_, ?_, ?_, ?_, ?_⟩, ?_⟩
  · obtain ⟨ee, he⟩ := hf.start
    exact ⟨ee, by rw [show (f.clearBlock b bb).entry = f.entry from rfl, clearBlock_block,
      if_neg hne, he]⟩
  · intro c cc hc
    exact hf.ended c cc (clearBlock_block_inv hc).2
  · intro c s ss hs hedge
    rw [clearBlock_succs] at hedge
    split at hedge
    · cases hedge
    · exact hf.linked c s ss (clearBlock_block_inv hs).2 hedge
  · intro c cc hc
    exact hf.predsOnce c cc (clearBlock_block_inv hc).2
  · intro c cc hc' i hi
    obtain ⟨hbc, hc⟩ := clearBlock_block_inv hc'
    rw [clearBlock_listed hf hb hbc ⟨cc, hc, List.mem_append_left _ hi⟩]
    exact hf.phis c cc hc i hi
  · intro c cc hc' i hi
    obtain ⟨hbc, hc⟩ := clearBlock_block_inv hc'
    rw [clearBlock_listed hf hb hbc ⟨cc, hc, List.mem_append_right _ hi⟩]
    exact hf.body c cc hc i hi
  · rw [clearBlock_preds, show (f.clearBlock b bb).entry = f.entry from rfl, hf.source]
    exact ite_self _

end Clear

end Func

end SsaBackend
