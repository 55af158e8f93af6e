import SsaBackend.Proofs.Build.Reading
import SsaBackend.Proofs.Func.FoldedPhis

/-!
# The phis of a draft

Between two calls the phis of a sealed block have one operand for each of its predecessors and
none of them is trivial, and the phis of an unsealed block are its placeholders, which have no
operands. While variables are read this is not so: some phis have got a part of their operands,
and a block that is being sealed has lost its placeholders without being sealed. `Draft.Formed`
says what holds at all times, with these phis and this block as parameters, and
`Draft.Settled` that no phi is trivial but those that are guarded and those about to be looked
at. Reads keep both (`Draft.Formed.read`) and sealing does (`Draft.Formed.sealBlock`), and neither
is refused.

The same goes for what is named. If no value that was given named an instruction that is gone,
then no operand and no binding does; `fair` stands for that condition.
-/

namespace SsaBackend

namespace Func

/-! ## A new instruction -/

namespace Appended

variable {f g : Func} {b : BlockId} {new : Inst}

/-- Blocks list the phis they listed, and the new instruction if it is one. -/
lemma mem_phis (h : Appended f g b new) {c : BlockId} {cc : Block} (hc : g.block? c = some cc) :
    ∃ old, f.block? c = some old ∧ cc.preds = old.preds ∧ cc.terminator = old.terminator ∧
      ∀ i, i ∈ cc.phis ↔ i ∈ old.phis ∨ (new.isPhi = true ∧ c = b ∧ i = f.nextInst) := by
  obtain ⟨old, hold, rfl⟩ := h.of_block hc
  refine ⟨old, hold, ?_⟩
  by_cases hbc : b = c
  · subst hbc
    unfold Block.append
    cases new.isPhi with
    | true => simp
    | false => simp
  · simp [hbc, Ne.symm hbc]

lemma listsPlaced (h : Appended f g b new) (hf : f.ListsPlaced) : g.ListsPlaced := by
  rintro c j ⟨cc, hc, hj⟩
  obtain ⟨old, hold, rfl⟩ := h.of_block hc
  have hcases : j ∈ old.insts ∨ (b = c ∧ j = f.nextInst) := by
    split at hj
    · rename_i hbc
      unfold Block.insts Block.append at *
      split at hj <;> simp only [List.mem_append, List.mem_singleton] at hj ⊢ <;> tauto
    · exact .inl hj
  rcases hcases with hj | ⟨rfl, rfl⟩
  · obtain ⟨p, hp, hpc⟩ := hf c j ⟨old, hold, hj⟩
    exact ⟨p, h.inst_old hp, hpc⟩
  · exact ⟨_, by rw [h.inst, if_pos rfl], rfl⟩

/-- Nothing goes when an instruction comes. -/
lemma gone_iff (h : Appended f g b new) (j : InstId) : g.Gone j ↔ f.Gone j := by
  unfold Gone
  rw [h.inst, h.capacity]
  by_cases hj : j = f.nextInst
  · subst hj
    simp [nextInst]
  · have hne : j.index ≠ f.instCapacity := fun he => hj (InstId.index_inj.1 he)
    rw [if_neg hj]
    refine and_congr_left fun _ => ?_
    omega

lemma lasting_iff (h : Appended f g b new) (v : Value) : g.Lasting v ↔ f.Lasting v := by
  unfold Lasting
  simp only [h.gone_iff]

lemma operandsLast (h : Appended f g b new) (hf : f.OperandsLast)
    (hnew : ∀ v ∈ new.operands, f.Lasting v) : g.OperandsLast := by
  refine ⟨?_, ?_⟩
  · intro j p hp v hv
    rw [h.lasting_iff]
    rcases h.of_inst hp with ⟨-, rfl⟩ | hp
    · exact hnew v hv
    · exact hf.insts j p hp v hv
  · intro c cc hc t ht v hv
    obtain ⟨old, hold, -, hterm, -⟩ := h.mem_phis hc
    rw [h.lasting_iff]
    exact hf.ends c old hold t (hterm ▸ ht) v hv

lemma merges (h : Appended f g b new) {i : InstId} {c : BlockId} {l : List BlockId}
    (hi : f.Merges i c l) : g.Merges i c l := by
  obtain ⟨node, hnode, hblocks⟩ := hi
  exact ⟨node, h.inst_old hnode, hblocks⟩

/-- The phis that are listed are those that were, and the new instruction if it is one. -/
lemma mem_phiIds (h : Appended f g b new) {i : InstId} (hi : i ∈ g.phiIds) :
    i ∈ f.phiIds ∨ (new.isPhi = true ∧ i = f.nextInst) := by
  obtain ⟨c, cc, hc, hmem⟩ := Func.mem_phiIds.1 hi
  obtain ⟨old, hold, -, -, hphis⟩ := h.mem_phis hc
  rcases (hphis i).1 hmem with hmem | ⟨hphi, -, hnext⟩
  · exact .inl (Func.mem_phiIds.2 ⟨c, old, hold, hmem⟩)
  · exact .inr ⟨hphi, hnext⟩

end Appended

/-- A phi knows one block, and its operands come from some blocks. -/
lemma Merges.unique {f : Func} {i : InstId} {b c : BlockId} {l l' : List BlockId}
    (h : f.Merges i b l) (h' : f.Merges i c l') : b = c ∧ l = l' := by
  obtain ⟨node, hnode, rfl⟩ := h
  obtain ⟨node', hnode', rfl⟩ := h'
  rw [hnode] at hnode'
  cases hnode'
  exact ⟨rfl, rfl⟩

lemma Merges.phi? {f : Func} {i : InstId} {b : BlockId} {l : List BlockId} (h : f.Merges i b l) :
    ∃ node, f.phi? i = some node ∧ node.blocks = l := by
  obtain ⟨node, hnode, hblocks⟩ := h
  exact ⟨node, phi?_of_inst hnode, hblocks⟩

/-- A phi that merges nothing has no operands. -/
lemma Merges.phi?_empty {f : Func} {i : InstId} {b : BlockId} (h : f.Merges i b []) :
    f.phi? i = some .empty := by
  obtain ⟨⟨ops⟩, hnode, hblocks⟩ := h.phi?
  obtain rfl : ops = [] := List.map_eq_nil_iff.1 hblocks
  exact hnode

lemma Merges.ne_nextInst {f : Func} {i : InstId} {b : BlockId} {l : List BlockId}
    (h : f.Merges i b l) : i ≠ f.nextInst := by
  obtain ⟨node, hnode, -⟩ := h
  rintro rfl
  exact Nat.lt_irrefl _ (lt_instCapacity hnode)

end Func

namespace Draft

open Func

/-! ## What holds of the phis -/

/-- The block is sealed, or it is the one that is being sealed. -/
def Closed (late : Option BlockId) (d : Draft) (b : BlockId) : Prop :=
  d.vars.isSealed b = true ∨ late = some b

/-- What holds of a draft whatever is going on: what blocks list is there, phis know their blocks,
and if all was `fair`, nothing is named that is gone. -/
structure Grounded (fair : Prop) (d : Draft) : Prop where
  placed : d.func.ListsPlaced
  phis : ∀ b bb, d.func.block? b = some bb → ∀ i ∈ bb.phis, ∃ l, d.func.Merges i b l
  predsOnce : ∀ b, (d.func.preds b).Nodup
  predsThere : ∀ b, ∀ p ∈ d.func.preds b, d.func.hasBlock p = true
  lasting : fair → d.func.OperandsLast ∧ ∀ x b v, d.vars.value? x b = some v → d.func.Lasting v

/-- The phis of a draft are as they should be, while the phis in `filling` get their operands and
`late` is being sealed. -/
structure Formed (fair : Prop) (filling : List InstId) (late : Option BlockId) (d : Draft) :
    Prop extends Grounded fair d where
  guarded : ∀ i, i ∈ d.vars.guarded ↔ i ∈ filling ∨ ∃ b, ∃ e ∈ d.vars.pendingAt b, e.2 = i
  filled : ∀ i ∈ filling, ∃ b l, d.func.Merges i b l ∧ d.Closed late b
  /-- Placeholders have no operands, and their variables are bound. -/
  pending : ∀ b, ∀ e ∈ d.vars.pendingAt b, ¬ d.Closed late b ∧ d.func.Merges e.2 b [] ∧
    (d.vars.value? e.1 b).isSome = true ∧ ∃ bb, d.func.block? b = some bb ∧ e.2 ∈ bb.phis
  once : ∀ b, ((d.vars.pendingAt b).map (·.2)).Nodup
  waiting : ∀ b bb, d.func.block? b = some bb → ¬ d.Closed late b → ∀ i ∈ bb.phis,
    ∃ e ∈ d.vars.pendingAt b, e.2 = i
  complete : ∀ b bb, d.func.block? b = some bb → d.Closed late b → ∀ i ∈ bb.phis, i ∉ filling →
    d.func.Merges i b (d.func.preds b)

/-- The phis that are not guarded and not in `left` are not trivial. -/
def Settled (left : List InstId) (d : Draft) : Prop :=
  ∀ i ∈ d.func.phiIds, i ∉ d.vars.guarded → i ∉ left → ∀ node, d.func.phi? i = some node →
    node.trivial? i = none

/-- What reads leave alone. -/
structure Kept (filling : List InstId) (d d' : Draft) : Prop where
  merges : ∀ i ∈ filling, ∀ b l, d.func.Merges i b l → d'.func.Merges i b l
  preds : ∀ b, d'.func.preds b = d.func.preds b
  hasBlock : ∀ b, d'.func.hasBlock b = d.func.hasBlock b
  isSealed : ∀ b, d'.vars.isSealed b = d.vars.isSealed b
  bound : ∀ x b, (d.vars.value? x b).isSome = true → (d'.vars.value? x b).isSome = true

lemma Kept.refl (filling : List InstId) (d : Draft) : Kept filling d d :=
  ⟨fun _ _ _ _ h => h, fun _ => rfl, fun _ => rfl, fun _ => rfl, fun _ _ h => h⟩

lemma Kept.trans {filling : List InstId} {d d' d'' : Draft} (h : Kept filling d d')
    (h' : Kept filling d' d'') : Kept filling d d'' where
  merges i hi b l hm := h'.merges i hi b l (h.merges i hi b l hm)
  preds b := (h'.preds b).trans (h.preds b)
  hasBlock b := (h'.hasBlock b).trans (h.hasBlock b)
  isSealed b := (h'.isSealed b).trans (h.isSealed b)
  bound x b hx := h'.bound x b (h.bound x b hx)

lemma Kept.subset {filling filling' : List InstId} {d d' : Draft} (h : Kept filling d d')
    (hsub : filling' ⊆ filling) : Kept filling' d d' :=
  { h with merges := fun i hi => h.merges i (hsub hi) }

/-- A read ends with a draft whose phis are as they should be, and its answer lasts. -/
structure Answers (fair : Prop) (filling : List InstId) (late : Option BlockId) (d : Draft)
    (v : Value) (d' : Draft) : Prop where
  formed : d'.Formed fair filling late
  settled : d'.Settled []
  kept : Kept filling d d'
  lasting : fair → d'.func.Lasting v

variable {fair : Prop} {filling : List InstId} {late : Option BlockId} {d d' : Draft}
  {x : Variable} {b : BlockId} {v : Value} {phi : InstId}

namespace Formed

lemma mono {fair' : Prop} (h : d.Formed fair filling late) (hf : fair' → fair) :
    d.Formed fair' filling late :=
  { h with lasting := fun hfair => h.lasting (hf hfair) }

/-- A phi that is being filled is not a placeholder. -/
lemma not_pending (h : d.Formed fair filling late) (hphi : phi ∈ filling) :
    ∀ c, ∀ e ∈ d.vars.pendingAt c, e.2 ≠ phi := by
  rintro c e he rfl
  obtain ⟨b, l, hm, hclosed⟩ := h.filled _ hphi
  obtain ⟨hnot, hm', -⟩ := h.pending c e he
  obtain ⟨rfl, -⟩ := hm.unique hm'
  exact hnot hclosed

/-- When no phi is being filled, those of blocks that are closed may be folded. -/
lemma not_guarded (h : d.Formed fair [] late) {b : BlockId} {l : List BlockId}
    (hm : d.func.Merges phi b l) (hclosed : d.Closed late b) : phi ∉ d.vars.guarded := by
  intro hguarded
  rcases (h.guarded phi).1 hguarded with hfilling | ⟨c, e, he, rfl⟩
  · cases hfilling
  · obtain ⟨hnot, hm', -⟩ := h.pending c e he
    obtain ⟨rfl, -⟩ := hm.unique hm'
    exact hnot hclosed

end Formed

/-! ## Binding -/

lemma Grounded.bind (h : d.Grounded fair) (hv : fair → d.func.Lasting v) (x : Variable)
    (b : BlockId) : { d with vars := d.vars.bind x b v }.Grounded fair := by
  refine { h with lasting := ?_ }
  intro hfair
  obtain ⟨hops, hbound⟩ := h.lasting hfair
  refine ⟨hops, ?_⟩
  intro y c u hu
  rw [Bindings.value?_bind] at hu
  split at hu
  · cases hu
    exact hv hfair
  · exact hbound y c u hu

lemma Kept.of_bind (filling : List InstId) (d : Draft) (x : Variable) (b : BlockId) (v : Value) :
    Kept filling d { d with vars := d.vars.bind x b v } := by
  refine { Kept.refl filling d with bound := ?_ }
  intro y c hy
  rw [Bindings.value?_bind]
  split
  · rfl
  · exact hy

lemma Formed.bind (h : d.Formed fair filling late) (hv : fair → d.func.Lasting v) (x : Variable)
    (b : BlockId) : { d with vars := d.vars.bind x b v }.Formed fair filling late := by
  refine { h with toGrounded := h.toGrounded.bind hv x b, pending := ?_ }
  intro c e he
  obtain ⟨hnot, hm, hx, hlisted⟩ := h.pending c e he
  exact ⟨hnot, hm, (Kept.of_bind filling d x b v).bound e.1 c hx, hlisted⟩

/-- The answer may be bound anywhere. -/
lemma Answers.bind {d₀ : Draft} (h : Answers fair filling late d₀ v d) (x : Variable)
    (b : BlockId) : Answers fair filling late d₀ v { d with vars := d.vars.bind x b v } :=
  ⟨h.formed.bind h.lasting x b, h.settled, h.kept.trans (.of_bind filling d x b v), h.lasting⟩

/-! ## Folding -/

/-- What folding comes to: some phis that were not guarded are gone, and all values are followed
to their ends. -/
structure Folds (rs : List Replacement) (d d' : Draft) : Prop where
  func : Folded d.func d'.func rs
  spared : ∀ r ∈ rs, r.phi ∉ d.vars.guarded
  guarded : d'.vars.guarded = d.vars.guarded
  pendingAt : ∀ b, d'.vars.pendingAt b = d.vars.pendingAt b
  isSealed : ∀ b, d'.vars.isSealed b = d.vars.isSealed b
  value? : ∀ x b, d'.vars.value? x b = (d.vars.value? x b).map (Replacement.resolve rs)

lemma foldPhis_yields {left : List InstId} (hs : d.Settled left) :
    (Draft.foldPhis left).Yields d fun rs d' => Folds rs d d' ∧ d'.Settled [] := by
  have hsettles := @foldTrivialPhis_settles d.func left (!d.vars.guarded.contains ·)
    fun i hi hmay hnot => hs i hi (by simpa using hmay) hnot
  obtain ⟨hfolded, hmay⟩ := foldTrivialPhis_folded d.func left (!d.vars.guarded.contains ·)
  unfold Draft.foldPhis
  apply Work.Yields.get_bind
  generalize d.func.foldTrivialPhis left (!d.vars.guarded.contains ·) = folded at *
  obtain ⟨g, rs⟩ := folded
  -- where nothing was replaced the bindings are left alone, which comes to the same
  set vars := if rs.isEmpty then d.vars else d.vars.mapValues (Replacement.resolve rs) with hvars
  have hguarded : vars.guarded = d.vars.guarded := by
    rw [hvars]
    split <;> rfl
  refine ⟨⟨hfolded, fun r hr => by simpa using hmay r hr, hguarded, ?_, ?_, ?_⟩, ?_⟩
  · intro c
    show vars.pendingAt c = d.vars.pendingAt c
    rw [hvars]
    split <;> rfl
  · intro c
    show vars.isSealed c = d.vars.isSealed c
    rw [hvars]
    split <;> rfl
  · intro y c
    show vars.value? y c = _
    rw [hvars]
    split
    · rename_i hnil
      rw [List.isEmpty_iff.1 hnil]
      cases d.vars.value? y c <;> rfl
    · exact Bindings.value?_mapValues _
  · intro i hi hnot _ node hnode
    have hnot' : i ∉ vars.guarded := hnot
    rw [hguarded] at hnot'
    exact hsettles i hi (by simpa using hnot') node hnode

namespace Folds

variable {rs : List Replacement}

/-- Guarded phis are spared. -/
lemma merges (hf : Folds rs d d') (h : d.Grounded fair) {i : InstId} (hi : i ∈ d.vars.guarded)
    {l : List BlockId} (hm : d.func.Merges i b l) : d'.func.Merges i b l := by
  refine hf.func.merges h.placed hm ?_
  rintro r hr rfl
  exact hf.spared r hr hi

lemma closed_iff (hf : Folds rs d d') (c : BlockId) : d'.Closed late c ↔ d.Closed late c := by
  unfold Closed
  rw [hf.isSealed]

lemma kept (hf : Folds rs d d') (h : d.Formed fair filling late) : Kept filling d d' where
  merges i hi _ _ hm := hf.merges h.toGrounded ((h.guarded i).2 (.inl hi)) hm
  preds := hf.func.preds_eq h.placed
  hasBlock := hf.func.hasBlock_eq h.placed
  isSealed := hf.isSealed
  bound y c hy := by
    rw [hf.value?, Option.isSome_map]
    exact hy

lemma grounded (hf : Folds rs d d') (h : d.Grounded fair) : d'.Grounded fair := by
  have hpreds := hf.func.preds_eq h.placed
  refine ⟨hf.func.listsPlaced h.placed, ?_, ?_, ?_, ?_⟩
  · intro c cc' hc' i hi
    obtain ⟨cc, hc, -, hphis⟩ := hf.func.mem_phis h.placed hc'
    obtain ⟨hi, hnot⟩ := (hphis i).1 hi
    obtain ⟨l, hm⟩ := h.phis c cc hc i hi
    exact ⟨l, hf.func.merges h.placed hm hnot⟩
  · intro c
    rw [hpreds]
    exact h.predsOnce c
  · intro c p hp
    rw [hpreds] at hp
    exact (hf.func.hasBlock_eq h.placed p).trans (h.predsThere c p hp)
  · intro hfair
    obtain ⟨hops, hbound⟩ := h.lasting hfair
    refine ⟨hf.func.operandsLast h.placed hops, ?_⟩
    intro y c u hu
    rw [hf.value?] at hu
    obtain ⟨u₀, hu₀, rfl⟩ := Option.map_eq_some_iff.1 hu
    exact hf.func.lasting_resolve h.placed hops (hbound y c u₀ hu₀)

lemma formed (hf : Folds rs d d') (h : d.Formed fair filling late) :
    d'.Formed fair filling late := by
  have hkept := hf.kept h
  refine ⟨hf.grounded h.toGrounded, ?_, ?_, ?_, ?_, ?_, ?_⟩
  · intro i
    simp only [hf.guarded, hf.pendingAt]
    exact h.guarded i
  · intro i hi
    obtain ⟨c, l, hm, hc⟩ := h.filled i hi
    exact ⟨c, l, hkept.merges i hi c l hm, (hf.closed_iff c).2 hc⟩
  · intro c e he
    rw [hf.pendingAt] at he
    obtain ⟨hnot, hm, hy, cc, hc, hlisted⟩ := h.pending c e he
    have hg : e.2 ∈ d.vars.guarded := (h.guarded e.2).2 (.inr ⟨c, e, he, rfl⟩)
    refine ⟨fun hcl => hnot ((hf.closed_iff c).1 hcl), hf.merges h.toGrounded hg hm,
      hkept.bound e.1 c hy, ?_⟩
    -- the block is still there, and lists the placeholder
    have hthere : d'.func.hasBlock c = true :=
      (hkept.hasBlock c).trans (Option.isSome_iff_exists.2 ⟨cc, hc⟩)
    obtain ⟨cc', hc'⟩ := Option.isSome_iff_exists.1 hthere
    obtain ⟨cc₀, hc₀, -, hphis⟩ := hf.func.mem_phis h.placed hc'
    rw [hc] at hc₀
    cases hc₀
    refine ⟨cc', hc', (hphis _).2 ⟨hlisted, ?_⟩⟩
    intro r hr heq
    exact hf.spared r hr (heq ▸ hg)
  · intro c
    rw [hf.pendingAt]
    exact h.once c
  · intro c cc' hc' hnot i hi
    obtain ⟨cc, hc, -, hphis⟩ := hf.func.mem_phis h.placed hc'
    rw [hf.pendingAt]
    exact h.waiting c cc hc (fun hcl => hnot ((hf.closed_iff c).2 hcl)) i ((hphis i).1 hi).1
  · intro c cc' hc' hcl i hi hnot
    obtain ⟨cc, hc, -, hphis⟩ := hf.func.mem_phis h.placed hc'
    obtain ⟨hi, hstays⟩ := (hphis i).1 hi
    rw [hkept.preds]
    exact hf.func.merges h.placed (h.complete c cc hc ((hf.closed_iff c).1 hcl) i hi hnot) hstays

end Folds

/-! ## New instructions -/

/-- A new instruction is well placed, and if its operands last, so do all. -/
lemma Grounded.appended {fair' : Prop} {new : Inst} (h : d.Grounded fair)
    (ha : Appended d.func d'.func b new) (hfair : fair' → fair)
    (hnew : fair' → ∀ v ∈ new.operands, d.func.Lasting v)
    (hbound : fair' → ∀ x c v, d'.vars.value? x c = some v → d'.func.Lasting v) :
    d'.Grounded fair' := by
  refine ⟨ha.listsPlaced h.placed, ?_, ?_, ?_, ?_⟩
  · intro c cc hc i hi
    obtain ⟨old, hold, -, -, hphis⟩ := ha.mem_phis hc
    rcases (hphis i).1 hi with hi | ⟨hphi, rfl, rfl⟩
    · obtain ⟨l, hm⟩ := h.phis c old hold i hi
      exact ⟨l, ha.merges hm⟩
    · obtain ⟨node, rfl⟩ := Inst.isPhi_iff.1 hphi
      exact ⟨node.blocks, node, by rw [ha.inst, if_pos rfl], rfl⟩
  · intro c
    rw [ha.preds_eq]
    exact h.predsOnce c
  · intro c p hp
    rw [ha.preds_eq] at hp
    exact (ha.hasBlock_eq p).trans (h.predsThere c p hp)
  · intro hf
    exact ⟨ha.operandsLast (h.lasting (hfair hf)).1 (hnew hf), hbound hf⟩

/-! ## New phis -/

lemma newPhi_yields (hb : d.func.hasBlock b = true) :
    (Draft.newPhi b).Yields d fun phi d' => phi = d.func.nextInst ∧ d'.vars = d.vars ∧
      Appended d.func d'.func b (.phi .empty) := by
  obtain ⟨bb, hbb⟩ := Option.isSome_iff_exists.1 hb
  obtain ⟨g, hg, happ⟩ := appendInst_eq (.phi .empty) hbb
  apply Work.Yields.get_bind
  apply Work.Yields.ofExcept_bind hg
  exact ⟨rfl, rfl, happ⟩

/-- A phi of block `b` was added, is guarded, and is what `x` is bound to there. -/
structure Opened (x : Variable) (b : BlockId) (phi : InstId) (d d' : Draft) : Prop where
  new : phi = d.func.nextInst
  func : Appended d.func d'.func b (.phi .empty)
  guarded : ∀ i, i ∈ d'.vars.guarded ↔ i = phi ∨ i ∈ d.vars.guarded
  isSealed : ∀ c, d'.vars.isSealed c = d.vars.isSealed c
  value? : ∀ y c,
    d'.vars.value? y c = if y = x ∧ c = b then some (.inst phi) else d.vars.value? y c

namespace Opened

lemma merges_new (ho : Opened x b phi d d') : d'.func.Merges phi b [] :=
  ⟨.empty, by rw [ho.func.inst, if_pos ho.new], rfl⟩

lemma closed_iff (ho : Opened x b phi d d') (c : BlockId) :
    d'.Closed late c ↔ d.Closed late c := by
  unfold Closed
  rw [ho.isSealed]

/-- Opening a phi where its variable was not bound loses no binding. -/
lemma value?_keep (ho : Opened x b phi d d') (hnone : d.vars.value? x b = none) {y : Variable}
    {c : BlockId} {u : Value} (hu : d.vars.value? y c = some u) : d'.vars.value? y c = some u := by
  rw [ho.value?, if_neg]
  · exact hu
  · rintro ⟨rfl, rfl⟩
    rw [hnone] at hu
    cases hu

lemma kept (ho : Opened x b phi d d') (filling : List InstId) : Kept filling d d' where
  merges _ _ _ _ hm := ho.func.merges hm
  preds := ho.func.preds_eq
  hasBlock := ho.func.hasBlock_eq
  isSealed := ho.isSealed
  bound y c hy := by
    rw [ho.value?]
    split
    · rfl
    · exact hy

/-- Blocks list the phis they listed, and one of them the new one. -/
lemma mem_phis (ho : Opened x b phi d d') {c : BlockId} {cc : Block}
    (hc : d'.func.block? c = some cc) : ∃ old, d.func.block? c = some old ∧
      ∀ i, i ∈ cc.phis ↔ i ∈ old.phis ∨ (c = b ∧ i = phi) := by
  obtain ⟨old, hold, -, -, hphis⟩ := ho.func.mem_phis hc
  refine ⟨old, hold, ?_⟩
  intro i
  rw [hphis, ho.new]
  simp [Inst.isPhi, Inst.phi?]

lemma grounded (ho : Opened x b phi d d') (h : d.Grounded fair) : d'.Grounded fair := by
  refine h.appended ho.func id (by rintro - v ⟨⟩) ?_
  intro hfair y c u hu
  rw [ho.value?] at hu
  split at hu
  · cases hu
    obtain ⟨node, hnode, -⟩ := ho.merges_new
    exact lasting_of_inst hnode
  · exact (ho.func.lasting_iff u).2 ((h.lasting hfair).2 y c u hu)

lemma settled (ho : Opened x b phi d d') (h : d.Grounded fair) (hs : d.Settled []) :
    d'.Settled [] := by
  intro i hi hnot _ node hnode
  rw [ho.guarded, not_or] at hnot
  rcases ho.func.mem_phiIds hi with hi | ⟨-, hi⟩
  · refine hs i hi hnot.2 List.not_mem_nil node ?_
    -- a phi that is listed was there
    obtain ⟨c, cc, hc, hmem⟩ := mem_phiIds.1 hi
    obtain ⟨l, hm⟩ := h.phis c cc hc i hmem
    unfold phi? at hnode ⊢
    rwa [ho.func.inst, if_neg hm.ne_nextInst] at hnode
  · exact absurd (hi.trans ho.new.symm) hnot.1

/-- Phis that are being filled are so still. -/
lemma filled (ho : Opened x b phi d d') (h : d.Formed fair filling late) {i : InstId}
    (hi : i ∈ filling) : ∃ c l, d'.func.Merges i c l ∧ d'.Closed late c := by
  obtain ⟨c, l, hm, hc⟩ := h.filled i hi
  exact ⟨c, l, ho.func.merges hm, (ho.closed_iff c).2 hc⟩

/-- Placeholders stay what they are. -/
lemma pending (ho : Opened x b phi d d') (h : d.Formed fair filling late) {c : BlockId}
    {e : Variable × InstId} (he : e ∈ d.vars.pendingAt c) :
    ¬ d'.Closed late c ∧ d'.func.Merges e.2 c [] ∧ (d'.vars.value? e.1 c).isSome = true ∧
      ∃ cc, d'.func.block? c = some cc ∧ e.2 ∈ cc.phis := by
  obtain ⟨hnot, hm, hy, old, hold, hlisted⟩ := h.pending c e he
  refine ⟨fun hcl => hnot ((ho.closed_iff c).1 hcl), ho.func.merges hm,
    (ho.kept []).bound e.1 c hy, ?_⟩
  obtain ⟨cc, hc⟩ := Option.isSome_iff_exists.1
    ((ho.func.hasBlock_eq c).trans (Option.isSome_iff_exists.2 ⟨old, hold⟩))
  obtain ⟨old', hold', hphis⟩ := ho.mem_phis hc
  rw [hold] at hold'
  cases hold'
  exact ⟨cc, hc, (hphis e.2).2 (.inl hlisted)⟩

/-- A phi of a closed block is about to be filled. -/
lemma opens (ho : Opened x b phi d d') (h : d.Formed fair filling late)
    (hpending : ∀ c, d'.vars.pendingAt c = d.vars.pendingAt c) (hb : d.Closed late b) :
    d'.Formed fair (phi :: filling) late := by
  refine ⟨ho.grounded h.toGrounded, ?_, ?_, ?_, ?_, ?_, ?_⟩
  · intro i
    rw [ho.guarded, h.guarded, List.mem_cons, or_assoc]
    simp only [hpending]
  · intro i hi
    rcases List.mem_cons.1 hi with rfl | hi
    · exact ⟨b, [], ho.merges_new, (ho.closed_iff b).2 hb⟩
    · exact ho.filled h hi
  · intro c e he
    rw [hpending] at he
    exact ho.pending h he
  · intro c
    rw [hpending]
    exact h.once c
  · intro c cc hc hnot i hi
    obtain ⟨old, hold, hphis⟩ := ho.mem_phis hc
    rw [hpending]
    rcases (hphis i).1 hi with hi | ⟨rfl, -⟩
    · exact h.waiting c old hold (fun hcl => hnot ((ho.closed_iff c).2 hcl)) i hi
    · exact absurd ((ho.closed_iff c).2 hb) hnot
  · intro c cc hc hcl i hi hnot
    obtain ⟨old, hold, hphis⟩ := ho.mem_phis hc
    rw [List.mem_cons, not_or] at hnot
    rw [ho.func.preds_eq]
    rcases (hphis i).1 hi with hi | ⟨-, rfl⟩
    · exact ho.func.merges (h.complete c old hold ((ho.closed_iff c).1 hcl) i hi hnot.2)
    · exact absurd rfl hnot.1

/-- A phi of a block that is not closed is a placeholder. -/
lemma placeholder (ho : Opened x b phi d d') (h : d.Formed fair filling late)
    (hpending : ∀ c, (d'.vars.pendingAt c).Perm
      (if c = b then (x, phi) :: d.vars.pendingAt b else d.vars.pendingAt c))
    (hb : ¬ d.Closed late b) (hthere : d.func.hasBlock b = true) :
    d'.Formed fair filling late := by
  have hmem : ∀ c e, e ∈ d'.vars.pendingAt c ↔ (c = b ∧ e = (x, phi)) ∨ e ∈ d.vars.pendingAt c := by
    intro c e
    rw [(hpending c).mem_iff]
    by_cases hc : c = b
    · subst hc
      simp
    · simp [hc]
  have hnew : ∀ i c l, d.func.Merges i c l → i ≠ phi := fun i c l hm => ho.new ▸ hm.ne_nextInst
  refine ⟨ho.grounded h.toGrounded, ?_, ?_, ?_, ?_, ?_, ?_⟩
  · intro i
    rw [ho.guarded, h.guarded]
    simp only [hmem]
    constructor
    · rintro (rfl | hi | ⟨c, e, he, hei⟩)
      · exact .inr ⟨b, (x, i), .inl ⟨rfl, rfl⟩, rfl⟩
      · exact .inl hi
      · exact .inr ⟨c, e, .inr he, hei⟩
    · rintro (hi | ⟨c, e, ⟨rfl, rfl⟩ | he, hei⟩)
      · exact .inr (.inl hi)
      · exact .inl hei.symm
      · exact .inr (.inr ⟨c, e, he, hei⟩)
  · exact fun i hi => ho.filled h hi
  · intro c e he
    -- the new phi waits at its block, and is bound there
    rcases (hmem c e).1 he with ⟨rfl, rfl⟩ | he
    · refine ⟨fun hcl => hb ((ho.closed_iff c).1 hcl), ho.merges_new, ?_, ?_⟩
      · rw [ho.value?, if_pos ⟨rfl, rfl⟩]
        rfl
      · obtain ⟨cc, hc⟩ := Option.isSome_iff_exists.1 ((ho.func.hasBlock_eq c).trans hthere)
        obtain ⟨old, -, hphis⟩ := ho.mem_phis hc
        exact ⟨cc, hc, (hphis phi).2 (.inr ⟨rfl, rfl⟩)⟩
    · exact ho.pending h he
  · intro c
    refine ((hpending c).map (·.2)).nodup_iff.2 ?_
    split
    · rw [List.map_cons, List.nodup_cons]
      refine ⟨?_, h.once b⟩
      intro hphi
      -- the handle is new, so no phi waited under it
      obtain ⟨e, he, heq⟩ := List.mem_map.1 hphi
      exact hnew _ _ _ (h.pending b e he).2.1 heq
    · exact h.once c
  · intro c cc hc hnot i hi
    obtain ⟨old, hold, hphis⟩ := ho.mem_phis hc
    rcases (hphis i).1 hi with hi | ⟨rfl, rfl⟩
    · obtain ⟨e, he, heq⟩ := h.waiting c old hold (fun hcl => hnot ((ho.closed_iff c).2 hcl)) i hi
      exact ⟨e, (hmem c e).2 (.inr he), heq⟩
    · exact ⟨(x, i), (hmem c _).2 (.inl ⟨rfl, rfl⟩), rfl⟩
  · intro c cc hc hcl i hi hnot
    obtain ⟨old, hold, hphis⟩ := ho.mem_phis hc
    -- the new phi is not in a closed block, where phis have to be complete
    rw [ho.func.preds_eq]
    rcases (hphis i).1 hi with hi | ⟨rfl, -⟩
    · exact ho.func.merges (h.complete c old hold ((ho.closed_iff c).1 hcl) i hi hnot)
    · exact absurd ((ho.closed_iff c).1 hcl) hb

end Opened

end Draft

end SsaBackend
