import SsaBackend.Proofs.Build.Evolving

/-!
# The phis of one variable

The phis that reads of a variable `x` make refer to each other and to the values that were assigned
to `x`. They are told apart from other phis by a predicate `X`. Once `x` is assigned in the entry
and nowhere else, they form a web: the phis of `X` are what their blocks bind to `x`, an operand is
what the predecessor binds, and a block that binds `x` without a phi of its own is closed and binds
what all its predecessors bind (`Draft.Web`). Every step that work on a draft is made of keeps this.
Two of them need an argument. When phis are folded, the blocks where they were pass on one value
(`Draft.Web.folds`), and when a block is sealed, no phi is left in it if it has one predecessor
only (`Draft.Web.markSealed`).
-/

namespace SsaBackend

namespace Func

/-- The block lists the instruction among its phis. -/
def ListsPhi (f : Func) (b : BlockId) (i : InstId) : Prop :=
  ∃ bb, f.block? b = some bb ∧ i ∈ bb.phis

/-- Blocks list the phis that are not replaced. -/
lemma Folded.listsPhi_iff {f g : Func} {rs : List Replacement} (h : Folded f g rs)
    (hf : f.ListsPlaced) {b : BlockId} {i : InstId} :
    g.ListsPhi b i ↔ f.ListsPhi b i ∧ ∀ r ∈ rs, r.phi ≠ i := by
  constructor
  · rintro ⟨bb', hb', hi⟩
    obtain ⟨bb, hb, -, hphis⟩ := h.mem_phis hf hb'
    exact ⟨⟨bb, hb, ((hphis i).1 hi).1⟩, ((hphis i).1 hi).2⟩
  · rintro ⟨⟨bb, hb, hi⟩, hnot⟩
    obtain ⟨bb', hb'⟩ := Option.isSome_iff_exists.1
      ((h.hasBlock_eq hf b).trans (Option.isSome_iff_exists.2 ⟨bb, hb⟩))
    obtain ⟨old, hold, -, hphis⟩ := h.mem_phis hf hb'
    rw [hb] at hold
    cases hold
    exact ⟨bb', hb', (hphis i).2 ⟨hi, hnot⟩⟩

end Func

namespace Draft

open Func

/-- The phis of `X` are those of the variable `x`: they make up its bindings, and the blocks that
have none of them pass on what their predecessors bind. -/
structure Web (x : Variable) (X : InstId → Prop) (late : Option BlockId) (d : Draft) : Prop where
  /-- A block that has such a phi binds `x` to it, is not the entry, and when it is sealed has not
  one predecessor only. -/
  own : ∀ b i, d.func.ListsPhi b i → X i → b ≠ d.func.entry ∧
    d.vars.value? x b = some (.inst i) ∧ (d.vars.isSealed b = true → ∀ p, d.func.preds b ≠ [p])
  /-- What flows in from a block is what it binds to `x`. -/
  operands : ∀ i node, X i → d.func.phi? i = some node → ∀ op ∈ node.operands,
    d.vars.value? x op.block = some op.value
  listed : ∀ i p, X i → d.func.inst? i = some p → d.func.ListsPhi p.block i
  /-- A block that binds `x` and has no such phi binds what its predecessors bind. -/
  passed : ∀ b v, b ≠ d.func.entry → d.vars.value? x b = some v →
    (∃ i, d.func.ListsPhi b i ∧ X i) ∨
      (d.Closed late b ∧ ∀ p ∈ d.func.preds b, d.vars.value? x p = some v)
  pending : ∀ b, ∀ e ∈ d.vars.pendingAt b, (X e.2 ↔ e.1 = x)

variable {fair : Prop} {filling : List InstId} {late late' : Option BlockId} {d d' : Draft}
  {x y : Variable} {X X' : InstId → Prop} {b p : BlockId} {v : Value} {phi : InstId}

/-- Blocks list the phis they listed, and one of them the phi that was opened. -/
lemma Opened.listsPhi_iff (ho : Opened y b phi d d') (hb : d.func.hasBlock b = true) {c : BlockId}
    {i : InstId} : d'.func.ListsPhi c i ↔ d.func.ListsPhi c i ∨ (c = b ∧ i = phi) := by
  constructor
  · rintro ⟨cc, hc, hi⟩
    obtain ⟨old, hold, hphis⟩ := ho.mem_phis hc
    exact ((hphis i).1 hi).imp_left fun hi => ⟨old, hold, hi⟩
  · intro h
    have hthere : d.func.hasBlock c = true := by
      rcases h with ⟨old, hold, -⟩ | ⟨rfl, -⟩
      · exact Option.isSome_iff_exists.2 ⟨old, hold⟩
      · exact hb
    obtain ⟨cc, hc⟩ := Option.isSome_iff_exists.1 ((ho.func.hasBlock_eq c).trans hthere)
    obtain ⟨old, hold, hphis⟩ := ho.mem_phis hc
    refine ⟨cc, hc, (hphis i).2 (h.imp_left ?_)⟩
    rintro ⟨old', hold', hi⟩
    rw [hold] at hold'
    cases hold'
    exact hi

namespace Web

/-- Which phis are of the variable matters for those that are there. -/
lemma congr (h : d.Web x X late) (hform : d.Formed fair filling late)
    (hX : ∀ i, i.index < d.func.instCapacity → (X' i ↔ X i)) : d.Web x X' late := by
  have hlisted : ∀ {b i}, d.func.ListsPhi b i → (X' i ↔ X i) := by
    rintro b i ⟨bb, hb, hi⟩
    obtain ⟨l, node, hnode, -⟩ := hform.phis b bb hb i hi
    exact hX i (lt_instCapacity hnode)
  refine ⟨?_, ?_, ?_, ?_, ?_⟩
  · intro b i hi hXi
    exact h.own b i hi ((hlisted hi).1 hXi)
  · intro i node hXi hnode
    obtain ⟨c, hinst⟩ := phi?_some hnode
    exact h.operands i node ((hX i (lt_instCapacity hinst)).1 hXi) hnode
  · intro i p hXi hp
    exact h.listed i p ((hX i (lt_instCapacity hp)).1 hXi) hp
  · intro b v hb hv
    refine (h.passed b v hb hv).imp_left ?_
    rintro ⟨i, hi, hXi⟩
    exact ⟨i, hi, (hlisted hi).2 hXi⟩
  · intro b e he
    obtain ⟨node, hnode, -⟩ := (hform.pending b e he).2.1
    exact (hX _ (lt_instCapacity hnode)).trans (h.pending b e he)

/-- A step that leaves the function and the bindings of `x` alone. -/
lemma of_same (h : d.Web x X late) (hfunc : d'.func = d.func)
    (hvalues : ∀ c, d'.vars.value? x c = d.vars.value? x c)
    (hsealed : ∀ c, d'.vars.isSealed c = d.vars.isSealed c)
    (hclosed : ∀ c, d.Closed late c → d'.Closed late' c)
    (hpending : ∀ c, ∀ e ∈ d'.vars.pendingAt c, e ∈ d.vars.pendingAt c) : d'.Web x X late' := by
  refine ⟨?_, ?_, ?_, ?_, fun c e he => h.pending c e (hpending c e he)⟩
  · rw [hfunc]
    simp only [hvalues, hsealed]
    exact h.own
  · rw [hfunc]
    simp only [hvalues]
    exact h.operands
  · rw [hfunc]
    exact h.listed
  · rw [hfunc]
    simp only [hvalues]
    exact fun c v hc hv => (h.passed c v hc hv).imp_right (And.imp_left (hclosed c))

/-- Guards do not matter. -/
lemma reguard (h : d.Web x X late) (G : List InstId) :
    { d with vars := { d.vars with guarded := G } }.Web x X late :=
  h.of_same rfl (fun _ => rfl) (fun _ => rfl) (fun _ hc => hc) fun _ _ he => he

/-- When the placeholders of a block are taken off the list, the block is about to be sealed. -/
lemma dropPending (h : d.Web x X none) (b : BlockId) :
    { d with vars := d.vars.dropPending b }.Web x X (some b) := by
  refine h.of_same rfl (fun _ => rfl) (fun _ => rfl) ?_ ?_
  · rintro c (hc | ⟨⟨⟩⟩)
    exact .inl hc
  · intro c e he
    rw [Bindings.pendingAt_dropPending] at he
    split at he
    · cases he
    · exact he

/-- A block may be bound to what all its predecessors bind. -/
lemma bind (h : d.Web x X late) (hnone : d.vars.value? x b = none) (hclosed : d.Closed late b)
    (hpreds : ∀ p ∈ d.func.preds b, d.vars.value? x p = some v) :
    { d with vars := d.vars.bind x b v }.Web x X late := by
  have hkeep : ∀ c u, d.vars.value? x c = some u → (d.vars.bind x b v).value? x c = some u :=
    fun _ _ hu => Bindings.value?_bind_of_none hnone hu
  refine ⟨?_, ?_, h.listed, ?_, h.pending⟩
  · intro c i hi hX
    obtain ⟨hc, hv, hs⟩ := h.own c i hi hX
    exact ⟨hc, hkeep c _ hv, hs⟩
  · intro i node hX hnode op hop
    exact hkeep _ _ (h.operands i node hX hnode op hop)
  · intro c u hc hu
    change (d.vars.bind x b v).value? x c = some u at hu
    rw [Bindings.value?_bind] at hu
    split at hu
    · rename_i he
      obtain ⟨-, rfl⟩ := he
      cases hu
      exact .inr ⟨hclosed, fun p hp => hkeep p _ (hpreds p hp)⟩
    · refine (h.passed c u hc hu).imp_right (And.imp_right ?_)
      exact fun hall p hp => hkeep p _ (hall p hp)

/-- A phi may be made in a block that does not bind its variable yet. -/
lemma opened (h : d.Web x X late) (ho : Opened y b phi d d') (hb : d.func.hasBlock b = true)
    (hnone : d.vars.value? y b = none) (hX : X phi ↔ y = x)
    (hentry : y = x → b ≠ d.func.entry)
    (hmany : d.vars.isSealed b = true → ∀ p, d.func.preds b ≠ [p])
    (hpending : ∀ c, ∀ e ∈ d'.vars.pendingAt c, e ∈ d.vars.pendingAt c ∨ e = (y, phi)) :
    d'.Web x X late := by
  have hkeep : ∀ c u, d.vars.value? x c = some u → d'.vars.value? x c = some u :=
    fun _ _ hu => ho.value?_keep hnone hu
  refine ⟨?_, ?_, ?_, ?_, ?_⟩
  · intro c i hi hXi
    rw [ho.func.preds_eq, ho.isSealed]
    rcases (ho.listsPhi_iff hb).1 hi with hi | ⟨rfl, rfl⟩
    · obtain ⟨hc, hv, hs⟩ := h.own c i hi hXi
      exact ⟨hc, hkeep c _ hv, hs⟩
    · obtain rfl := hX.1 hXi
      exact ⟨hentry rfl, by rw [ho.value?, if_pos ⟨rfl, rfl⟩], hmany⟩
  · intro i node hXi hnode op hop
    unfold phi? at hnode
    rw [ho.func.inst] at hnode
    split at hnode
    · cases hnode
      -- the new phi has no operands yet
      cases hop
    · exact hkeep _ _ (h.operands i node hXi hnode op hop)
  · intro i q hXi hq
    rw [ho.listsPhi_iff hb]
    rcases ho.func.of_inst hq with ⟨rfl, rfl⟩ | hq
    · exact .inr ⟨rfl, ho.new.symm⟩
    · exact .inl (h.listed i q hXi hq)
  · intro c u hc hu
    rw [ho.func.preds_eq, ho.closed_iff]
    rw [ho.value?] at hu
    split at hu
    · rename_i he
      -- where the variable is bound now, the new phi is listed
      obtain ⟨rfl, rfl⟩ := he
      exact .inl ⟨phi, (ho.listsPhi_iff hb).2 (.inr ⟨rfl, rfl⟩), hX.2 rfl⟩
    · rcases h.passed c u hc hu with ⟨i, hi, hXi⟩ | ⟨hclosed, hall⟩
      · exact .inl ⟨i, (ho.listsPhi_iff hb).2 (.inl hi), hXi⟩
      · exact .inr ⟨hclosed, fun p hp => hkeep p _ (hall p hp)⟩
  · intro c e he
    rcases hpending c e he with he | rfl
    · exact h.pending c e he
    · exact hX

/-- An operand may be set to what the predecessor binds. -/
lemma widened (h : d.Web x X late) (hw : Widened phi b p v d d')
    (hv : X phi → d.vars.value? x p = some v) : d'.Web x X late := by
  obtain ⟨node, hnode, hinst⟩ := hw.inst
  have hlists : ∀ c i, d'.func.ListsPhi c i ↔ d.func.ListsPhi c i := by
    intro c i
    unfold ListsPhi
    rw [hw.block]
  refine ⟨?_, ?_, ?_, ?_, ?_⟩
  · intro c i hi hX
    rw [hw.vars, hw.preds]
    exact h.own c i ((hlists c i).1 hi) hX
  · intro i node' hX hnode' op hop
    rw [hw.vars]
    unfold phi? at hnode'
    rw [hinst] at hnode'
    split at hnode'
    · rename_i hi
      subst hi
      cases hnode'
      -- the operand that was set is what the predecessor binds
      rcases Phi.mem_setOperand hop with rfl | hop
      · exact hv hX
      · exact h.operands i node hX (phi?_of_inst hnode) op hop
    · exact h.operands i node' hX hnode' op hop
  · intro i q hX hq
    rw [hlists]
    rw [hinst] at hq
    split at hq
    · rename_i hi
      subst hi
      cases hq
      exact h.listed i ⟨.phi node, b⟩ hX hnode
    · exact h.listed i q hX hq
  · intro c u hc hu
    rw [hw.vars] at hu ⊢
    rw [hw.preds]
    unfold Closed
    rw [hw.vars]
    refine (h.passed c u hc hu).imp_left ?_
    rintro ⟨i, hi, hX⟩
    exact ⟨i, (hlists c i).2 hi, hX⟩
  · rw [hw.vars]
    exact h.pending

/-- Where a phi is folded, its block passes on what all operands amount to. -/
lemma folds {rs : List Replacement} (h : d.Web x X late) (hf : Folds rs d d')
    (hform : d.Formed fair filling late) : d'.Web x X late := by
  have hplaced := hform.placed
  have hkeep : ∀ c u, d.vars.value? x c = some u →
      d'.vars.value? x c = some (Replacement.resolve rs u) := by
    intro c u hu
    rw [hf.value?, hu]
    rfl
  refine ⟨?_, ?_, ?_, ?_, ?_⟩
  · intro c i hi hX
    obtain ⟨hi, hnot⟩ := (hf.func.listsPhi_iff hplaced).1 hi
    obtain ⟨hc, hv, hs⟩ := h.own c i hi hX
    rw [hf.func.preds_eq hplaced, hf.isSealed]
    refine ⟨hc, ?_, hs⟩
    rw [hkeep c _ hv, Replacement.resolve_eq_self]
    rintro r hr ⟨⟩
    exact hnot r hr rfl
  · intro i node' hX hnode' op hop
    obtain ⟨node, hnode, rfl⟩ := hf.func.phi_inv hplaced hnode'
    obtain ⟨op₀, hop₀, rfl⟩ := List.mem_map.1 hop
    exact hkeep _ _ (h.operands i node hX hnode op₀ hop₀)
  · intro i q hX hq
    obtain ⟨hnot, p, hp, rfl⟩ := hf.func.inst_inv hplaced hq
    exact (hf.func.listsPhi_iff hplaced).2 ⟨h.listed i p hX hp, hnot⟩
  · intro c u' hc hu'
    rw [hf.value?] at hu'
    obtain ⟨u, hu, rfl⟩ := Option.map_eq_some_iff.1 hu'
    rw [hf.closed_iff, hf.func.preds_eq hplaced]
    rcases h.passed c u hc hu with ⟨i, hi, hX⟩ | ⟨hclosed, hall⟩
    · by_cases hr : ∃ r ∈ rs, r.phi = i
      · obtain ⟨r, hr, rfl⟩ := hr
        obtain ⟨-, hv, -⟩ := h.own c _ hi hX
        rw [hu] at hv
        cases hv
        -- the phi was not guarded, so it had got all its operands
        have hfree := hf.spared r hr
        rw [hform.guarded, not_or] at hfree
        obtain ⟨cc, hcc, hmem⟩ := hi
        have hclosed : d.Closed late c := by
          by_contra hopen
          obtain ⟨e, he, hei⟩ := hform.waiting c cc hcc hopen _ hmem
          exact hfree.2 ⟨c, e, he, hei⟩
        obtain ⟨node, hnode, hblocks⟩ := hform.complete c cc hcc hclosed _ hmem hfree.1
        obtain ⟨node', hnode', hvalues⟩ := hf.func.resolve_value hplaced r hr
        rw [phi?_of_inst hnode] at hnode'
        cases hnode'
        refine .inr ⟨hclosed, ?_⟩
        intro p hp
        rw [← hblocks] at hp
        obtain ⟨op, hop, rfl⟩ := List.mem_map.1 hp
        rw [hkeep _ _ (h.operands r.phi node hX (phi?_of_inst hnode) op hop),
          hvalues op.value (List.mem_map_of_mem hop)]
      · exact .inl ⟨i, (hf.func.listsPhi_iff hplaced).2 ⟨hi, fun r hmem he => hr ⟨r, hmem, he⟩⟩, hX⟩
    · exact .inr ⟨hclosed, fun p hp => hkeep p _ (hall p hp)⟩
  · intro c e he
    rw [hf.pendingAt] at he
    exact h.pending c e he

/-- A phi of a block with one predecessor is trivial, so none is left when the block is sealed. -/
lemma markSealed (h : d.Web x X (some b)) (hform : d.Formed fair [] (some b))
    (hs : d.Settled []) : { d with vars := d.vars.markSealed b }.Web x X none := by
  refine ⟨?_, ?_, h.listed, ?_, ?_⟩
  · intro c i hi hX
    obtain ⟨hc, hv, hmany⟩ := h.own c i hi hX
    refine ⟨hc, Bindings.value?_markSealed.trans hv, ?_⟩
    intro hsealed p hp
    rcases Bindings.isSealed_markSealed.1 hsealed with rfl | hsealed
    · obtain ⟨cc, hcc, hmem⟩ := hi
      have hm := hform.complete c cc hcc (.inr rfl) i hmem List.not_mem_nil
      have hfree := hform.not_guarded hm (.inr rfl)
      obtain ⟨node, hnode, hblocks⟩ := hm
      have hnot := hs i (mem_phiIds.2 ⟨c, cc, hcc, hmem⟩) hfree List.not_mem_nil node
        (phi?_of_inst hnode)
      -- all operands come from the one predecessor
      have hone : ∃ op, node.operands = [op] := by
        have hlen := congrArg List.length (hblocks.trans hp)
        rw [Phi.blocks, List.length_map] at hlen
        exact List.length_eq_one_iff.1 hlen
      obtain ⟨op, hop⟩ := hone
      obtain ⟨v, hv, -, hne⟩ := Phi.exists_ne_of_not_trivial hnot op.value
      rw [Phi.values, hop] at hv
      exact hne (List.mem_singleton.1 hv)
    · exact hmany hsealed p hp
  · intro i node hX hnode op hop
    exact Bindings.value?_markSealed.trans (h.operands i node hX hnode op hop)
  · intro c u hc hu
    change (d.vars.markSealed b).value? x c = some u at hu
    rw [Bindings.value?_markSealed] at hu
    refine (h.passed c u hc hu).imp_right ?_
    rintro ⟨hclosed, hall⟩
    refine ⟨.inl (Bindings.isSealed_markSealed.2 ?_), ?_⟩
    · rcases hclosed with hsealed | he
      · exact .inr hsealed
      · exact .inl (Option.some.inj he).symm
    · exact fun p hp => Bindings.value?_markSealed.trans (hall p hp)
  · intro c e he
    change e ∈ (d.vars.markSealed b).pendingAt c at he
    rw [Bindings.pendingAt_markSealed] at he
    exact h.pending c e he

/-- Edits that leave phis alone do not touch the web. -/
lemma extended (h : d.Web x X none) (he : Extended d d')
    (hinst : ∀ i, X i → d'.func.inst? i = d.func.inst? i) : d'.Web x X none := by
  refine ⟨?_, ?_, ?_, ?_, ?_⟩
  · intro c i hi hX
    obtain ⟨hc, hv, hmany⟩ := h.own c i ((he.phis c i).1 hi) hX
    rw [he.vars]
    refine ⟨hc, hv, ?_⟩
    intro hsealed
    rw [he.preds c hsealed]
    exact hmany hsealed
  · intro i node hX hnode
    rw [he.vars]
    unfold phi? at hnode
    rw [hinst i hX] at hnode
    exact h.operands i node hX hnode
  · intro i q hX hq
    rw [hinst i hX] at hq
    exact (he.phis _ i).2 (h.listed i q hX hq)
  · intro c u hc hu
    rw [he.vars] at hu ⊢
    rw [he.closed_iff]
    rcases h.passed c u hc hu with ⟨i, hi, hX⟩ | ⟨hclosed, hall⟩
    · exact .inl ⟨i, (he.phis c i).2 hi, hX⟩
    · refine .inr ⟨hclosed, ?_⟩
      rw [he.preds c (hclosed.resolve_right (by rintro ⟨⟩))]
      exact hall
  · rw [he.vars]
    exact h.pending

/-- The first assignment, in the entry. -/
lemma define (h : d.Web x X late) (hnone : ∀ c, d.vars.value? x c = none) (v : Value) :
    { d with vars := d.vars.bind x d.func.entry v }.Web x X late := by
  have hbare : ∀ c i, d.func.ListsPhi c i → ¬ X i := by
    intro c i hi hX
    have hv := (h.own c i hi hX).2.1
    rw [hnone] at hv
    cases hv
  refine ⟨fun c i hi hX => absurd hX (hbare c i hi), ?_, h.listed, ?_, h.pending⟩
  · intro i node hX hnode
    obtain ⟨c, hinst⟩ := phi?_some hnode
    exact absurd hX (hbare _ i (h.listed i _ hX hinst))
  · intro c u hc hu
    change (d.vars.bind x d.func.entry v).value? x c = some u at hu
    rw [Bindings.value?_bind, if_neg (fun he => hc he.2), hnone] at hu
    cases hu

end Web

end Draft

end SsaBackend
