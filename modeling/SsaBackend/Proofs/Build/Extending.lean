import SsaBackend.Proofs.Build.Phis

/-!
# Edits that leave the phis alone

Making a block, appending an instruction and completing a block add to the function of a draft.
The blocks keep the phis they have, and no sealed block gets a predecessor: such an edit extends
the draft (`Draft.Extended`), and the phis stay in form (`Draft.Extended.formed`).
-/

namespace SsaBackend

namespace Func

/-! ## A new terminator -/

namespace Terminated

variable {f g : Func} {b : BlockId} {t : Terminator}

lemma lasting (h : Terminated f g b t) {v : Value} (hv : f.Lasting v) : g.Lasting v := by
  refine hv.of_gone ?_
  rintro i ⟨hlt, hnone⟩
  refine ⟨?_, (h.inst? i).symm.trans hnone⟩
  rwa [← h.capacity]

lemma operandsLast (h : Terminated f g b t) (hf : f.OperandsLast)
    (hnew : ∀ v ∈ t.operands, f.Lasting v) : g.OperandsLast := by
  refine ⟨?_, ?_⟩
  · intro i p hp v hv
    rw [h.inst?] at hp
    exact h.lasting (hf.insts i p hp v hv)
  · intro c cc hc t' ht' v hv
    obtain ⟨old, hold, rfl⟩ := h.of_block hc
    change (if c = b then some t else old.terminator) = some t' at ht'
    split at ht'
    · cases ht'
      exact h.lasting (hnew v hv)
    · exact h.lasting (hf.ends c old hold t' ht' v hv)

end Terminated

end Func

namespace Draft

open Func

variable {fair fair' : Prop} {d d' : Draft} {f : Func} {b : BlockId}

/-! ## Extending a draft -/

/-- The instructions of `d` are still there, its blocks have the phis they had, and the sealed ones
the predecessors they had. -/
structure Extended (d d' : Draft) : Prop where
  vars : d'.vars = d.vars
  inst : ∀ i p, d.func.inst? i = some p → d'.func.inst? i = some p
  phis : ∀ b i, (∃ bb, d'.func.block? b = some bb ∧ i ∈ bb.phis) ↔
    ∃ bb, d.func.block? b = some bb ∧ i ∈ bb.phis
  preds : ∀ b, d.vars.isSealed b = true → d'.func.preds b = d.func.preds b

namespace Extended

lemma merges (he : Extended d d') {i : InstId} {l : List BlockId} (hm : d.func.Merges i b l) :
    d'.func.Merges i b l := by
  obtain ⟨node, hnode, hblocks⟩ := hm
  exact ⟨node, he.inst i _ hnode, hblocks⟩

lemma closed_iff (he : Extended d d') (b : BlockId) : d'.Closed none b ↔ d.Closed none b := by
  unfold Closed
  rw [he.vars]

lemma formed (he : Extended d d') (h : d.Formed fair [] none) (hg : d'.Grounded fair') :
    d'.Formed fair' [] none := by
  refine ⟨hg, ?_, ?_, ?_, ?_, ?_, ?_⟩
  · rw [he.vars]
    exact h.guarded
  · intro i hi
    cases hi
  · intro c e hmem
    rw [he.vars] at hmem ⊢
    obtain ⟨hnot, hm, hx, hlisted⟩ := h.pending c e hmem
    exact ⟨fun hcl => hnot ((he.closed_iff c).1 hcl), he.merges hm, hx, (he.phis c e.2).2 hlisted⟩
  · rw [he.vars]
    exact h.once
  · intro c cc hc hnot i hi
    obtain ⟨old, hold, hi⟩ := (he.phis c i).1 ⟨cc, hc, hi⟩
    rw [he.vars]
    exact h.waiting c old hold (fun hcl => hnot ((he.closed_iff c).2 hcl)) i hi
  · intro c cc hc hcl i hi hnot
    obtain ⟨old, hold, hi⟩ := (he.phis c i).1 ⟨cc, hc, hi⟩
    have hcl' := (he.closed_iff c).1 hcl
    rw [he.preds c (hcl'.resolve_right (by rintro ⟨⟩))]
    exact he.merges (h.complete c old hold hcl' i hi hnot)

lemma settled (he : Extended d d') (h : d.Grounded fair) (hs : d.Settled []) : d'.Settled [] := by
  intro i hi hnot hleft node hnode
  obtain ⟨c, hlisted⟩ := mem_phiIds.1 hi
  obtain ⟨cc, hc, hmem⟩ := (he.phis c i).1 hlisted
  -- the phi was there before, and is the same
  obtain ⟨l, old, hold, -⟩ := h.phis c cc hc i hmem
  have hnew := phi?_of_inst (he.inst i _ hold)
  rw [hnode] at hnew
  cases hnew
  exact hs i (mem_phiIds.2 ⟨c, cc, hc, hmem⟩) (he.vars ▸ hnot) hleft node (phi?_of_inst hold)

lemma addBlock (d : Draft) : Extended d { d with func := d.func.addBlock } where
  vars := rfl
  inst _ _ h := h
  phis c i := by
    constructor
    · rintro ⟨cc, hc, hi⟩
      rcases block_of_addBlock hc with rfl | hc
      · cases hi
      · exact ⟨cc, hc, hi⟩
    · rintro ⟨cc, hc, hi⟩
      exact ⟨cc, block_addBlock hc, hi⟩
  preds c _ := preds_addBlock d.func c

lemma append {new : Inst} (ha : Appended d.func f b new) (hphi : new.isPhi = false) :
    Extended d { d with func := f } where
  vars := rfl
  inst _ _ h := ha.inst_old h
  phis c i := by
    constructor
    · rintro ⟨cc, hc, hi⟩
      obtain ⟨old, hold, -, -, hphis⟩ := ha.mem_phis hc
      refine ⟨old, hold, ((hphis i).1 hi).resolve_right ?_⟩
      rintro ⟨htrue, -⟩
      rw [hphi] at htrue
      cases htrue
    · rintro ⟨old, hold, hi⟩
      obtain ⟨cc, hc⟩ := Option.isSome_iff_exists.1
        ((ha.hasBlock_eq c).trans (Option.isSome_iff_exists.2 ⟨old, hold⟩))
      obtain ⟨old', hold', -, -, hphis⟩ := ha.mem_phis hc
      rw [hold] at hold'
      cases hold'
      exact ⟨cc, hc, (hphis i).2 (.inl hi)⟩
  preds c _ := ha.preds_eq c

/-- Completing a block gives no sealed block a predecessor, if its successors are not sealed. -/
lemma terminate {t : Terminator} (ht : Terminated d.func f b t)
    (hopen : ∀ s ∈ t.successors, d.vars.isSealed s = false) :
    Extended d { d with func := f } where
  vars := rfl
  inst i _ h := (ht.inst? i).trans h
  phis c i := by
    constructor
    · rintro ⟨cc, hc, hi⟩
      obtain ⟨old, hold, rfl⟩ := ht.of_block hc
      exact ⟨old, hold, hi⟩
    · rintro ⟨old, hold, hi⟩
      have hc := ht.block c
      rw [hold, Option.map_some] at hc
      exact ⟨_, hc, hi⟩
  preds c hc := by
    apply ht.preds_eq
    intro hmem
    rw [hopen c hmem] at hc
    cases hc

end Extended

/-! ## The ground under the phis -/

lemma Grounded.addBlock (h : d.Grounded fair) :
    { d with func := d.func.addBlock }.Grounded fair := by
  refine ⟨?_, ?_, ?_, ?_, ?_⟩
  · rintro c i ⟨cc, hc, hi⟩
    rcases block_of_addBlock hc with rfl | hc
    · cases hi
    · exact h.placed c i ⟨cc, hc, hi⟩
  · intro c cc hc i hi
    rcases block_of_addBlock hc with rfl | hc
    · cases hi
    · exact h.phis c cc hc i hi
  · intro c
    rw [preds_addBlock]
    exact h.predsOnce c
  · intro c p hp
    rw [preds_addBlock] at hp
    obtain ⟨pp, hpp⟩ := Option.isSome_iff_exists.1 (h.predsThere c p hp)
    exact Option.isSome_iff_exists.2 ⟨pp, block_addBlock hpp⟩
  · intro hfair
    obtain ⟨hops, hbound⟩ := h.lasting hfair
    refine ⟨⟨hops.insts, ?_⟩, hbound⟩
    intro c cc hc t ht v hv
    rcases block_of_addBlock hc with rfl | hc
    · cases ht
    · exact hops.ends c cc hc t ht v hv

lemma Grounded.terminated {t : Terminator} (h : d.Grounded fair) (ht : Terminated d.func f b t)
    (hfair : fair' → fair) (hnew : fair' → ∀ v ∈ t.operands, d.func.Lasting v) :
    { d with func := f }.Grounded fair' := by
  refine ⟨?_, ?_, fun c => ht.nodup_preds (h.predsOnce c), ?_, ?_⟩
  · rintro c i ⟨cc, hc, hi⟩
    obtain ⟨old, hold, rfl⟩ := ht.of_block hc
    rw [ht.inst?]
    exact h.placed c i ⟨old, hold, hi⟩
  · intro c cc hc i hi
    obtain ⟨old, hold, rfl⟩ := ht.of_block hc
    obtain ⟨l, node, hnode, hblocks⟩ := h.phis c old hold i hi
    exact ⟨l, node, (ht.inst? i).trans hnode, hblocks⟩
  · intro c p hp
    refine (ht.hasBlock_eq p).trans ?_
    rcases ht.mem_preds_iff.1 hp with hp | ⟨rfl, -⟩
    · exact h.predsThere c p hp
    · obtain ⟨bb, hb, -⟩ := ht.was
      exact Option.isSome_iff_exists.2 ⟨bb, hb⟩
  · intro hf
    obtain ⟨hops, hbound⟩ := h.lasting (hfair hf)
    exact ⟨ht.operandsLast hops (hnew hf), fun x c v hv => ht.lasting (hbound x c v hv)⟩

end Draft

end SsaBackend
