import Mathlib.Data.Finset.Card
import Mathlib.Logic.Relation
import SsaBackend.Proofs.Build.Forming
import SsaBackend.Proofs.Func.Edges

/-!
# Reads and seals come to an end

A walk back goes on for ever only if it comes round to a block again, over sealed blocks that
have one predecessor each and do not bind the variable. Where a read comes to no such ring
(`Draft.Straight`) every walk ends, since it passes each block once at most. Reads inside one
another end as well: each join binds the variable in one block more before its predecessors are
read (`Draft.Formed.read_halts`). So a block can be sealed if no read for a placeholder that waits
in it comes to such a ring (`Draft.Formed.sealBlock_halts`).
-/

namespace SsaBackend

namespace Func

/-- No more blocks are there than places for them. -/
lemma length_le_blockCapacity {f : Func} {l : List BlockId} (hl : l.Nodup)
    (hthere : ∀ b ∈ l, f.hasBlock b = true) : l.length ≤ f.blockCapacity := by
  have hmap : (l.map (·.index)).Nodup := hl.map fun _ _ => BlockId.index_inj.1
  have hsub : l.map (·.index) ⊆ List.range f.blockCapacity := by
    intro n hn
    obtain ⟨b, hb, rfl⟩ := List.mem_map.1 hn
    exact List.mem_range.2 (lt_blockCapacity_of_hasBlock (hthere b hb))
  simpa using (hmap.subperm hsub).length_le

lemma length_blockIds_le (f : Func) : f.blockIds.length ≤ f.blockCapacity := by
  unfold blockIds liveBlocks
  rw [List.length_map]
  exact (List.length_filterMap_le _ _).trans List.length_range.le

end Func

namespace Draft

open Func Relation

variable {fair : Prop} {filling : List InstId} {late : Option BlockId} {d d' : Draft}
  {x : Variable} {b p : BlockId} {v : Value} {phi : InstId}

/-! ## Walking back -/

/-- A walk back for the variable passes from a block to its predecessor. -/
def Passes (x : Variable) (d : Draft) (b p : BlockId) : Prop :=
  d.vars.value? x b = none ∧ d.vars.isSealed b = true ∧ d.func.preds b = [p]

/-- A read of the variable in a block goes on to a predecessor, if need be to each of them. -/
def GoesOn (x : Variable) (d : Draft) (b p : BlockId) : Prop :=
  d.vars.value? x b = none ∧ d.vars.isSealed b = true ∧ p ∈ d.func.preds b

/-- No block that a read in `b` comes to is one that a walk back comes round to again. -/
def Straight (x : Variable) (d : Draft) (b : BlockId) : Prop :=
  ∀ c, ReflTransGen (GoesOn x d) b c → ¬ TransGen (Passes x d) c c

/-- Some read by which a placeholder in the block is filled comes to a block that a walk back comes
round to again. -/
def Circles (d : Draft) (b : BlockId) : Prop :=
  ∃ e ∈ d.vars.pendingAt b, ∃ p ∈ d.func.preds b, ¬ d.Straight e.1 p

lemma Passes.goesOn (h : Passes x d b p) : GoesOn x d b p :=
  ⟨h.1, h.2.1, h.2.2 ▸ List.mem_singleton_self p⟩

lemma Straight.goesOn (h : d.Straight x b) (hp : GoesOn x d b p) : d.Straight x p :=
  fun c hc => h c (hc.head hp)

/-- What is not bound was not bound before. -/
lemma Kept.value?_none (hk : Kept filling d d') (hnone : d'.vars.value? x b = none) :
    d.vars.value? x b = none := by
  by_contra hbound
  have hsome := hk.bound x b (Option.isSome_iff_ne_none.2 hbound)
  rw [hnone] at hsome
  cases hsome

lemma Straight.kept (h : d.Straight x b) (hk : Kept filling d d') : d'.Straight x b := by
  intro c hc hring
  refine h c (ReflTransGen.mono ?_ b c hc) (TransGen.mono ?_ c c hring)
  · rintro e p ⟨hnone, hsealed, hp⟩
    exact ⟨hk.value?_none hnone, (hk.isSealed e).symm.trans hsealed, hk.preds e ▸ hp⟩
  · rintro e p ⟨hnone, hsealed, hpreds⟩
    exact ⟨hk.value?_none hnone, (hk.isSealed e).symm.trans hsealed,
      (hk.preds e).symm.trans hpreds⟩

/-- Where a walk back ends, nothing further on comes round either. -/
lemma Straight.last (h : d.Straight x b) {n : Nat} {passed : List BlockId} {t : Trail}
    (ht : d.trailFrom x n passed b = some t) : d.Straight x t.last := by
  induction n generalizing passed b with
  | zero => cases ht
  | succ n ih =>
    rw [Draft.trailFrom] at ht
    split at ht
    · cases ht
      exact h
    · rename_i hx
      split at ht
      · rename_i hsealed
        split at ht
        · cases ht
          exact h
        · rename_i p hpreds
          exact ih (h.goesOn (Passes.goesOn ⟨hx, hsealed, hpreds⟩)) ht
        · cases ht
          exact h
      · cases ht
        exact h

/-- A walk that has passed some blocks has steps left for the others. -/
lemma Straight.trailFrom (h : d.Straight x b) (hthere : ∀ b, ∀ p ∈ d.func.preds b,
      d.func.hasBlock p = true) {n : Nat} {passed : List BlockId} (hb : d.func.hasBlock b = true)
    (hnodup : passed.Nodup)
    (hpassed : ∀ c ∈ passed, d.func.hasBlock c = true ∧ TransGen (Passes x d) c b)
    (hn : d.func.blockCapacity < n + passed.length) : d.trailFrom x n passed b ≠ none := by
  induction n generalizing passed b with
  | zero =>
    -- the blocks passed are all different, so they cannot be more than there are
    have := length_le_blockCapacity hnodup fun c hc => (hpassed c hc).1
    omega
  | succ n ih =>
    rw [Draft.trailFrom]
    split
    · exact Option.some_ne_none _
    · rename_i hx
      split
      · rename_i hsealed
        split
        · exact Option.some_ne_none _
        · rename_i p hpreds
          have hpass : Passes x d b p := ⟨hx, hsealed, hpreds⟩
          have hp : d.func.hasBlock p = true := by
            refine hthere b p ?_
            rw [hpreds]
            exact List.mem_singleton_self p
          refine ih (h.goesOn hpass.goesOn) hp
            (List.nodup_cons.2 ⟨fun hmem => h b .refl (hpassed b hmem).2, hnodup⟩) ?_ ?_
          · intro c hc
            rcases List.mem_cons.1 hc with rfl | hc
            · exact ⟨hb, .single hpass⟩
            · exact ⟨(hpassed c hc).1, (hpassed c hc).2.tail hpass⟩
          · rw [List.length_cons]
            omega
        · exact Option.some_ne_none _
      · exact Option.some_ne_none _

lemma Straight.trail (h : d.Straight x b) (hg : d.Grounded fair) (hb : d.func.hasBlock b = true) :
    (Draft.trail x b).Halts d := by
  have hsome : d.trailFrom x (d.func.blockCapacity + 1) [] b ≠ none :=
    h.trailFrom hg.predsThere hb List.nodup_nil (by simp) (by simp)
  obtain ⟨t, ht⟩ := Option.ne_none_iff_exists'.1 hsome
  apply Work.Halts.get_bind
  rw [ht]
  exact .of_pure

/-! ## Small steps -/

lemma newPhi_halts (hb : d.func.hasBlock b = true) : (Draft.newPhi b).Halts d := by
  obtain ⟨bb, hbb⟩ := Option.isSome_iff_exists.1 hb
  obtain ⟨g, hg, -⟩ := appendInst_eq (.phi .empty) hbb
  exact Work.Halts.get_bind (.ofExcept_bind hg (.of_ok rfl))

lemma newPlaceholder_halts (hb : d.func.hasBlock b = true) : (newPlaceholder x b).Halts d :=
  (newPhi_halts hb).followed fun _ _ => .of_ok rfl

/-- Binding never fails. -/
lemma bindAll_halts (x : Variable) (v : Value) (bs : List BlockId) (d : Draft) :
    (do bs.forM fun c => modifyVars (·.bind x c v)
        return v : Work Draft Value).Halts d := by
  have hrun : ∃ d', (bs.forM fun c => modifyVars (·.bind x c v)).run d = .ok ⟨⟩ d' := by
    induction bs generalizing d with
    | nil => exact ⟨d, rfl⟩
    | cons c rest ih => exact ih _
  obtain ⟨d', hd'⟩ := hrun
  exact .of_ok (Work.bind_ok.2 ⟨_, d', hd', rfl⟩)

/-! ## Filling a phi -/

/-- Where reading each predecessor ends, filling a phi does. -/
lemma Formed.fillPhi_halts {read : BlockId → Work Draft Value} (hread : Reader fair late x read)
    (hhalts : ∀ filling p d', d'.Formed fair filling late → d'.Settled [] → LateBound x late d' →
      d'.func.hasBlock p = true → Kept [] d d' → p ∈ d.func.preds b → (read p).Halts d')
    (h : { d with vars := d.vars.guard phi }.Formed fair (phi :: filling) late)
    (hs : { d with vars := d.vars.guard phi }.Settled []) (hphi : phi ∉ filling)
    (hm : d.func.Merges phi b []) (hx : LateBound x late d) :
    (Draft.fillPhi read phi (d.func.preds b)).Halts d := by
  apply Work.Halts.modify_bind
  -- only the loop reads; what comes after it cannot fail
  refine Work.Halts.followed (.forM (Filling fair filling late phi b d) ?_ ?_ _ (.start h hs hm))
    fun _ _ => .of_ok rfl
  · exact fun p rest d₁ h₁ => h₁.operand hphi (h₁.reads hread hx)
  · intro p rest d₁ h₁
    obtain ⟨l, hl, hsplit⟩ := h₁.soFar
    have hp : p ∈ d.func.preds b := hsplit ▸ List.mem_append_right _ List.mem_cons_self
    have hends := hhalts _ p d₁ h₁.formed h₁.settled (hx.kept h₁.kept) h₁.hasBlock_next
      (h₁.kept.subset (List.nil_subset _)) hp
    refine hends.bind (h₁.reads hread hx) fun v d₂ hd₂ => ?_
    obtain ⟨node, hnode, -⟩ := hd₂.kept.merges phi List.mem_cons_self b l hl
    exact Work.Halts.get_bind (.ofExcept_bind (setPhiIncoming_eq p v hnode) (.of_ok rfl))

/-- A phi that is made at a join binds the variable there before the predecessors are read. -/
lemma Formed.join_halts {read : BlockId → Work Draft Value} (hread : Reader fair late x read)
    (hhalts : ∀ filling p d', d'.Formed fair filling late → d'.Settled [] → LateBound x late d' →
      d'.func.hasBlock p = true → Kept [] d d' → p ∈ d.func.preds b →
      (d'.vars.value? x b).isSome = true → (read p).Halts d')
    (h : d.Formed fair filling late) (hs : d.Settled []) (hlate : LateBound x late d)
    (hb : d.func.hasBlock b = true) (hsealed : d.vars.isSealed b = true) :
    (do let phi ← Draft.newPhi b
        modifyVars (·.bind x b (.inst phi))
        Draft.fillPhi read phi (d.func.preds b)).Halts d := by
  apply (newPhi_halts hb).bind (newPhi_yields hb)
  rintro phi d₁ ⟨hnew, hvars, happ⟩
  apply Work.Halts.modify_bind
  have hj := h.joining hs hsealed hnew hvars happ x
  rw [← hj.kept.preds]
  refine Formed.fillPhi_halts hread ?_ hj.formed hj.settled hj.fresh hj.merges
    (hlate.kept hj.kept)
  intro filling' p d' hd' hs' hlate' hp hk hmem
  refine hhalts filling' p d' hd' hs' hlate' hp
    ((hj.kept.subset (List.nil_subset _)).trans hk) (hj.kept.preds b ▸ hmem) (hk.bound x b ?_)
  rw [Bindings.value?_bind_self]
  rfl

/-! ## Reading -/

/-- The blocks among `s` that do not bind the variable. -/
def unbound (s : Finset BlockId) (x : Variable) (d : Draft) : Finset BlockId :=
  s.filter fun b => d.vars.value? x b = none

/-- Binding the variable in one block more leaves fewer that do not. -/
lemma Kept.card_unbound_lt {s : Finset BlockId} (hk : Kept filling d d') (hb : b ∈ s)
    (hnone : d.vars.value? x b = none) (hsome : (d'.vars.value? x b).isSome = true) :
    (unbound s x d').card < (unbound s x d).card := by
  refine Finset.card_lt_card (Finset.ssubset_iff_of_subset ?_ |>.2 ⟨b, ?_, ?_⟩)
  · exact Finset.monotone_filter_right s fun c _ hc => hk.value?_none hc
  · exact Finset.mem_filter.2 ⟨hb, hnone⟩
  · intro hmem
    rw [(Finset.mem_filter.1 hmem).2] at hsome
    cases hsome

/-- A read ends if it may go deeper than there are blocks that do not bind the variable. -/
lemma Formed.readWithin_halts {s : Finset BlockId} (x : Variable) (depth : Nat)
    (filling : List InstId) (b : BlockId) (d : Draft) (h : d.Formed fair filling late)
    (hs : d.Settled []) (hlate : LateBound x late d) (hb : d.func.hasBlock b = true)
    (hstraight : d.Straight x b) (hcover : ∀ c, d.func.hasBlock c = true → c ∈ s)
    (hdepth : (unbound s x d).card < depth) : (Draft.readWithin x depth b).Halts d := by
  induction depth generalizing filling b d with
  | zero => exact absurd hdepth (Nat.not_lt_zero _)
  | succ depth ih =>
    unfold Draft.readWithin
    apply (hstraight.trail h.toGrounded hb).bind (trail_yields x b d)
    rintro t d' ⟨rfl, ht⟩
    obtain ⟨hlast, hends⟩ := h.toGrounded.trailFrom ht hb
    have hrest : ∀ u d₁, (do
        (t.last :: t.passed).forM fun c => modifyVars (·.bind x c u)
        return u).Halts d₁ := fun u d₁ => bindAll_halts x u _ d₁
    cases hsource : t.source with
    | bound u => exact hrest u d'
    | unsealed => exact (newPlaceholder_halts hlast).followed hrest
    | nothing => exact hrest .undef d'
    | join preds =>
      rw [hsource] at hends
      obtain ⟨hx, hsealed, rfl, -⟩ := hends
      have hjoin := (h.join_halts
        (fun filling p d => Formed.readWithin x depth filling p d) ?_ hs hlate hlast
        hsealed).followed hrest
      · simp only [bind_assoc] at hjoin
        exact hjoin
      · -- the join binds the variable, so that there are fewer blocks left that do not
        intro filling' p d₁ h₁ hs₁ hlate₁ hp hk hmem hbound
        refine ih filling' p d₁ h₁ hs₁ hlate₁ hp
          (((hstraight.last ht).goesOn ⟨hx, hsealed, hmem⟩).kept hk) ?_ ?_
        · exact fun c hc => hcover c ((hk.hasBlock c).symm.trans hc)
        · have := hk.card_unbound_lt (hcover _ hlast) hx hbound
          omega

/-- A read ends unless it comes to a block that a walk back comes round to again. -/
lemma Formed.read_halts (h : d.Formed fair filling late) (hs : d.Settled [])
    (hlate : LateBound x late d) (hb : d.func.hasBlock b = true) (hstraight : d.Straight x b) :
    (Draft.read x b).Halts d := by
  apply Work.Halts.get_bind
  refine Formed.readWithin_halts (s := d.func.blockIds.toFinset) x d.readDepth filling b d h hs
    hlate hb hstraight (fun c hc => List.mem_toFinset.2 (mem_blockIds.2 hc)) ?_
  unfold Draft.readDepth
  calc (unbound d.func.blockIds.toFinset x d).card
      ≤ d.func.blockIds.toFinset.card := Finset.card_filter_le _ _
    _ ≤ d.func.blockIds.length := List.toFinset_card_le _
    _ ≤ d.func.blockCapacity := length_blockIds_le d.func
    _ < d.func.blockCapacity + 1 := Nat.lt_succ_self _

/-! ## Sealing -/

/-- A placeholder can be filled if no read for it comes round. -/
lemma Sealing.placeholder_halts {d₁ : Draft} {rest : List (Variable × InstId)}
    {e : Variable × InstId} (h : Sealing fair b d (e :: rest) d₁)
    (hstraight : ∀ p ∈ d.func.preds b, d.Straight e.1 p) :
    (Draft.fillPhi (Draft.read e.1) e.2 (d₁.func.preds b)).Halts d₁ := by
  obtain ⟨hm, hlate⟩ := h.waiting e List.mem_cons_self
  refine @Formed.fillPhi_halts fair (rest.map (·.2)) (some b) d₁ e.1 b e.2 (Draft.read e.1)
    (fun _ _ _ hd hsd hx hp => hd.read hsd hx hp) ?_ (by rw [h.guard_eq]; exact h.formed)
    (by rw [h.guard_eq]; exact h.settled) (List.nodup_cons.1 h.once).1 hm hlate
  intro filling' p d' hd' hs' hlate' hp hk hmem
  have hbefore := hstraight p (h.kept.preds b ▸ hmem)
  exact hd'.read_halts hs' hlate' hp (hbefore.kept (h.kept.trans hk))

/-- A block can be sealed if no read for a placeholder in it comes round. -/
lemma Formed.sealBlock_halts (h : d.Formed fair [] none) (hs : d.Settled [])
    (hcircles : ¬ d.Circles b) : (Draft.sealBlock b).Halts d := by
  apply Work.Halts.get_bind
  by_cases hsealed : d.vars.isSealed b = true
  · rw [if_pos hsealed]
    exact .of_pure
  · rw [if_neg hsealed]
    apply Work.Halts.modify_bind
    -- what is to be filled is among what was waiting
    refine Work.Halts.followed (.forM
      (fun rest d₁ => Sealing fair b d rest d₁ ∧ rest ⊆ d.vars.pendingAt b) ?_ ?_ _
      ⟨.start h hs b, List.Subset.refl _⟩) fun _ _ => .of_ok rfl
    · rintro e rest d₁ ⟨h₁, hrest⟩
      exact Work.Yields.get_bind (h₁.placeholder.bind fun _ d₂ h₂ =>
        Work.Yields.of_pure ⟨h₂, List.subset_of_cons_subset hrest⟩)
    · rintro e rest d₁ ⟨h₁, hrest⟩
      apply Work.Halts.get_bind
      refine (h₁.placeholder_halts fun p hp => ?_).followed fun _ _ => .of_pure
      by_contra hnot
      exact hcircles ⟨e, hrest List.mem_cons_self, p, hp, hnot⟩

end Draft

end SsaBackend
