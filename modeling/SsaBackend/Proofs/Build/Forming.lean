import SsaBackend.Proofs.Build.Phis

/-!
# Reads and seals keep the phis in form

A phi is filled with one operand for each predecessor of its block, in their order, while other
phis may be waiting half filled: reads leave those alone. When it is full it is let go and folded
if it is trivial (`Draft.Formed.fillPhi`). A read that comes to a block that is being sealed finds
the variable bound there, so it never puts a placeholder where none may be any more
(`Draft.Formed.readWithin`).
-/

namespace SsaBackend

namespace Draft

open Func

variable {fair : Prop} {filling : List InstId} {late : Option BlockId} {d d' : Draft}
  {x : Variable} {b p : BlockId} {v : Value} {phi : InstId} {l : List BlockId}

/-! ## One operand -/

/-- One operand more for a phi that is being filled. -/
structure Widened (phi : InstId) (b p : BlockId) (v : Value) (d d' : Draft) : Prop where
  vars : d'.vars = d.vars
  block : ∀ c, d'.func.block? c = d.func.block? c
  capacity : d'.func.instCapacity = d.func.instCapacity
  inst : ∃ node, d.func.inst? phi = some ⟨.phi node, b⟩ ∧ ∀ j, d'.func.inst? j =
    if j = phi then some ⟨.phi (node.setIncoming p v), b⟩ else d.func.inst? j

lemma setIncoming_yields (hm : d.func.Merges phi b l) (p : BlockId) (v : Value) :
    (do setFunc (← Work.ofExcept ((← get).func.setPhiIncoming phi p v)) : Work Draft Unit).Yields d
      fun _ d' => Widened phi b p v d d' := by
  obtain ⟨node, hnode, -⟩ := hm
  apply Work.Yields.get_bind
  apply Work.Yields.ofExcept_bind (setPhiIncoming_eq p v hnode)
  exact ⟨rfl, fun _ => rfl, instCapacity_modifyPhi .., node, hnode, inst?_modifyPhi _ hnode⟩

namespace Widened

lemma merges_self (hw : Widened phi b p v d d') (hm : d.func.Merges phi b l) (hp : p ∉ l) :
    d'.func.Merges phi b (l ++ [p]) := by
  obtain ⟨node, hnode, hinst⟩ := hw.inst
  obtain ⟨node', hnode', rfl⟩ := hm
  rw [hnode] at hnode'
  cases hnode'
  exact ⟨_, by rw [hinst, if_pos rfl], Phi.blocks_setIncoming hp⟩

lemma merges_other (hw : Widened phi b p v d d') {i : InstId} (hne : i ≠ phi) {c : BlockId}
    (hm : d.func.Merges i c l) : d'.func.Merges i c l := by
  obtain ⟨_, -, hinst⟩ := hw.inst
  obtain ⟨node, hnode, hblocks⟩ := hm
  exact ⟨node, by rw [hinst, if_neg hne, hnode], hblocks⟩

lemma preds (hw : Widened phi b p v d d') (c : BlockId) : d'.func.preds c = d.func.preds c := by
  unfold Func.preds
  rw [hw.block]

lemma hasBlock (hw : Widened phi b p v d d') (c : BlockId) :
    d'.func.hasBlock c = d.func.hasBlock c := by
  unfold Func.hasBlock
  rw [hw.block]

/-- What was a phi of some block is one still. -/
lemma merges_some (hw : Widened phi b p v d d') {i : InstId} {c : BlockId}
    (hm : d.func.Merges i c l) : ∃ l', d'.func.Merges i c l' := by
  by_cases hi : i = phi
  · subst hi
    obtain ⟨node, hnode, hinst⟩ := hw.inst
    obtain ⟨node', hnode', -⟩ := hm
    rw [hnode] at hnode'
    cases hnode'
    exact ⟨_, _, by rw [hinst, if_pos rfl], rfl⟩
  · exact ⟨l, hw.merges_other hi hm⟩

lemma gone_iff (hw : Widened phi b p v d d') (j : InstId) : d'.func.Gone j ↔ d.func.Gone j := by
  obtain ⟨node, hnode, hinst⟩ := hw.inst
  unfold Func.Gone
  rw [hw.capacity, hinst]
  split
  · rename_i hj
    rw [hj, hnode]
    simp
  · rfl

lemma lasting_iff (hw : Widened phi b p v d d') (u : Value) :
    d'.func.Lasting u ↔ d.func.Lasting u := by
  unfold Func.Lasting
  simp only [hw.gone_iff]

lemma grounded (hw : Widened phi b p v d d') (h : d.Grounded fair)
    (hv : fair → d.func.Lasting v) : d'.Grounded fair := by
  obtain ⟨node, hnode, hinst⟩ := hw.inst
  refine ⟨?_, ?_, ?_, ?_, ?_⟩
  · rintro c j ⟨cc, hc, hj⟩
    rw [hw.block] at hc
    obtain ⟨q, hq, hqc⟩ := h.placed c j ⟨cc, hc, hj⟩
    rw [hinst]
    split
    · rename_i hjphi
      rw [hjphi, hnode] at hq
      cases hq
      exact ⟨_, rfl, hqc⟩
    · exact ⟨q, hq, hqc⟩
  · intro c cc hc i hi
    rw [hw.block] at hc
    obtain ⟨l, hm⟩ := h.phis c cc hc i hi
    exact hw.merges_some hm
  · intro c
    rw [hw.preds]
    exact h.predsOnce c
  · intro c q hq
    rw [hw.preds] at hq
    exact (hw.hasBlock q).trans (h.predsThere c q hq)
  · intro hfair
    obtain ⟨hops, hbound⟩ := h.lasting hfair
    refine ⟨⟨?_, ?_⟩, ?_⟩
    · intro j q hq u hu
      rw [hw.lasting_iff]
      rw [hinst] at hq
      split at hq
      · cases hq
        obtain ⟨op, hop, rfl⟩ := List.mem_map.1 hu
        -- the operand that was set lasts, and the others lasted
        rcases Phi.mem_setOperand hop with rfl | hop
        · exact hv hfair
        · exact hops.insts phi _ hnode _ (List.mem_map_of_mem hop)
      · exact hops.insts j q hq u hu
    · intro c cc hc t ht u hu
      rw [hw.block] at hc
      exact (hw.lasting_iff u).2 (hops.ends c cc hc t ht u hu)
    · intro y c u hu
      rw [hw.vars] at hu
      exact (hw.lasting_iff u).2 (hbound y c u hu)

lemma formed (hw : Widened phi b p v d d') (h : d.Formed fair (phi :: filling) late)
    (hv : fair → d.func.Lasting v) : d'.Formed fair (phi :: filling) late := by
  have hclosed : ∀ c, d'.Closed late c ↔ d.Closed late c := by
    intro c
    unfold Closed
    rw [hw.vars]
  refine ⟨hw.grounded h.toGrounded hv, ?_, ?_, ?_, ?_, ?_, ?_⟩
  · rw [hw.vars]
    exact h.guarded
  · intro i hi
    obtain ⟨c, l, hm, hc⟩ := h.filled i hi
    obtain ⟨l', hm'⟩ := hw.merges_some hm
    exact ⟨c, l', hm', (hclosed c).2 hc⟩
  · intro c e he
    rw [hw.vars] at he ⊢
    rw [hclosed, hw.block]
    obtain ⟨hnot, hm, hrest⟩ := h.pending c e he
    exact ⟨hnot, hw.merges_other (h.not_pending List.mem_cons_self c e he) hm, hrest⟩
  · rw [hw.vars]
    exact h.once
  · intro c cc hc hnot
    rw [hw.block] at hc
    rw [hclosed] at hnot
    rw [hw.vars]
    exact h.waiting c cc hc hnot
  · intro c cc hc hcl i hi hnot
    rw [hw.block] at hc
    rw [hclosed] at hcl
    rw [hw.preds]
    exact hw.merges_other (fun he => hnot (he ▸ List.mem_cons_self))
      (h.complete c cc hc hcl i hi hnot)

/-- The phi that is being filled is guarded, and the others are what they were. -/
lemma settled (hw : Widened phi b p v d d') (hs : d.Settled []) (hphi : phi ∈ d.vars.guarded) :
    d'.Settled [] := by
  obtain ⟨node, -, hinst⟩ := hw.inst
  intro i hi hnot hleft node' hnode'
  have hne : i ≠ phi := by
    rintro rfl
    rw [hw.vars] at hnot
    exact hnot hphi
  refine hs i ?_ (hw.vars ▸ hnot) hleft node' ?_
  · obtain ⟨c, cc, hc, hmem⟩ := mem_phiIds.1 hi
    rw [hw.block] at hc
    exact mem_phiIds.2 ⟨c, cc, hc, hmem⟩
  · unfold phi? at hnode' ⊢
    rwa [hinst, if_neg hne] at hnode'

lemma kept (hw : Widened phi b p v d d') (hphi : phi ∉ filling) : Kept filling d d' where
  merges i hi _ _ hm := hw.merges_other (fun he => hphi (he ▸ hi)) hm
  preds := hw.preds
  hasBlock := hw.hasBlock
  isSealed _ := by rw [hw.vars]
  bound y c hy := by
    rw [hw.vars]
    exact hy

end Widened

/-! ## Filling a phi -/

/-- A phi that has all its operands is let go. -/
lemma Formed.release (h : d.Formed fair (phi :: filling) late) (hphi : phi ∉ filling)
    (hm : d.func.Merges phi b (d.func.preds b)) :
    { d with vars := d.vars.unguard phi }.Formed fair filling late := by
  refine ⟨{ h.toGrounded with }, ?_, ?_, h.pending, h.once, h.waiting, ?_⟩
  · intro i
    rw [Bindings.mem_unguard, h.guarded, List.mem_cons]
    constructor
    · rintro ⟨(hi | hi) | hi, hne⟩
      · exact absurd hi hne
      · exact .inl hi
      · exact .inr hi
    · rintro (hi | ⟨c, e, he, hei⟩)
      · exact ⟨.inl (.inr hi), fun he => hphi (he ▸ hi)⟩
      · exact ⟨.inr ⟨c, e, he, hei⟩, hei ▸ h.not_pending List.mem_cons_self c e he⟩
  · intro i hi
    exact h.filled i (List.mem_cons_of_mem _ hi)
  · intro c cc hc hcl i hi hnot
    by_cases hip : i = phi
    · subst hip
      obtain ⟨l, hm'⟩ := h.phis c cc hc i hi
      obtain ⟨rfl, -⟩ := hm.unique hm'
      exact hm
    · exact h.complete c cc hc hcl i hi fun hmem =>
        hnot ((List.mem_cons.1 hmem).resolve_left hip)

/-- The variable is bound in the block that is being sealed, if there is one. -/
def LateBound (x : Variable) (late : Option BlockId) (d : Draft) : Prop :=
  ∀ c, late = some c → (d.vars.value? x c).isSome = true

lemma LateBound.kept (h : LateBound x late d) (hk : Kept filling d d') : LateBound x late d' :=
  fun c hc => hk.bound x c (h c hc)

/-- `read` answers with the value of the variable at the end of a block, and keeps the phis in
form. -/
def Reader (fair : Prop) (late : Option BlockId) (x : Variable)
    (read : BlockId → Work Draft Value) : Prop :=
  ∀ filling p d, d.Formed fair filling late → d.Settled [] → LateBound x late d →
    d.func.hasBlock p = true → (read p).Yields d (Answers fair filling late d)

/-- Some predecessors of its block have given the phi an operand, and `rest` are to come. -/
structure Filling (fair : Prop) (filling : List InstId) (late : Option BlockId) (phi : InstId)
    (b : BlockId) (d : Draft) (rest : List BlockId) (d' : Draft) : Prop where
  formed : d'.Formed fair (phi :: filling) late
  settled : d'.Settled []
  kept : Kept filling d d'
  soFar : ∃ l, d'.func.Merges phi b l ∧ l ++ rest = d.func.preds b

namespace Filling

variable {d₁ : Draft} {rest : List BlockId}

/-- The phi is guarded, and all its operands are to come. -/
lemma start (h : { d with vars := d.vars.guard phi }.Formed fair (phi :: filling) late)
    (hs : { d with vars := d.vars.guard phi }.Settled []) (hm : d.func.Merges phi b []) :
    Filling fair filling late phi b d (d.func.preds b) { d with vars := d.vars.guard phi } := by
  refine ⟨h, hs, { Kept.refl filling d with isSealed := ?_, bound := ?_ }, [], hm, rfl⟩
  · exact fun _ => Bindings.isSealed_guard
  · intro y c hy
    rw [Bindings.value?_guard]
    exact hy

/-- The next predecessor is there. -/
lemma hasBlock_next (h : Filling fair filling late phi b d (p :: rest) d₁) :
    d₁.func.hasBlock p = true := by
  obtain ⟨l, -, hl⟩ := h.soFar
  refine h.formed.predsThere b p ?_
  rw [h.kept.preds, ← hl]
  exact List.mem_append_right _ List.mem_cons_self

/-- One predecessor more gives its operand. -/
lemma operand {read : Work Draft Value} (h : Filling fair filling late phi b d (p :: rest) d₁)
    (hphi : phi ∉ filling) (hread : read.Yields d₁ (Answers fair (phi :: filling) late d₁)) :
    (do let v ← read
        setFunc (← Work.ofExcept ((← get).func.setPhiIncoming phi p v)) : Work Draft Unit).Yields
      d₁ fun _ => Filling fair filling late phi b d rest := by
  obtain ⟨l, hm, hl⟩ := h.soFar
  apply hread.bind
  intro v d₂ hd₂
  have hm₂ := hd₂.kept.merges phi List.mem_cons_self b l hm
  refine (setIncoming_yields hm₂ p v).mono ?_
  intro _ d₃ hw
  have hnot : p ∉ l := by
    have hnodup := h.formed.predsOnce b
    rw [h.kept.preds, ← hl] at hnodup
    exact fun hmem => (List.nodup_append.1 hnodup).2.2 p hmem p List.mem_cons_self rfl
  refine ⟨hw.formed hd₂.formed hd₂.lasting, ?_, ?_, l ++ [p], hw.merges_self hm₂ hnot, ?_⟩
  · exact hw.settled hd₂.settled ((hd₂.formed.guarded phi).2 (.inl List.mem_cons_self))
  · exact (h.kept.trans (hd₂.kept.subset (List.subset_cons_self ..))).trans (hw.kept hphi)
  · rw [List.append_assoc]
    exact hl

/-- The next predecessor can be read. -/
lemma reads {read : BlockId → Work Draft Value} (hread : Reader fair late x read)
    (h : Filling fair filling late phi b d (p :: rest) d₁) (hx : LateBound x late d) :
    (read p).Yields d₁ (Answers fair (phi :: filling) late d₁) :=
  hread (phi :: filling) p d₁ h.formed h.settled (hx.kept h.kept) h.hasBlock_next

/-- A phi that has all its operands can be let go. -/
lemma released (h : Filling fair filling late phi b d [] d₁) (hphi : phi ∉ filling) :
    { d₁ with vars := d₁.vars.unguard phi }.Formed fair filling late ∧
      { d₁ with vars := d₁.vars.unguard phi }.Settled [phi] := by
  obtain ⟨l, hm, hl⟩ := h.soFar
  rw [List.append_nil] at hl
  constructor
  · refine h.formed.release hphi (b := b) ?_
    rwa [h.kept.preds, ← hl]
  · intro i hi hnot hleft
    refine h.settled i hi (fun hg => hnot ?_) List.not_mem_nil
    exact Bindings.mem_unguard.2 ⟨hg, by simpa using hleft⟩

/-- A phi that has all its operands is let go, and folded if it is trivial. -/
lemma done (h : Filling fair filling late phi b d [] d₁) (hphi : phi ∉ filling) :
    (do modifyVars (·.unguard phi)
        let rs ← foldPhis [phi]
        return Replacement.resolve rs (.inst phi)).Yields d₁ (Answers fair filling late d) := by
  obtain ⟨h₂, hs₂⟩ := h.released hphi
  apply Work.Yields.modify_bind
  apply (foldPhis_yields hs₂).bind
  rintro rs d₃ ⟨hfolds, hs₃⟩
  apply Work.Yields.of_pure
  refine ⟨hfolds.formed h₂, hs₃, ?_, ?_⟩
  · have hlet : Kept filling d₁ { d₁ with vars := d₁.vars.unguard phi } :=
      { Kept.refl filling d₁ with }
    exact (h.kept.trans hlet).trans (hfolds.kept h₂)
  · intro hfair
    obtain ⟨l, ⟨node, hnode, -⟩, -⟩ := h.soFar
    exact hfolds.func.lasting_resolve h.formed.placed (h.formed.lasting hfair).1
      (lasting_of_inst hnode)

end Filling

/-- A phi without operands gets one from every predecessor of its block and is folded if it is
trivial. -/
lemma Formed.fillPhi {read : BlockId → Work Draft Value} (hread : Reader fair late x read)
    (h : { d with vars := d.vars.guard phi }.Formed fair (phi :: filling) late)
    (hs : { d with vars := d.vars.guard phi }.Settled []) (hphi : phi ∉ filling)
    (hm : d.func.Merges phi b []) (hx : LateBound x late d) :
    (Draft.fillPhi read phi (d.func.preds b)).Yields d (Answers fair filling late d) := by
  apply Work.Yields.modify_bind
  apply (Work.Yields.forM (Filling fair filling late phi b d) ?_ _ (.start h hs hm)).bind
  · exact fun _ d₁ h₁ => h₁.done hphi
  · exact fun p rest d₁ h₁ => h₁.operand hphi (h₁.reads hread hx)

/-! ## Reading -/

lemma trail_yields (x : Variable) (b : BlockId) (d : Draft) :
    (Draft.trail x b).Yields d fun t d' => d' = d ∧
      d.trailFrom x (d.func.blockCapacity + 1) [] b = some t := by
  unfold Draft.trail
  apply Work.Yields.get_bind
  cases ht : d.trailFrom x (d.func.blockCapacity + 1) [] b with
  | none => exact Work.Yields.of_throw
  | some t => exact Work.Yields.of_pure ⟨rfl, rfl⟩

/-- A walk back ends where it may. -/
lemma endsAt_of_trailFrom {n : Nat} {passed : List BlockId} {t : Trail}
    (ht : d.trailFrom x n passed b = some t) : d.EndsAt x t.last t.source := by
  induction n generalizing passed b with
  | zero => cases ht
  | succ n ih =>
    rw [Draft.trailFrom] at ht
    split at ht
    · rename_i v hv
      cases ht
      exact hv
    · rename_i hx
      split at ht
      · rename_i hsealed
        split at ht
        · rename_i hpreds
          cases ht
          exact ⟨hx, hsealed, hpreds⟩
        · exact ih ht
        · rename_i hmany _
          cases ht
          exact ⟨hx, hsealed, rfl, hmany⟩
      · rename_i hsealed
        cases ht
        exact ⟨hx, Bool.eq_false_iff.2 hsealed⟩

/-- A walk back stays among blocks that are there. -/
lemma Grounded.trailFrom (h : d.Grounded fair) {n : Nat} {passed : List BlockId} {t : Trail}
    (ht : d.trailFrom x n passed b = some t) (hb : d.func.hasBlock b = true) :
    d.func.hasBlock t.last = true ∧ d.EndsAt x t.last t.source := by
  refine ⟨?_, endsAt_of_trailFrom ht⟩
  induction n generalizing passed b with
  | zero => cases ht
  | succ n ih =>
    rw [Draft.trailFrom] at ht
    split at ht
    · cases ht
      exact hb
    · split at ht
      · split at ht
        · cases ht
          exact hb
        · rename_i q hpreds
          refine ih ht (h.predsThere b q ?_)
          rw [hpreds]
          exact List.mem_singleton_self q
        · cases ht
          exact hb
      · cases ht
        exact hb

/-- What a walk ended with is bound to all its blocks. -/
lemma Answers.bindAll {d₀ : Draft} (h : Answers fair filling late d₀ v d) (x : Variable)
    (bs : List BlockId) :
    (do bs.forM fun c => modifyVars (·.bind x c v)
        return v).Yields d (Answers fair filling late d₀) := by
  have hloop := Work.Yields.forM (f := fun c => modifyVars (·.bind x c v))
    (fun _ d' => Answers fair filling late d₀ v d') (s := d) ?_ bs h
  · exact hloop.bind fun _ d' hd' => Work.Yields.of_pure hd'
  · intro c rest d₁ hd₁
    exact hd₁.bind x c

/-- A placeholder that is bound is a phi that was opened. -/
lemma Opened.of_placeholder {d₁ : Draft} (hnew : phi = d.func.nextInst)
    (hvars : d₁.vars = d.vars) (happ : Appended d.func d₁.func b (.phi .empty)) (x : Variable) :
    Opened x b phi d { d₁ with
      vars := ((d₁.vars.addPending x b phi).guard phi).bind x b (.inst phi) } := by
  refine ⟨hnew, happ, ?_, ?_, ?_⟩
  · intro i
    show i ∈ ((d₁.vars.addPending x b phi).guard phi).guarded ↔ _
    rw [Bindings.mem_guard, hvars]
    rfl
  · intro c
    show ((d₁.vars.addPending x b phi).guard phi).isSealed c = _
    rw [Bindings.isSealed_guard, hvars]
    rfl
  · intro y c
    rw [Bindings.value?_bind, Bindings.value?_guard, hvars]
    rfl

/-- So is a phi that is bound and guarded at a join. -/
lemma Opened.of_join {d₁ : Draft} (hnew : phi = d.func.nextInst) (hvars : d₁.vars = d.vars)
    (happ : Appended d.func d₁.func b (.phi .empty)) (x : Variable) :
    Opened x b phi d { d₁ with vars := (d₁.vars.bind x b (.inst phi)).guard phi } := by
  refine ⟨hnew, happ, ?_, ?_, ?_⟩
  · intro i
    rw [Bindings.mem_guard, hvars]
    rfl
  · intro c
    rw [Bindings.isSealed_guard, hvars]
    rfl
  · intro y c
    rw [Bindings.value?_guard, hvars]
    exact Bindings.value?_bind

/-- In an unsealed block a read ends with a placeholder. -/
lemma Formed.newPlaceholder (h : d.Formed fair filling late) (hs : d.Settled [])
    (hb : d.func.hasBlock b = true) (hx : d.vars.value? x b = none)
    (hopen : ¬ d.Closed late b) :
    (Draft.newPlaceholder x b).Yields d fun v d' =>
      Answers fair filling late d v { d' with vars := d'.vars.bind x b v } := by
  unfold Draft.newPlaceholder
  apply (newPhi_yields hb).bind
  rintro phi d₁ ⟨hnew, hvars, happ⟩
  apply Work.Yields.modify_bind
  apply Work.Yields.of_pure
  have hopened := Opened.of_placeholder hnew hvars happ x
  -- the variable was not bound, so that no placeholder for it waits in the block
  have hnone : ∀ e ∈ d.vars.pendingAt b, e.1 ≠ x := by
    rintro e he rfl
    have hbound := (h.pending b e he).2.2.1
    rw [hx] at hbound
    cases hbound
  refine ⟨hopened.placeholder h ?_ hopen hb, hopened.settled h.toGrounded hs,
    hopened.kept filling, ?_⟩
  · intro c
    show (((d₁.vars.addPending x b phi).guard phi).pendingAt c).Perm _
    rw [Bindings.pendingAt_guard, hvars]
    exact Bindings.pendingAt_addPending hnone c
  · intro _
    obtain ⟨node, hnode, -⟩ := hopened.merges_new
    exact lasting_of_inst hnode

/-- A phi that was made at a join, bound there and is about to be filled. -/
structure Joining (fair : Prop) (filling : List InstId) (late : Option BlockId) (phi : InstId)
    (b : BlockId) (d d' : Draft) : Prop where
  formed : { d' with vars := d'.vars.guard phi }.Formed fair (phi :: filling) late
  settled : { d' with vars := d'.vars.guard phi }.Settled []
  fresh : phi ∉ filling
  merges : d'.func.Merges phi b []
  kept : Kept filling d d'

lemma Formed.joining {d₁ : Draft} (h : d.Formed fair filling late) (hs : d.Settled [])
    (hsealed : d.vars.isSealed b = true) (hnew : phi = d.func.nextInst) (hvars : d₁.vars = d.vars)
    (happ : Appended d.func d₁.func b (.phi .empty)) (x : Variable) :
    Joining fair filling late phi b d { d₁ with vars := d₁.vars.bind x b (.inst phi) } := by
  have hopened := Opened.of_join hnew hvars happ x
  have hpending : ∀ c, ((d₁.vars.bind x b (.inst phi)).guard phi).pendingAt c =
      d.vars.pendingAt c := by
    intro c
    rw [Bindings.pendingAt_guard, hvars]
    rfl
  refine ⟨hopened.opens h hpending (.inl hsealed), hopened.settled h.toGrounded hs, ?_,
    hopened.merges_new, ?_⟩
  · intro hmem
    obtain ⟨c, l, hm, -⟩ := h.filled phi hmem
    exact hm.ne_nextInst hnew
  · refine { hopened.kept filling with isSealed := ?_, bound := ?_ }
    · intro c
      rw [hvars]
      rfl
    · intro y c hy
      rw [hvars]
      exact (Kept.of_bind filling d x b (.inst phi)).bound y c hy

/-- At a join a phi is made and filled. -/
lemma Formed.join {read : BlockId → Work Draft Value} (hread : Reader fair late x read)
    (h : d.Formed fair filling late) (hs : d.Settled []) (hlate : LateBound x late d)
    (hb : d.func.hasBlock b = true) (hsealed : d.vars.isSealed b = true) :
    (do let phi ← Draft.newPhi b
        modifyVars (·.bind x b (.inst phi))
        Draft.fillPhi read phi (d.func.preds b)).Yields d (Answers fair filling late d) := by
  apply (newPhi_yields hb).bind
  rintro phi d₁ ⟨hnew, hvars, happ⟩
  apply Work.Yields.modify_bind
  have hj := h.joining hs hsealed hnew hvars happ x
  have hfill := Formed.fillPhi hread hj.formed hj.settled hj.fresh hj.merges (hlate.kept hj.kept)
  rw [hj.kept.preds] at hfill
  refine hfill.mono ?_
  intro v d₂ hd₂
  exact ⟨hd₂.formed, hd₂.settled, hj.kept.trans hd₂.kept, hd₂.lasting⟩

/-- A read of bounded depth keeps the phis in form. -/
lemma Formed.readWithin (x : Variable) (depth : Nat) (filling : List InstId) (b : BlockId)
    (d : Draft) (h : d.Formed fair filling late) (hs : d.Settled []) (hlate : LateBound x late d)
    (hb : d.func.hasBlock b = true) :
    (Draft.readWithin x depth b).Yields d (Answers fair filling late d) := by
  induction depth generalizing filling b d with
  | zero => exact Work.Yields.of_throw
  | succ depth ih =>
    unfold Draft.readWithin
    apply (trail_yields x b d).bind
    rintro t d' ⟨rfl, ht⟩
    obtain ⟨hlast, hends⟩ := h.toGrounded.trailFrom ht hb
    have hrest : ∀ u d₁, Answers fair filling late d' u d₁ →
        (do (t.last :: t.passed).forM fun c => modifyVars (·.bind x c u)
            return u).Yields d₁ (Answers fair filling late d') :=
      fun u d₁ hu => hu.bindAll x _
    cases hsource : t.source with
    | bound u =>
      rw [hsource] at hends
      exact hrest u d' ⟨h, hs, .refl filling d', fun hfair => (h.lasting hfair).2 _ _ _ hends⟩
    | unsealed =>
      rw [hsource] at hends
      obtain ⟨hx, hopen⟩ := hends
      have hnot : ¬ d'.Closed late t.last := by
        rintro (hsealed | hl)
        · rw [hopen] at hsealed
          cases hsealed
        · have hbound := hlate _ hl
          rw [hx] at hbound
          cases hbound
      -- the placeholder is bound to the variable before anything else happens
      exact (h.newPlaceholder hs hlast hx hnot).bind fun u d₁ hu => hu.bindAll x t.passed
    | nothing => exact hrest .undef d' ⟨h, hs, .refl filling d', fun _ => lasting_undef _⟩
    | join preds =>
      rw [hsource] at hends
      obtain ⟨-, hsealed, rfl, -⟩ := hends
      have hjoin := (h.join (fun filling p d => ih filling p d) hs hlate hlast hsealed).bind hrest
      simp only [bind_assoc] at hjoin
      exact hjoin

/-- A read keeps the phis in form. -/
lemma Formed.read (h : d.Formed fair filling late) (hs : d.Settled []) (hlate : LateBound x late d)
    (hb : d.func.hasBlock b = true) :
    (Draft.read x b).Yields d (Answers fair filling late d) := by
  unfold Draft.read
  apply Work.Yields.get_bind
  exact Formed.readWithin x d.readDepth filling b d h hs hlate hb

/-! ## Sealing -/

/-- When the placeholders of a block are taken off the list, they are about to be filled. -/
lemma Formed.dropPending (h : d.Formed fair [] none) (b : BlockId) :
    { d with vars := d.vars.dropPending b }.Formed fair ((d.vars.pendingAt b).map Prod.snd)
      (some b) := by
  have hclosed : ∀ c, c ≠ b → (d.Closed (some b) c ↔ d.Closed none c) := by
    intro c hc
    unfold Closed
    simp [Ne.symm hc]
  refine ⟨{ h.toGrounded with }, ?_, ?_, ?_, ?_, ?_, ?_⟩
  · intro i
    rw [show i ∈ (d.vars.dropPending b).guarded ↔ i ∈ d.vars.guarded from Iff.rfl, h.guarded]
    simp only [Bindings.pendingAt_dropPending, List.mem_map, List.not_mem_nil, false_or]
    constructor
    · rintro ⟨c, e, he, hei⟩
      by_cases hc : c = b
      · exact .inl ⟨e, hc ▸ he, hei⟩
      · exact .inr ⟨c, e, by rwa [if_neg hc], hei⟩
    · rintro (⟨e, he, hei⟩ | ⟨c, e, he, hei⟩)
      · exact ⟨b, e, he, hei⟩
      · split at he
        · cases he
        · exact ⟨c, e, he, hei⟩
  · intro i hi
    -- what is filled now were the placeholders of this block
    obtain ⟨e, he, rfl⟩ := List.mem_map.1 hi
    exact ⟨b, [], (h.pending b e he).2.1, .inr rfl⟩
  · intro c e he
    rw [Bindings.pendingAt_dropPending] at he
    split at he
    · cases he
    · rename_i hc
      obtain ⟨hnot, hrest⟩ := h.pending c e he
      exact ⟨fun hcl => hnot ((hclosed c hc).1 hcl), hrest⟩
  · intro c
    rw [Bindings.pendingAt_dropPending]
    split
    · exact List.nodup_nil
    · exact h.once c
  · intro c cc hc hnot i hi
    have hne : c ≠ b := fun he => hnot (.inr (congrArg some he.symm))
    rw [Bindings.pendingAt_dropPending, if_neg hne]
    exact h.waiting c cc hc (fun hcl => hnot ((hclosed c hne).2 hcl)) i hi
  · intro c cc hc hcl i hi hnot
    by_cases hold : d.Closed none c
    · exact h.complete c cc hc hold i hi List.not_mem_nil
    · -- the phis of the block were placeholders, which are all about to be filled
      obtain ⟨e, he, hei⟩ := h.waiting c cc hc hold i hi
      have hcb : c = b := by
        by_contra hne
        exact hold ((hclosed c hne).1 hcl)
      exact absurd (List.mem_map.2 ⟨e, hcb ▸ he, hei⟩) hnot

/-- When all its phis are filled, the block can be marked. -/
lemma Formed.markSealed (h : d.Formed fair [] (some b)) :
    { d with vars := d.vars.markSealed b }.Formed fair [] none := by
  have hclosed : ∀ c, Closed none { d with vars := d.vars.markSealed b } c ↔
      d.Closed (some b) c := by
    intro c
    unfold Closed
    rw [Bindings.isSealed_markSealed, Option.some.injEq, @eq_comm _ c b]
    simp [or_comm]
  have hvars : d.vars.markSealed b =
      { d.vars with sealedBlocks := (d.vars.markSealed b).sealedBlocks } := Bindings.markSealed_eq
  refine ⟨⟨h.placed, h.phis, h.predsOnce, h.predsThere, ?_⟩, ?_, ?_, ?_, ?_, ?_, ?_⟩
  · rw [hvars]
    exact h.lasting
  · rw [hvars]
    exact h.guarded
  · intro i hi
    cases hi
  · intro c e he
    rw [hclosed]
    rw [hvars] at he ⊢
    exact h.pending c e he
  · rw [hvars]
    exact h.once
  · intro c cc hc hnot
    rw [hclosed] at hnot
    rw [hvars]
    exact h.waiting c cc hc hnot
  · intro c cc hc hcl
    rw [hclosed] at hcl
    exact h.complete c cc hc hcl

/-- Some placeholders of the block that is being sealed are filled, and `rest` are to come. -/
structure Sealing (fair : Prop) (b : BlockId) (d : Draft) (rest : List (Variable × InstId))
    (d' : Draft) : Prop where
  formed : d'.Formed fair (rest.map (·.2)) (some b)
  settled : d'.Settled []
  kept : Kept [] d d'
  once : (rest.map (·.2)).Nodup
  waiting : ∀ e ∈ rest, d'.func.Merges e.2 b [] ∧ LateBound e.1 (some b) d'

namespace Sealing

variable {d₁ : Draft} {rest : List (Variable × InstId)} {e : Variable × InstId}

lemma start (h : d.Formed fair [] none) (hs : d.Settled []) (b : BlockId) :
    Sealing fair b d (d.vars.pendingAt b) { d with vars := d.vars.dropPending b } := by
  refine ⟨h.dropPending b, hs, { Kept.refl [] d with }, h.once b, ?_⟩
  intro e he
  obtain ⟨-, hm, hbound, -⟩ := h.pending b e he
  refine ⟨hm, ?_⟩
  rintro c ⟨⟩
  exact hbound

/-- Placeholders are guarded already. -/
lemma guard_eq (h : Sealing fair b d (e :: rest) d₁) : d₁.vars.guard e.2 = d₁.vars :=
  if_pos ((h.formed.guarded e.2).2 (.inl List.mem_cons_self))

/-- One placeholder more is filled. -/
lemma placeholder (h : Sealing fair b d (e :: rest) d₁) :
    (Draft.fillPhi (Draft.read e.1) e.2 (d₁.func.preds b)).Yields d₁ fun _ =>
      Sealing fair b d rest := by
  obtain ⟨hnot, hrest⟩ := List.nodup_cons.1 h.once
  obtain ⟨hm, hlate⟩ := h.waiting e List.mem_cons_self
  have hfill := @Formed.fillPhi fair (rest.map (·.2)) (some b) d₁ e.1 b e.2 (Draft.read e.1)
    (fun _ _ _ hd hsd hx hp => hd.read hsd hx hp) (by rw [h.guard_eq]; exact h.formed)
    (by rw [h.guard_eq]; exact h.settled) hnot hm hlate
  refine hfill.mono ?_
  intro _ d₂ hd₂
  refine ⟨hd₂.formed, hd₂.settled, ?_, hrest, ?_⟩
  · exact h.kept.trans (hd₂.kept.subset (List.nil_subset _))
  · intro e' he'
    obtain ⟨hm', hlate'⟩ := h.waiting e' (List.mem_cons_of_mem _ he')
    exact ⟨hd₂.kept.merges _ (List.mem_map_of_mem he') b [] hm', hlate'.kept hd₂.kept⟩

/-- When all placeholders are filled, the block can be marked. -/
lemma marked (h : Sealing fair b d [] d₁) :
    { d₁ with vars := d₁.vars.markSealed b }.Formed fair [] none ∧
      ∀ left, { d₁ with vars := d₁.vars.markSealed b }.Settled left := by
  refine ⟨h.formed.markSealed, ?_⟩
  intro left i hi hnot _
  rw [Bindings.markSealed_eq] at hnot
  exact h.settled i hi hnot List.not_mem_nil

end Sealing

/-- Sealing a block keeps the phis in form. -/
lemma Formed.sealBlock (h : d.Formed fair [] none) (hs : d.Settled []) (b : BlockId) :
    (Draft.sealBlock b).Yields d fun _ d' => d'.Formed fair [] none ∧ d'.Settled [] ∧
      (∀ c, d'.func.preds c = d.func.preds c) ∧ (∀ c, d'.func.hasBlock c = d.func.hasBlock c) ∧
      ∀ c, d'.vars.isSealed c = true ↔ c = b ∨ d.vars.isSealed c = true := by
  unfold Draft.sealBlock
  apply Work.Yields.get_bind
  by_cases hsealed : d.vars.isSealed b = true
  · rw [if_pos hsealed]
    exact ⟨h, hs, fun _ => rfl, fun _ => rfl,
      fun _ => (or_iff_right_of_imp fun hc => hc ▸ hsealed).symm⟩
  · rw [if_neg hsealed]
    apply Work.Yields.modify_bind
    apply (Work.Yields.forM (Sealing fair b d) ?_ _ (.start h hs b)).bind
    · intro _ d₁ h₁
      apply Work.Yields.modify_bind
      apply Work.Yields.get_bind
      obtain ⟨h₂, hs₂⟩ := h₁.marked
      apply (foldPhis_yields (hs₂ _)).bind
      rintro rs d₃ ⟨hfolds, hs₃⟩
      apply Work.Yields.of_pure
      have hkept₃ := hfolds.kept h₂
      refine ⟨hfolds.formed h₂, hs₃, ?_, ?_, ?_⟩
      · exact fun c => (hkept₃.preds c).trans (h₁.kept.preds c)
      · exact fun c => (hkept₃.hasBlock c).trans (h₁.kept.hasBlock c)
      · intro c
        rw [hkept₃.isSealed, ← h₁.kept.isSealed c]
        exact Bindings.isSealed_markSealed
    · intro e rest d₁ h₁
      apply Work.Yields.get_bind
      exact h₁.placeholder.bind fun _ d₂ h₂ => Work.Yields.of_pure h₂

end Draft

end SsaBackend
