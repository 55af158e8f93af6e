import SsaBackend.Proofs.Build.Extending
import SsaBackend.Proofs.Build.Forming
import SsaBackend.Proofs.Func.Edges

/-!
# Where the values of a draft come from

Whatever a draft names was made for it: an operand or a binding is a constant, an argument of the
function, or an instruction that has a place in its table, if perhaps an empty one by now. Edges
are listed at both ends, and no phi stands among the other instructions of a block. That is
`Draft.Furnished`. Every edit keeps it as long as the values that are put in are supplied
(`Func.Supplies`), and the values that reads answer with are.
-/

namespace SsaBackend

namespace Func

/-! ## Values -/

/-- The value is an argument, names a place for an instruction, or needs neither. -/
def Supplies (f : Func) : Value → Prop
  | .inst i => i.index < f.instCapacity
  | .arg n => n < f.numArgs
  | _ => True

/-- No place for an instruction is lost, and no argument. -/
structure Enlarged (f g : Func) : Prop where
  capacity : f.instCapacity ≤ g.instCapacity
  numArgs : g.numArgs = f.numArgs

variable {f g h : Func} {v : Value} {b : BlockId} {i : InstId}

lemma Enlarged.refl (f : Func) : Enlarged f f := ⟨Nat.le_refl _, rfl⟩

lemma Enlarged.trans (hfg : Enlarged f g) (hgh : Enlarged g h) : Enlarged f h :=
  ⟨Nat.le_trans hfg.capacity hgh.capacity, hgh.numArgs.trans hfg.numArgs⟩

lemma Supplies.enlarged (hv : f.Supplies v) (hg : Enlarged f g) : g.Supplies v := by
  cases v with
  | inst i => exact Nat.lt_of_lt_of_le hv hg.capacity
  | arg n => exact Nat.lt_of_lt_of_eq hv hg.numArgs.symm
  | const _ | undef => trivial

/-- A value that was made and has not gone is there. -/
lemma Supplies.knows (hv : f.Supplies v) (hlast : f.Lasting v) : f.Knows v := by
  cases v with
  | inst i =>
    by_contra hnone
    exact hlast i rfl ⟨hv, Option.eq_none_iff_forall_ne_some.2 fun p hp => hnone ⟨p, hp⟩⟩
  | arg n => exact hv
  | const _ | undef => trivial

/-! ## Functions -/

/-- Edges are listed at both ends, phis stand apart from the other instructions, and all operands
are supplied. -/
structure Furnished (f : Func) : Prop where
  edges : f.EdgesAgree
  bodies : ∀ b bb, f.block? b = some bb → ∀ i ∈ bb.body, ∃ p, f.inst? i = some p ∧ p.block = b ∧
    p.inst.isPhi = false
  insts : ∀ i p, f.inst? i = some p → ∀ v ∈ p.inst.operands, f.Supplies v
  ends : ∀ b bb, f.block? b = some bb → ∀ t, bb.terminator = some t → ∀ v ∈ t.operands,
    f.Supplies v

lemma Furnished.new (name : String) (numArgs : Nat) : (Func.new name numArgs).Furnished := by
  have hempty := @block?_new name numArgs
  refine ⟨⟨rfl, ?_, ?_⟩, ?_, ?_, ?_⟩
  · intro b s
    rw [succs_new, preds_new]
    simp
  · intro b
    rw [preds_new]
    exact List.nodup_nil
  · intro b bb hb i hi
    rw [hempty hb] at hi
    cases hi
  · intro i p hp
    rw [inst?_new] at hp
    cases hp
  · intro b bb hb t ht
    rw [hempty hb] at ht
    cases ht

lemma Furnished.addBlock (hf : f.Furnished) : f.addBlock.Furnished := by
  refine ⟨⟨hasBlock_addBlock hf.edges.entry, ?_, ?_⟩, ?_, hf.insts, ?_⟩
  · intro b s
    rw [succs_addBlock, preds_addBlock]
    exact hf.edges.linked b s
  · intro b
    rw [preds_addBlock]
    exact hf.edges.once b
  · intro b bb hb i hi
    rcases block_of_addBlock hb with rfl | hb
    · cases hi
    · exact hf.bodies b bb hb i hi
  · intro b bb hb t ht
    rcases block_of_addBlock hb with rfl | hb
    · cases ht
    · exact hf.ends b bb hb t ht

namespace Appended

variable {new : Inst}

lemma enlarged (ha : Appended f g b new) : Enlarged f g :=
  ⟨by rw [ha.capacity]; exact Nat.le_succ _, ha.numArgs⟩

/-- What is listed among the other instructions was so before, or is the new one. -/
lemma mem_body (ha : Appended f g b new) {c : BlockId} {cc : Block} (hc : g.block? c = some cc)
    (hi : i ∈ cc.body) : (∃ old, f.block? c = some old ∧ i ∈ old.body) ∨
      (new.isPhi = false ∧ c = b ∧ i = f.nextInst) := by
  obtain ⟨old, hold, rfl⟩ := ha.of_block hc
  split at hi
  · rename_i hbc
    unfold Block.append at hi
    split at hi
    · exact .inl ⟨old, hold, hi⟩
    · rename_i hphi
      rcases List.mem_append.1 hi with hi | hi
      · exact .inl ⟨old, hold, hi⟩
      · exact .inr ⟨Bool.eq_false_iff.2 hphi, hbc.symm, List.mem_singleton.1 hi⟩
  · exact .inl ⟨old, hold, hi⟩

lemma furnished (ha : Appended f g b new) (hf : f.Furnished)
    (hnew : ∀ v ∈ new.operands, f.Supplies v) : g.Furnished := by
  refine ⟨hf.edges.congr ha.hasBlock_eq ha.preds_eq ha.succs_eq, ?_, ?_, ?_⟩
  · intro c cc hc i hi
    rcases ha.mem_body hc hi with ⟨old, hold, hi⟩ | ⟨hphi, rfl, rfl⟩
    · obtain ⟨p, hp, hrest⟩ := hf.bodies c old hold i hi
      exact ⟨p, ha.inst_old hp, hrest⟩
    · exact ⟨_, by rw [ha.inst, if_pos rfl], rfl, hphi⟩
  · intro i p hp v hv
    rcases ha.of_inst hp with ⟨-, rfl⟩ | hp
    · exact (hnew v hv).enlarged ha.enlarged
    · exact (hf.insts i p hp v hv).enlarged ha.enlarged
  · intro c cc hc t ht v hv
    obtain ⟨old, hold, -, hterm, -⟩ := ha.mem_phis hc
    exact (hf.ends c old hold t (hterm ▸ ht) v hv).enlarged ha.enlarged

end Appended

namespace Terminated

variable {t : Terminator}

lemma enlarged (ht : Terminated f g b t) : Enlarged f g :=
  ⟨Nat.le_of_eq ht.capacity.symm, ht.numArgs⟩

lemma edgesAgree (ht : Terminated f g b t) (hf : f.EdgesAgree) : g.EdgesAgree := by
  refine ⟨(ht.hasBlock_eq _).trans hf.entry, ?_, fun c => ht.nodup_preds (hf.once c)⟩
  intro c s
  rw [ht.succs_eq, ht.mem_preds_iff, ← hf.linked]
  by_cases hc : c = b
  · subst hc
    -- the block had no successors before
    simp [ht.succs_before]
  · simp [hc]

lemma furnished (ht : Terminated f g b t) (hf : f.Furnished)
    (hnew : ∀ v ∈ t.operands, f.Supplies v) : g.Furnished := by
  refine ⟨ht.edgesAgree hf.edges, ?_, ?_, ?_⟩
  · intro c cc hc i hi
    obtain ⟨old, hold, rfl⟩ := ht.of_block hc
    rw [ht.inst?]
    exact hf.bodies c old hold i hi
  · intro i p hp v hv
    rw [ht.inst?] at hp
    exact (hf.insts i p hp v hv).enlarged ht.enlarged
  · intro c cc hc t' ht' v hv
    obtain ⟨old, hold, rfl⟩ := ht.of_block hc
    change (if c = b then some t else old.terminator) = some t' at ht'
    split at ht'
    · cases ht'
      exact (hnew v hv).enlarged ht.enlarged
    · exact (hf.ends c old hold t' ht' v hv).enlarged ht.enlarged

end Terminated

/-- An operand is set of phis only. -/
lemma setPhiIncoming_ok {p : BlockId} (hset : f.setPhiIncoming i p v = .ok g) :
    ∃ node c, f.inst? i = some ⟨.phi node, c⟩ ∧ g = f.modifyPhi i (·.setIncoming p v) := by
  unfold setPhiIncoming getInst at hset
  cases hi : f.inst? i with
  | none =>
    rw [hi] at hset
    cases hset
  | some q =>
    obtain ⟨inst, c⟩ := q
    rw [hi] at hset
    by_cases hphi : inst.isPhi = true
    · obtain ⟨node, rfl⟩ := Inst.isPhi_iff.1 hphi
      cases hset
      exact ⟨node, c, rfl, rfl⟩
    · simp only [bind, Except.bind, if_neg hphi] at hset
      cases hset

lemma Furnished.setIncoming (hf : f.Furnished) {p : BlockId} (hv : f.Supplies v)
    (hset : f.setPhiIncoming i p v = .ok g) : Enlarged f g ∧ g.Furnished := by
  obtain ⟨node, c, hnode, rfl⟩ := setPhiIncoming_ok hset
  have hinst := inst?_modifyPhi (·.setIncoming p v) hnode
  have hmore : Enlarged f (f.modifyPhi i (·.setIncoming p v)) :=
    ⟨Nat.le_of_eq (instCapacity_modifyPhi ..).symm, rfl⟩
  refine ⟨hmore, hf.edges.sameShape (sameShape_modifyPhi ..), ?_, ?_, ?_⟩
  · intro b bb hb j hj
    obtain ⟨q, hq, hrest⟩ := hf.bodies b bb hb j hj
    have hne : j ≠ i := by
      rintro rfl
      rw [hnode] at hq
      cases hq
      cases hrest.2
    exact ⟨q, by rw [hinst, if_neg hne, hq], hrest⟩
  · intro j q hq u hu
    refine Supplies.enlarged ?_ hmore
    rw [hinst] at hq
    split at hq
    · cases hq
      obtain ⟨op, hop, rfl⟩ := List.mem_map.1 hu
      rcases Phi.mem_setOperand hop with rfl | hop
      · exact hv
      · exact hf.insts i _ hnode _ (List.mem_map_of_mem hop)
    · exact hf.insts j q hq u hu
  · intro b bb hb t ht u hu
    exact (hf.ends b bb hb t ht u hu).enlarged hmore

/-! ## Folding phis -/

lemma enlarged_replaced (f : Func) (i : InstId) (v : Value) :
    Enlarged f ((f.replaceUses i v).removeInst i) :=
  ⟨Nat.le_of_eq (instCapacity_replaced f i v).symm, (sameShape_replaced f i v).numArgs⟩

/-- What is left of a block when an instruction is replaced. -/
lemma block_of_replaced {bb' : Block}
    (hb : ((f.replaceUses i v).removeInst i).block? b = some bb') :
    ∃ bb, f.block? b = some bb ∧ bb'.body ⊆ bb.body ∧
      bb'.terminator = bb.terminator.map (·.mapOperands (Value.subst (.inst i) v)) := by
  have hmapped : ∀ mid, (f.replaceUses i v).block? b = some mid → ∃ bb, f.block? b = some bb ∧
      mid.body ⊆ bb.body ∧
      mid.terminator = bb.terminator.map (·.mapOperands (Value.subst (.inst i) v)) := by
    intro mid hmid
    unfold replaceUses at hmid
    rw [block?_mapOperands] at hmid
    obtain ⟨bb, hbb, rfl⟩ := Option.map_eq_some_iff.1 hmid
    exact ⟨bb, hbb, List.Subset.refl _, rfl⟩
  cases hi : (f.replaceUses i v).inst? i with
  | none =>
    unfold removeInst at hb
    rw [hi] at hb
    exact hmapped bb' hb
  | some p =>
    rw [block?_removeInst hi] at hb
    split at hb
    · obtain ⟨mid, hmid, rfl⟩ := Option.map_eq_some_iff.1 hb
      obtain ⟨bb, hbb, hbody, hterm⟩ := hmapped mid hmid
      exact ⟨bb, hbb, fun j hj => hbody (List.mem_of_mem_filter hj), hterm⟩
    · exact hmapped bb' hb

/-- What a trivial phi amounts to is supplied. -/
lemma Furnished.supplies_same (hf : f.Furnished) {node : Phi} {same : Value}
    (hi : f.phi? i = some node) (ht : node.trivial? i = some same) : f.Supplies same := by
  obtain ⟨c, hinst⟩ := phi?_some hi
  rcases (Phi.trivial?_some ht).2 with rfl | hmem
  · trivial
  · exact hf.insts i _ hinst same hmem

lemma Furnished.replaced (hf : f.Furnished) {node : Phi} (hi : f.phi? i = some node)
    (hv : f.Supplies v) : ((f.replaceUses i v).removeInst i).Furnished := by
  obtain ⟨c, hphi⟩ := phi?_some hi
  have hmore := enlarged_replaced f i v
  have hsubst : ∀ u, f.Supplies u → ((f.replaceUses i v).removeInst i).Supplies
      (Value.subst (.inst i) v u) := by
    intro u hu
    unfold Value.subst
    split
    · exact hv.enlarged hmore
    · exact hu.enlarged hmore
  refine ⟨hf.edges.sameShape (sameShape_replaced f i v), ?_, ?_, ?_⟩
  · intro b bb' hb' j hj
    obtain ⟨bb, hb, hbody, -⟩ := block_of_replaced hb'
    obtain ⟨p, hp, hblock, hnot⟩ := hf.bodies b bb hb j (hbody hj)
    have hne : j ≠ i := by
      rintro rfl
      rw [hphi] at hp
      cases hp
      cases hnot
    rw [inst?_replaced, if_neg hne, hp]
    exact ⟨_, rfl, hblock, (Inst.isPhi_mapOperands _ _).trans hnot⟩
  · intro j q hq u hu
    rw [inst?_replaced] at hq
    split at hq
    · cases hq
    · obtain ⟨p, hp, rfl⟩ := Option.map_eq_some_iff.1 hq
      rw [Inst.operands_mapOperands] at hu
      obtain ⟨u₀, hu₀, rfl⟩ := List.mem_map.1 hu
      exact hsubst u₀ (hf.insts j p hp u₀ hu₀)
  · intro b bb' hb' t' ht' u hu
    obtain ⟨bb, hb, -, hterm⟩ := block_of_replaced hb'
    rw [hterm] at ht'
    obtain ⟨t, hbt, rfl⟩ := Option.map_eq_some_iff.1 ht'
    rw [Terminator.operands_mapOperands] at hu
    obtain ⟨u₀, hu₀, rfl⟩ := List.mem_map.1 hu
    exact hsubst u₀ (hf.ends b bb hb t hbt u₀ hu₀)

lemma Folded.enlarged {rs : List Replacement} (h : Folded f g rs) : Enlarged f g := by
  induction h with
  | refl => exact .refl f
  | step _ _ _ ih => exact ih.trans (enlarged_replaced ..)

/-- Folding puts in what was supplied. -/
lemma Folded.furnished {rs : List Replacement} (h : Folded f g rs) (hf : f.Furnished) :
    g.Furnished ∧ ∀ r ∈ rs, g.Supplies r.same := by
  induction h with
  | refl => exact ⟨hf, by simp⟩
  | @step g rs i node same before hphi ht ih =>
    obtain ⟨hg, hrs⟩ := ih
    have hsame := hg.supplies_same hphi ht
    have hmore := enlarged_replaced g i same
    refine ⟨hg.replaced hphi hsame, ?_⟩
    intro r hr
    rcases List.mem_append.1 hr with hr | hr
    · exact (hrs r hr).enlarged hmore
    · rw [List.mem_singleton.1 hr]
      exact hsame.enlarged hmore

end Func

namespace Draft

open Func

/-! ## Drafts -/

/-- The function is furnished and enlarges `f`, and all that is bound is supplied. -/
structure Furnished (f : Func) (d : Draft) : Prop where
  func : d.func.Furnished
  enlarged : Enlarged f d.func
  bound : ∀ x b v, d.vars.value? x b = some v → d.func.Supplies v

variable {f g : Func} {d : Draft} {x : Variable} {b : BlockId} {v : Value} {phi : InstId}

namespace Furnished

lemma rebase (h : d.Furnished g) (hg : Enlarged f g) : d.Furnished f :=
  ⟨h.func, hg.trans h.enlarged, h.bound⟩

lemma bind (h : d.Furnished f) (hv : d.func.Supplies v) (x : Variable) (b : BlockId) :
    { d with vars := d.vars.bind x b v }.Furnished f := by
  refine ⟨h.func, h.enlarged, ?_⟩
  intro y c u hu
  rw [Bindings.value?_bind] at hu
  split at hu
  · cases hu
    exact hv
  · exact h.bound y c u hu

/-- Bindings that bind the same may take the place of those there are. -/
lemma vars (h : d.Furnished f) {vars : Bindings}
    (hsame : ∀ y c, vars.value? y c = d.vars.value? y c) : { d with vars }.Furnished f :=
  ⟨h.func, h.enlarged, fun y c u hu => h.bound y c u ((hsame y c).symm.trans hu)⟩

/-- An enlarged function may take the place of the one there is. -/
lemma setFunc (h : d.Furnished f) (hg : g.Furnished) (hmore : Enlarged d.func g) :
    { d with func := g }.Furnished f :=
  ⟨hg, h.enlarged.trans hmore, fun y c u hu => (h.bound y c u hu).enlarged hmore⟩

lemma newPhi (h : d.Furnished f) (b : BlockId) :
    (Draft.newPhi b).Ends d (fun phi d' => d'.Furnished f ∧ d'.func.Supplies (.inst phi))
      fun _ => True := by
  unfold Draft.newPhi
  refine Work.Ends.get_bind (.ofExcept_bind ?_ trivial)
  rintro ⟨phi, g⟩ hg
  obtain ⟨rfl, -, happ⟩ := appendInst_ok hg
  refine Work.Ends.modify_bind (.of_pure ⟨?_, ?_⟩)
  · exact h.setFunc (happ.furnished h.func (by rintro v ⟨⟩)) happ.enlarged
  · show d.func.instCapacity < g.instCapacity
    rw [happ.capacity]
    exact Nat.lt_succ_self _

lemma foldPhis (h : d.Furnished f) (candidates : List InstId) :
    (Draft.foldPhis candidates).Ends d (fun rs d' => d'.Furnished f ∧
      ∀ v, d.func.Supplies v → d'.func.Supplies (Replacement.resolve rs v)) fun _ => True := by
  obtain ⟨hfolded, -⟩ := foldTrivialPhis_folded d.func candidates (!d.vars.guarded.contains ·)
  unfold Draft.foldPhis
  apply Work.Ends.get_bind
  generalize d.func.foldTrivialPhis candidates (!d.vars.guarded.contains ·) = folded at *
  obtain ⟨g, rs⟩ := folded
  obtain ⟨hg, hsame⟩ := hfolded.furnished h.func
  have hresolve : ∀ v, d.func.Supplies v → g.Supplies (Replacement.resolve rs v) := by
    intro v hv
    refine repeatUpTo_induct g.Supplies ?_ _ _ (hv.enlarged hfolded.enlarged)
    intro u u' _ hnext
    obtain ⟨r, hr, -, rfl⟩ := Replacement.exists_of_next? hnext
    exact hsame r hr
  refine Work.Ends.of_ok rfl ⟨⟨hg, h.enlarged.trans hfolded.enlarged, ?_⟩, hresolve⟩
  intro y c u hu
  change Bindings.value? (if rs.isEmpty then _ else _) y c = some u at hu
  split at hu
  · exact (h.bound y c u hu).enlarged hfolded.enlarged
  · rw [Bindings.value?_mapValues] at hu
    obtain ⟨u₀, hu₀, rfl⟩ := Option.map_eq_some_iff.1 hu
    exact hresolve u₀ (h.bound y c u₀ hu₀)

/-! ## Reading -/

lemma newPlaceholder (h : d.Furnished f) (x : Variable) (b : BlockId) :
    (Draft.newPlaceholder x b).Ends d (fun v d' => d'.Furnished f ∧ d'.func.Supplies v)
      fun _ => True := by
  refine (h.newPhi b).bind ?_
  rintro phi d₁ ⟨h₁, hphi⟩
  refine Work.Ends.modify_bind (.of_pure ⟨h₁.vars ?_, hphi⟩)
  intro y c
  show ((d₁.vars.addPending x b phi).guard phi).value? y c = _
  rw [Bindings.guard_eq]
  rfl

lemma fillPhi {read : BlockId → Work Draft Value}
    (hread : ∀ p d, d.Furnished f →
      (read p).Ends d (fun v d' => d'.Furnished f ∧ d'.func.Supplies v) fun _ => True)
    (h : d.Furnished f) (phi : InstId) (preds : List BlockId) :
    (Draft.fillPhi read phi preds).Ends d (fun v d' => d'.Furnished f ∧
      (f.Supplies (.inst phi) → d'.func.Supplies v)) fun _ => True := by
  apply Work.Ends.modify_bind
  refine (Work.Ends.forM (fun _ d' => d'.Furnished f) ?_ preds ?_).bind ?_
  · intro p rest d₁ h₁
    refine (hread p d₁ h₁).bind ?_
    rintro v d₂ ⟨h₂, hv⟩
    refine Work.Ends.get_bind (.ofExcept_bind ?_ trivial)
    intro g hg
    obtain ⟨hmore, hfurnished⟩ := h₂.func.setIncoming hv hg
    exact .of_modify (h₂.setFunc hfurnished hmore)
  · refine h.vars fun y c => ?_
    show (d.vars.guard phi).value? y c = _
    rw [Bindings.guard_eq]
    rfl
  · intro _ d₁ h₁
    apply Work.Ends.modify_bind
    have h₂ : { d₁ with vars := d₁.vars.unguard phi }.Furnished f := h₁.vars fun _ _ => rfl
    refine (h₂.foldPhis [phi]).bind ?_
    rintro rs d₃ ⟨h₃, hresolve⟩
    exact .of_pure ⟨h₃, fun hphi => hresolve _ (hphi.enlarged h₂.enlarged)⟩

/-- What is read is supplied. -/
lemma readWithin (x : Variable) (depth : Nat) (f : Func) (b : BlockId) (d : Draft)
    (h : d.Furnished f) :
    (Draft.readWithin x depth b).Ends d (fun v d' => d'.Furnished f ∧ d'.func.Supplies v)
      fun _ => True := by
  induction depth generalizing f b d with
  | zero => exact .of_throw trivial
  | succ depth ih =>
    have hrest : ∀ (t : Trail) v d₁, d₁.Furnished f ∧ d₁.func.Supplies v →
        (do (t.last :: t.passed).forM fun c => modifyVars (·.bind x c v)
            return v : Work Draft Value).Ends d₁
          (fun v d' => d'.Furnished f ∧ d'.func.Supplies v) fun _ => True := by
      intro t v d₁ h₁
      refine (Work.Ends.forM (fun _ d' => d'.Furnished f ∧ d'.func.Supplies v) ?_ _ h₁).bind
        fun _ d' hd' => .of_pure hd'
      rintro c rest d₂ ⟨h₂, hv⟩
      exact .of_modify ⟨h₂.bind hv x c, hv⟩
    unfold Draft.readWithin
    apply (Work.Ends.of_yields (trail_yields x b d)).bind
    rintro t d' ⟨rfl, ht⟩
    have hends := endsAt_of_trailFrom ht
    cases hsource : t.source with
    | bound v =>
      rw [hsource] at hends
      exact hrest t v d' ⟨h, h.bound x t.last v hends⟩
    | unsealed => exact (h.newPlaceholder x t.last).bind (hrest t)
    | nothing => exact hrest t .undef d' ⟨h, trivial⟩
    | join preds =>
      refine (h.newPhi t.last).bind ?_
      rintro phi d₁ ⟨h₁, hphi⟩
      -- from here on the function that has the phi is the one to enlarge
      have hown : d₁.Furnished d₁.func := ⟨h₁.func, .refl _, h₁.bound⟩
      apply Work.Ends.modify_bind
      refine ((hown.bind hphi x t.last).fillPhi (fun p d => ih d₁.func p d) phi preds).bind ?_
      rintro v d₂ ⟨h₂, hv⟩
      exact hrest t v d₂ ⟨h₂.rebase h₁.enlarged, hv hphi⟩

lemma read (h : d.Furnished f) (x : Variable) (b : BlockId) :
    (Draft.read x b).Ends d (fun v d' => d'.Furnished f ∧ d'.func.Supplies v) fun _ => True :=
  .get_bind (readWithin x d.readDepth f b d h)

lemma sealBlock (h : d.Furnished f) (b : BlockId) :
    (Draft.sealBlock b).Ends d (fun _ d' => d'.Furnished f) fun _ => True := by
  apply Work.Ends.get_bind
  split
  · exact .of_pure h
  · apply Work.Ends.modify_bind
    have h₀ : { d with vars := d.vars.dropPending b }.Furnished f := h.vars fun _ _ => rfl
    refine (Work.Ends.forM (fun _ d' => d'.Furnished f) ?_ _ h₀).bind ?_
    · intro e rest d₁ h₁
      apply Work.Ends.get_bind
      refine (h₁.fillPhi (fun p d hd => hd.read e.1 p) e.2 _).bind ?_
      rintro _ d₂ ⟨h₂, -⟩
      exact .of_pure h₂
    · intro _ d₁ h₁
      refine Work.Ends.modify_bind (.get_bind ?_)
      have h₂ : { d₁ with vars := d₁.vars.markSealed b }.Furnished f := by
        refine h₁.vars fun y c => ?_
        rw [Bindings.markSealed_eq]
        rfl
      refine (h₂.foldPhis _).bind ?_
      rintro _ d₃ ⟨h₃, -⟩
      exact .of_pure h₃

end Furnished

end Draft

end SsaBackend
