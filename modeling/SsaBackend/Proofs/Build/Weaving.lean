import SsaBackend.Proofs.Build.Web

/-!
# Reads and seals keep the web

While a variable is read, the phis that are made belong to it, and the value that a read gives is
what the block binds from then on. A walk back binds the blocks it passes, each of them sealed and
with one predecessor, so that each passes on what is bound before it (`Draft.Strand`). That a block
may have been bound meanwhile, by a read that came round a loop, does no harm: it was bound to the
same value (`Draft.Woven.bind_next`). With that, reads keep the web of `x`, those of other
variables included (`Draft.Weaving.read`), and so does sealing (`Draft.Spun.sealBlock`).
-/

namespace SsaBackend

namespace Func

/-- The ids that `g` has and `f` has not. -/
def newIds (f g : Func) : List InstId :=
  (List.range' f.instCapacity (g.instCapacity - f.instCapacity)).map InstId.mk

lemma mem_newIds {f g : Func} {i : InstId} :
    i ∈ f.newIds g ↔ f.instCapacity ≤ i.index ∧ i.index < g.instCapacity := by
  unfold newIds
  rw [List.mem_map]
  constructor
  · rintro ⟨n, hn, rfl⟩
    rw [List.mem_range'_1] at hn
    exact ⟨hn.1, show n < g.instCapacity by omega⟩
  · intro hi
    exact ⟨i.index, List.mem_range'_1.2 (by omega), rfl⟩

end Func

namespace Draft

open Func

variable {fair : Prop} {filling : List InstId} {late : Option BlockId} {d d' d'' d₀ d₁ : Draft}
  {x y : Variable} {X : InstId → Prop} {b c p last : BlockId} {v : Value} {phi : InstId}
  {rest passed : List BlockId}

/-! ## Before and after -/

/-- What work on a draft comes to: values were followed, and where `x` was bound nowhere it is
not. -/
structure Turns (x : Variable) (d d' : Draft) : Prop where
  evolves : ∃ σ, Evolves x σ d d'
  unbound : (∀ c, d.vars.value? x c = none) → ∀ c, d'.vars.value? x c = none

namespace Turns

lemma refl (x : Variable) (d : Draft) : Turns x d d := ⟨⟨_, .refl x d⟩, fun h => h⟩

lemma trans (h : Turns x d d') (h' : Turns x d' d'') : Turns x d d'' := by
  obtain ⟨σ, hσ⟩ := h.evolves
  obtain ⟨σ', hσ'⟩ := h'.evolves
  exact ⟨⟨_, hσ.trans hσ'⟩, fun hnone => h'.unbound (h.unbound hnone)⟩

lemma capacity (h : Turns x d d') : d.func.instCapacity ≤ d'.func.instCapacity := by
  obtain ⟨σ, hσ⟩ := h.evolves
  exact hσ.capacity

/-- A step that leaves function, journal and the bindings of `x` alone. -/
lemma of_vars (hfunc : d'.func = d.func) (hjournal : d'.journal = d.journal)
    (hvalues : ∀ c, d'.vars.value? x c = d.vars.value? x c) : Turns x d d' :=
  ⟨⟨_, .of_vars hfunc (hjournal ▸ fun _ he => he) fun c _ hv => (hvalues c).trans hv⟩,
    fun hnone c => (hvalues c).trans (hnone c)⟩

/-- A step that binds `x`, once it is bound somewhere. -/
lemma of_bound (hσ : Evolves x id d d') (hbound : (d.vars.value? x c).isSome = true) :
    Turns x d d' := by
  refine ⟨⟨_, hσ⟩, ?_⟩
  intro hnone
  rw [hnone] at hbound
  cases hbound

lemma folds {rs : List Replacement} (hf : Folds rs d d') (hg : d.Grounded fair)
    (hjournal : d'.journal = d.journal ++ rs.map (Replacement.event d'.func.name)) :
    Turns x d d' := by
  refine ⟨⟨_, hf.evolves hg hjournal x⟩, ?_⟩
  intro hnone c
  rw [hf.value?, hnone]
  rfl

end Turns

/-- A draft in which `y` may be read: phis are in form, those of `x` make a web, and a new one
will be of `x` exactly if `y` is. -/
structure Weaving (fair : Prop) (filling : List InstId) (late : Option BlockId) (x : Variable)
    (X : InstId → Prop) (y : Variable) (d : Draft) : Prop where
  formed : d.Formed fair filling late
  settled : d.Settled []
  lateBound : LateBound y late d
  web : d.Web x X late
  fresh : ∀ i, d.func.instCapacity ≤ i.index → (X i ↔ y = x)
  started : y = x → (d.vars.value? x d.func.entry).isSome = true

/-- A read ends with a web, and if `x` was read, the block binds what was answered. -/
structure Woven (fair : Prop) (filling : List InstId) (late : Option BlockId) (x : Variable)
    (X : InstId → Prop) (y : Variable) (b : BlockId) (d : Draft) (v : Value) (d' : Draft) : Prop
    extends Answers fair filling late d v d' where
  web : d'.Web x X late
  turns : Turns x d d'
  here : y = x → d'.vars.value? x b = some v

/-- `read` answers with the value of `y` at the end of a block, and keeps the web of `x`. -/
def Weaver (fair : Prop) (late : Option BlockId) (x : Variable) (X : InstId → Prop) (y : Variable)
    (read : BlockId → Work Draft Value) : Prop :=
  ∀ filling p d, Weaving fair filling late x X y d → d.func.hasBlock p = true →
    (read p).Yields d (Woven fair filling late x X y p d)

/-- The entry binds the variable, if it is `x`. -/
lemma Weaving.ne_entry (h : Weaving fair filling late x X y d) (hy : y = x)
    (hnone : d.vars.value? y b = none) : b ≠ d.func.entry := by
  subst hy
  rintro rfl
  have hbound := h.started rfl
  rw [hnone] at hbound
  cases hbound

/-- Reading goes on from where it got to. -/
lemma Weaving.next {filling' : List InstId} (h : Weaving fair filling late x X y d)
    (hform : d'.Formed fair filling' late) (hs : d'.Settled []) (hkept : Kept filling d d')
    (hweb : d'.Web x X late) (hturns : Turns x d d') : Weaving fair filling' late x X y d' := by
  refine ⟨hform, hs, h.lateBound.kept hkept, hweb, ?_, ?_⟩
  · exact fun i hi => h.fresh i (Nat.le_trans hturns.capacity hi)
  · exact fun hy => hkept.bound x _ (h.started hy)

/-! ## Binding the blocks of a walk -/

/-- The blocks `passed` follow on `last`, one after the other: each is sealed, has the one before
it as its only predecessor and does not bind the variable. -/
def Strand (y : Variable) (d : Draft) : BlockId → List BlockId → Prop
  | _, [] => True
  | last, c :: rest => d.vars.value? y c = none ∧ d.vars.isSealed c = true ∧
      d.func.preds c = [last] ∧ Strand y d c rest

/-- A walk back passes a strand, and comes to a join only where there are not one predecessor. -/
lemma strand_trailFrom {n : Nat} {t : Trail} (ht : d.trailFrom y n passed b = some t)
    (hpassed : Strand y d b passed) : Strand y d t.last t.passed ∧
      (∀ c ∈ b :: passed, c ∈ t.last :: t.passed) ∧ ∀ l, t.source = .join l → ∀ p, l ≠ [p] := by
  induction n generalizing passed b with
  | zero => cases ht
  | succ n ih =>
    rw [Draft.trailFrom] at ht
    split at ht
    · cases ht
      exact ⟨hpassed, fun _ hc => hc, by rintro l ⟨⟩⟩
    · rename_i hnone
      split at ht
      · rename_i hsealed
        split at ht
        · cases ht
          exact ⟨hpassed, fun _ hc => hc, by rintro l ⟨⟩⟩
        · rename_i q hpreds
          obtain ⟨hstrand, hmem, hjoin⟩ := ih ht ⟨hnone, hsealed, hpreds, hpassed⟩
          exact ⟨hstrand, fun c hc => hmem c (List.mem_cons_of_mem _ hc), hjoin⟩
        · rename_i hmany
          cases ht
          refine ⟨hpassed, fun _ hc => hc, ?_⟩
          rintro l ⟨⟩ p hp
          exact hmany p hp
      · cases ht
        exact ⟨hpassed, fun _ hc => hc, by rintro l ⟨⟩⟩

namespace Woven

/-- Binding the value where it is bound already. -/
lemma rebind (h : Woven fair filling late x X y b d₀ v d) (hc : y = x → d.vars.value? x c = some v) :
    Woven fair filling late x X y c d₀ v { d with vars := d.vars.bind y c v } := by
  have hvalues : ∀ c', (d.vars.bind y c v).value? x c' = d.vars.value? x c' := by
    intro c'
    rw [Bindings.value?_bind]
    split
    · rename_i he
      obtain ⟨rfl, rfl⟩ := he
      exact (hc rfl).symm
    · rfl
  refine ⟨h.toAnswers.bind y c, ?_, h.turns.trans (.of_vars rfl rfl hvalues), ?_⟩
  · exact h.web.of_same rfl hvalues (fun _ => rfl) (fun _ hc => hc) fun _ _ he => he
  · exact fun hy => (hvalues c).trans (hc hy)

/-- Binding the value where nothing is bound, in a block whose predecessors bind it. -/
lemma of_bind (hd : Weaving fair filling late x X y d₀) (h : Answers fair filling late d₀ v d)
    (hweb : d.Web x X late) (hturns : Turns x d₀ d) (hnone : d.vars.value? y c = none)
    (hsealed : d.vars.isSealed c = true)
    (hall : y = x → ∀ p ∈ d.func.preds c, d.vars.value? x p = some v) :
    Woven fair filling late x X y c d₀ v { d with vars := d.vars.bind y c v } := by
  by_cases hy : y = x
  · subst hy
    refine ⟨h.bind y c, hweb.bind hnone (.inl hsealed) (hall rfl), hturns.trans ?_, ?_⟩
    · refine .of_bound (.of_vars rfl (fun _ he => he) ?_) (h.kept.bound y _ (hd.started rfl))
      exact fun _ _ hu => Bindings.value?_bind_of_none hnone hu
    · exact fun _ => Bindings.value?_bind_self
  · have hsame : Woven fair filling late x X y c d₀ v d :=
      ⟨h, hweb, hturns, fun he => absurd he hy⟩
    exact hsame.rebind fun he => absurd he hy

/-- The next block of a walk is bound. If it was bound meanwhile, then to the same value. -/
lemma bind_next (hd : Weaving fair filling late x X y d₀)
    (h : Woven fair filling late x X y last d₀ v d) (hnone : d₀.vars.value? y c = none)
    (hsealed : d₀.vars.isSealed c = true) (hpreds : d₀.func.preds c = [last]) :
    Woven fair filling late x X y c d₀ v { d with vars := d.vars.bind y c v } := by
  have hs : d.vars.isSealed c = true := (h.kept.isSealed c).trans hsealed
  have hp : d.func.preds c = [last] := (h.kept.preds c).trans hpreds
  cases hc : d.vars.value? y c with
  | none =>
    refine of_bind hd h.toAnswers h.web h.turns hc hs ?_
    intro hy p hmem
    rw [hp] at hmem
    rw [List.mem_singleton.1 hmem]
    exact h.here hy
  | some u =>
    refine h.rebind ?_
    rintro rfl
    have hentry := hd.ne_entry rfl hnone
    -- a block with one predecessor that is sealed has no phi of its own
    rcases h.web.passed c u hentry hc with ⟨i, hi, hX⟩ | ⟨-, hall⟩
    · exact absurd hp ((h.web.own c i hi hX).2.2 hs last)
    · have hlast := hall last (hp ▸ List.mem_singleton_self last)
      rw [h.here rfl] at hlast
      rw [hc, Option.some.inj hlast]

/-- All the blocks of a walk are bound to what it ended with. -/
lemma bindAll (hd : Weaving fair filling late x X y d₀)
    (h : Woven fair filling late x X y last d₀ v d) (hstrand : Strand y d₀ last passed)
    (hb : b ∈ last :: passed) :
    (do passed.forM fun c => modifyVars (·.bind y c v)
        return v).Yields d (Woven fair filling late x X y b d₀) := by
  have hloop := Work.Yields.forM (f := fun c => modifyVars (·.bind y c v))
    (fun rest d' => ∃ prev, Woven fair filling late x X y prev d₀ v d' ∧ Strand y d₀ prev rest ∧
      (y = x → b ∈ rest ∨ d'.vars.value? x b = some v)) (s := d) ?_ passed
    ⟨last, h, hstrand, ?_⟩
  · apply hloop.bind
    rintro _ d' ⟨prev, h', -, hbound⟩
    apply Work.Yields.of_pure
    exact { h' with here := fun hy => (hbound hy).resolve_left List.not_mem_nil }
  · rintro c rest d₁ ⟨prev, h₁, ⟨hnone, hsealed, hpreds, hrest⟩, hbound⟩
    have hnext := h₁.bind_next hd hnone hsealed hpreds
    refine ⟨c, hnext, hrest, ?_⟩
    intro hy
    rcases hbound hy with hmem | hv
    · rcases List.mem_cons.1 hmem with rfl | hmem
      · exact .inr (hnext.here hy)
      · exact .inl hmem
    · refine .inr ?_
      show (d₁.vars.bind y c v).value? x b = some v
      rw [Bindings.value?_bind]
      split
      · rfl
      · exact hv
  · intro hy
    rcases List.mem_cons.1 hb with rfl | hmem
    · exact .inr (h.here hy)
    · exact .inl hmem

end Woven

/-! ## Filling a phi -/

/-- Some operands of a phi are set, `rest` are to come, and the web is kept. -/
structure Gathering (fair : Prop) (filling : List InstId) (late : Option BlockId) (x : Variable)
    (X : InstId → Prop) (phi : InstId) (b : BlockId) (d : Draft) (rest : List BlockId)
    (d' : Draft) : Prop extends Filling fair filling late phi b d rest d' where
  web : d'.Web x X late
  turns : Turns x d d'

lemma newPhi_journal (b : BlockId) (d : Draft) (hb : d.func.hasBlock b = true) :
    (Draft.newPhi b).Yields d fun _ d' => d'.journal = d.journal := by
  obtain ⟨bb, hbb⟩ := Option.isSome_iff_exists.1 hb
  obtain ⟨g, hg, -⟩ := appendInst_eq (.phi .empty) hbb
  apply Work.Yields.get_bind
  apply Work.Yields.ofExcept_bind hg
  rfl

lemma setIncoming_journal {l : List BlockId} (hm : d.func.Merges phi b l) (p : BlockId)
    (v : Value) :
    (do setFunc (← Work.ofExcept ((← get).func.setPhiIncoming phi p v)) : Work Draft Unit).Yields d
      fun _ d' => d'.journal = d.journal := by
  obtain ⟨node, hnode, -⟩ := hm
  apply Work.Yields.get_bind
  apply Work.Yields.ofExcept_bind (setPhiIncoming_eq p v hnode)
  rfl

namespace Gathering

/-- One predecessor more gives its operand. -/
lemma operand {read : BlockId → Work Draft Value} (hread : Weaver fair late x X y read)
    (hd : Weaving fair (phi :: filling) late x X y d₁)
    (h : Gathering fair filling late x X phi b d (p :: rest) d₁) (hphi : phi ∉ filling)
    (hX : X phi ↔ y = x) :
    (do let v ← read p
        setFunc (← Work.ofExcept ((← get).func.setPhiIncoming phi p v)) : Work Draft Unit).Yields
      d₁ fun _ => Gathering fair filling late x X phi b d rest := by
  have hr := hread (phi :: filling) p d₁ hd h.hasBlock_next
  obtain ⟨l, hm, -⟩ := h.soFar
  have hweb : (do let v ← read p
                  setFunc (← Work.ofExcept ((← get).func.setPhiIncoming phi p v)) :
      Work Draft Unit).Yields d₁ fun _ d' => d'.Web x X late ∧ Turns x d d' := by
    apply hr.bind
    intro v d₂ hd₂
    have hm₂ := hd₂.kept.merges phi List.mem_cons_self b l hm
    refine ((setIncoming_yields hm₂ p v).and (setIncoming_journal hm₂ p v)).mono ?_
    rintro _ d₃ ⟨hw, hjournal⟩
    refine ⟨hd₂.web.widened hw fun hXphi => hd₂.here (hX.1 hXphi), ?_⟩
    refine (h.turns.trans hd₂.turns).trans ⟨⟨_, .widened hw hjournal x⟩, ?_⟩
    rw [hw.vars]
    exact fun hnone => hnone
  refine ((h.toFilling.operand hphi (hr.mono fun _ _ hv => hv.toAnswers)).and hweb).mono ?_
  rintro _ d₃ ⟨hf, hw, ht⟩
  exact ⟨hf, hw, ht⟩

/-- A phi that has all its operands is let go, and folded if it is trivial. -/
lemma done (h : Gathering fair filling late x X phi b d [] d₁) (hphi : phi ∉ filling)
    (hX : X phi ↔ y = x) :
    (do modifyVars (·.unguard phi)
        let rs ← foldPhis [phi]
        return Replacement.resolve rs (.inst phi)).Yields d₁
      (Woven fair filling late x X y b d) := by
  obtain ⟨h₂, hs₂⟩ := h.released hphi
  have hweb : (do modifyVars (·.unguard phi)
                  let rs ← foldPhis [phi]
                  return Replacement.resolve rs (.inst phi)).Yields d₁ fun v d' =>
      d'.Web x X late ∧ Turns x d d' ∧ (y = x → d'.vars.value? x b = some v) := by
    apply Work.Yields.modify_bind
    apply ((foldPhis_yields hs₂).and (foldPhis_tells [phi] _)).bind
    rintro rs d₃ ⟨⟨hfolds, -⟩, hjournal⟩
    apply Work.Yields.of_pure
    have hweb₂ : { d₁ with vars := d₁.vars.unguard phi }.Web x X late := h.web.reguard _
    refine ⟨hweb₂.folds hfolds h₂, ?_, ?_⟩
    · have hlet : Turns x d₁ { d₁ with vars := d₁.vars.unguard phi } :=
        .of_vars rfl rfl fun _ => rfl
      exact (h.turns.trans hlet).trans (.folds hfolds h₂.toGrounded hjournal)
    · -- until it was folded, the block bound the phi
      intro hy
      obtain ⟨l, ⟨node, hnode, -⟩, -⟩ := h.soFar
      obtain ⟨-, hv, -⟩ := h.web.own b phi (h.web.listed phi ⟨.phi node, b⟩ (hX.2 hy) hnode) (hX.2 hy)
      rw [hfolds.value?]
      show (d₁.vars.value? x b).map _ = _
      rw [hv]
      rfl
  refine ((h.toFilling.done hphi).and hweb).mono ?_
  rintro v d₃ ⟨ha, hw, ht, hv⟩
  exact ⟨ha, hw, ht, hv⟩

end Gathering

/-- A phi without operands is filled. It is of `x` exactly if `y` is. -/
lemma Web.fillPhi {read : BlockId → Work Draft Value} (hread : Weaver fair late x X y read)
    (hd : Weaving fair (phi :: filling) late x X y { d with vars := d.vars.guard phi })
    (hphi : phi ∉ filling) (hm : d.func.Merges phi b []) (hX : X phi ↔ y = x) :
    (Draft.fillPhi read phi (d.func.preds b)).Yields d (Woven fair filling late x X y b d) := by
  have hstart : Gathering fair filling late x X phi b d (d.func.preds b)
      { d with vars := d.vars.guard phi } :=
    ⟨.start hd.formed hd.settled hm, hd.web, .of_vars rfl rfl fun _ => Bindings.value?_guard⟩
  apply Work.Yields.modify_bind
  apply (Work.Yields.forM (Gathering fair filling late x X phi b d) ?_ _ hstart).bind
  · exact fun _ d₁ h₁ => h₁.done hphi hX
  · intro p rest d₁ h₁
    refine h₁.operand hread ⟨h₁.formed, h₁.settled, ?_, h₁.web, ?_, ?_⟩ hphi hX
    · intro c hc
      exact h₁.kept.bound y c (Bindings.value?_guard (s := d.vars) ▸ hd.lateBound c hc)
    · exact fun i hi => hd.fresh i (Nat.le_trans h₁.turns.capacity hi)
    · exact fun hy => h₁.kept.bound x _ (Bindings.value?_guard (s := d.vars) ▸ hd.started hy)

/-! ## Reading -/

/-- A phi that is opened where `y` is read belongs to the web exactly if `y` is `x`. -/
lemma Weaving.opened (h : Weaving fair filling late x X y d) (ho : Opened y b phi d d')
    (hb : d.func.hasBlock b = true) (hnone : d.vars.value? y b = none)
    (hjournal : d'.journal = d.journal)
    (hmany : d.vars.isSealed b = true → ∀ p, d.func.preds b ≠ [p])
    (hpending : ∀ c, ∀ e ∈ d'.vars.pendingAt c, e ∈ d.vars.pendingAt c ∨ e = (y, phi)) :
    d'.Web x X late ∧ Turns x d d' := by
  have hX : X phi ↔ y = x := h.fresh phi (ho.new ▸ Nat.le_refl _)
  refine ⟨h.web.opened ho hb hnone hX (fun hy => h.ne_entry hy hnone) hmany hpending, ?_, ?_⟩
  · exact ⟨id, .appended ho.func hjournal fun _ _ hu => ho.value?_keep hnone hu⟩
  · intro hbare c
    rw [ho.value?, if_neg]
    · exact hbare c
    · rintro ⟨hx, -⟩
      exact h.ne_entry hx.symm (hx ▸ hbare d.func.entry) rfl

/-- In an unsealed block a read ends with a placeholder. -/
lemma Weaving.newPlaceholder (h : Weaving fair filling late x X y d)
    (hb : d.func.hasBlock b = true) (hnone : d.vars.value? y b = none)
    (hopen : ¬ d.Closed late b) :
    (Draft.newPlaceholder y b).Yields d fun v d' =>
      Woven fair filling late x X y b d v { d' with vars := d'.vars.bind y b v } := by
  have hweb : (Draft.newPlaceholder y b).Yields d fun v d' =>
      { d' with vars := d'.vars.bind y b v }.Web x X late ∧
        Turns x d { d' with vars := d'.vars.bind y b v } := by
    unfold Draft.newPlaceholder
    apply ((newPhi_yields hb).and (newPhi_journal b d hb)).bind
    rintro phi d₁ ⟨⟨hnew, hvars, happ⟩, hjournal⟩
    apply Work.Yields.modify_bind
    apply Work.Yields.of_pure
    refine h.opened (.of_placeholder hnew hvars happ y) hb hnone hjournal ?_ ?_
    · exact fun hsealed => absurd (.inl hsealed) hopen
    · intro c e he
      change e ∈ ((d₁.vars.addPending y b phi).guard phi).pendingAt c at he
      rw [Bindings.pendingAt_guard, hvars] at he
      exact (Bindings.mem_pendingAt_addPending he).symm.imp_right And.right
  refine ((h.formed.newPlaceholder h.settled hb hnone hopen).and hweb).mono ?_
  rintro v d' ⟨ha, hw, ht⟩
  refine ⟨ha, hw, ht, ?_⟩
  rintro rfl
  exact Bindings.value?_bind_self

/-- At a join a phi is made and filled. -/
lemma Weaving.join {read : BlockId → Work Draft Value} (hread : Weaver fair late x X y read)
    (h : Weaving fair filling late x X y d) (hb : d.func.hasBlock b = true)
    (hnone : d.vars.value? y b = none) (hsealed : d.vars.isSealed b = true)
    (hmany : ∀ p, d.func.preds b ≠ [p]) :
    (do let phi ← Draft.newPhi b
        modifyVars (·.bind y b (.inst phi))
        Draft.fillPhi read phi (d.func.preds b)).Yields d (Woven fair filling late x X y b d) := by
  apply ((newPhi_yields hb).and (newPhi_journal b d hb)).bind
  rintro phi d₁ ⟨⟨hnew, hvars, happ⟩, hjournal⟩
  apply Work.Yields.modify_bind
  have hj := h.formed.joining h.settled hsealed hnew hvars happ y
  have ho := Opened.of_join hnew hvars happ y
  obtain ⟨hweb, hturns⟩ : Web x X late _ ∧ Turns x d _ := by
    refine h.opened ho hb hnone hjournal (fun _ => hmany) ?_
    intro c e he
    rw [Bindings.pendingAt_guard, hvars] at he
    exact .inl he
  have hfill := Web.fillPhi hread (h.next hj.formed hj.settled (ho.kept filling) hweb hturns)
    hj.fresh hj.merges (h.fresh phi (hnew ▸ Nat.le_refl _))
  rw [hj.kept.preds] at hfill
  refine hfill.mono ?_
  intro v d₃ hd₃
  refine ⟨⟨hd₃.formed, hd₃.settled, hj.kept.trans hd₃.kept, hd₃.lasting⟩, hd₃.web, ?_, hd₃.here⟩
  have hlet : Turns x { d₁ with vars := (d₁.vars.bind y b (.inst phi)).guard phi }
      { d₁ with vars := d₁.vars.bind y b (.inst phi) } :=
    .of_vars rfl rfl fun _ => Bindings.value?_guard.symm
  exact (hturns.trans hlet).trans hd₃.turns

/-- A walk that ends at a value that is there already binds it to all its blocks. -/
lemma Weaving.refl (h : Weaving fair filling late x X y d) (hv : fair → d.func.Lasting v)
    (hhere : y = x → d.vars.value? x b = some v) : Woven fair filling late x X y b d v d :=
  ⟨⟨h.formed, h.settled, .refl filling d, hv⟩, h.web, .refl x d, hhere⟩

/-- A read of bounded depth keeps the web. -/
lemma Weaving.readWithin (depth : Nat) (filling : List InstId) (b : BlockId) (d : Draft)
    (h : Weaving fair filling late x X y d) (hb : d.func.hasBlock b = true) :
    (Draft.readWithin y depth b).Yields d (Woven fair filling late x X y b d) := by
  induction depth generalizing filling b d with
  | zero => exact Work.Yields.of_throw
  | succ depth ih =>
    unfold Draft.readWithin
    apply (trail_yields y b d).bind
    rintro t d' ⟨rfl, ht⟩
    obtain ⟨hlast, hends⟩ := h.formed.toGrounded.trailFrom ht hb
    obtain ⟨hstrand, hmem, hmany⟩ := strand_trailFrom ht trivial
    -- once the last block of the walk is bound, the blocks before it follow
    have hrest : ∀ u d₁, Woven fair filling late x X y t.last d' u
          { d₁ with vars := d₁.vars.bind y t.last u } →
        (do (t.last :: t.passed).forM fun c => modifyVars (·.bind y c u)
            return u).Yields d₁ (Woven fair filling late x X y b d') := by
      intro u d₁ hu
      have hall := hu.bindAll h hstrand (hmem b List.mem_cons_self)
      exact hall
    cases hsource : t.source with
    | bound u =>
      rw [hsource] at hends
      have hhere : y = x → d'.vars.value? x t.last = some u := by
        rintro rfl
        exact hends
      have hlasting : fair → d'.func.Lasting u :=
        fun hfair => (h.formed.lasting hfair).2 _ _ _ hends
      exact hrest u d' ((h.refl hlasting hhere).rebind hhere)
    | unsealed =>
      rw [hsource] at hends
      obtain ⟨hnone, hopen⟩ := hends
      have hnot : ¬ d'.Closed late t.last := by
        rintro (hsealed | hl)
        · rw [hopen] at hsealed
          cases hsealed
        · have hbound := h.lateBound _ hl
          rw [hnone] at hbound
          cases hbound
      exact (h.newPlaceholder hlast hnone hnot).bind hrest
    | nothing =>
      rw [hsource] at hends
      obtain ⟨hnone, hsealed, hpreds⟩ := hends
      refine hrest .undef d' (.of_bind h ?_ h.web (.refl x d') hnone hsealed ?_)
      · exact ⟨h.formed, h.settled, .refl filling d', fun _ => lasting_undef _⟩
      · intro _ p hp
        rw [hpreds] at hp
        cases hp
    | join preds =>
      rw [hsource] at hends
      obtain ⟨hnone, hsealed, rfl, -⟩ := hends
      have hjoin := h.join (fun filling p d hd hp => ih filling p d hd hp) hlast hnone hsealed
        (hmany _ hsource)
      have hbound := hjoin.bind fun u d₁ hu => hrest u d₁ (hu.rebind hu.here)
      simp only [bind_assoc] at hbound
      exact hbound

/-- A read keeps the web. -/
lemma Weaving.read (h : Weaving fair filling late x X y d) (hb : d.func.hasBlock b = true) :
    (Draft.read y b).Yields d (Woven fair filling late x X y b d) := by
  unfold Draft.read
  apply Work.Yields.get_bind
  exact Weaving.readWithin d.readDepth filling b d h hb

/-! ## The phis that were made for a variable -/

/-- The phis that were made for `x` from `d` to `d'`, while `y` was read. -/
def madeBetween (x y : Variable) (d d' : Draft) : List InstId :=
  if y = x then d.func.newIds d'.func else []

lemma mem_madeBetween {i : InstId} : i ∈ madeBetween x y d d' ↔
    y = x ∧ d.func.instCapacity ≤ i.index ∧ i.index < d'.func.instCapacity := by
  unfold madeBetween
  split
  · rename_i hy
    rw [mem_newIds]
    exact (and_iff_right hy).symm
  · rename_i hy
    exact ⟨fun hi => absurd hi List.not_mem_nil, fun hi => absurd hi.1 hy⟩

/-- While `y` is read, the phis of `x` are those that were made before, and the new ones if `y` is
`x`. -/
def Counts (made : List InstId) (x y : Variable) (d : Draft) (i : InstId) : Prop :=
  i ∈ made ∨ (y = x ∧ d.func.instCapacity ≤ i.index)

/-- Before `y` is read, what it will make counts as made for `x` if `y` is `x`. -/
lemma Weaving.start {made : List InstId} (hform : d.Formed fair filling late) (hs : d.Settled [])
    (hlate : LateBound y late d) (hweb : d.Web x (· ∈ made) late)
    (hbelow : ∀ i ∈ made, i.index < d.func.instCapacity)
    (hstarted : y = x → (d.vars.value? x d.func.entry).isSome = true) :
    Weaving fair filling late x (Counts made x y d) y d := by
  refine ⟨hform, hs, hlate, hweb.congr hform ?_, ?_, hstarted⟩
  · intro i hi
    exact or_iff_left fun he => absurd he.2 (Nat.not_le.2 hi)
  · intro i hi
    unfold Counts
    rw [and_iff_left hi]
    exact or_iff_right fun hmem => absurd (hbelow i hmem) (Nat.not_lt.2 hi)

/-- When it was read, that is what was made. -/
lemma Woven.made_eq {made : List InstId}
    (h : Woven fair filling late x (Counts made x y d) y b d v d')
    (hbelow : ∀ i ∈ made, i.index < d.func.instCapacity) :
    d'.Web x (· ∈ made ++ madeBetween x y d d') late ∧
      ∀ i ∈ made ++ madeBetween x y d d', i.index < d'.func.instCapacity := by
  constructor
  · refine h.web.congr h.formed ?_
    intro i hi
    unfold Counts
    rw [List.mem_append, mem_madeBetween, and_iff_left hi]
  · intro i hi
    rcases List.mem_append.1 hi with hi | hi
    · exact Nat.lt_of_lt_of_le (hbelow i hi) h.turns.capacity
    · exact (mem_madeBetween.1 hi).2.2

/-- A draft between two calls, in which the phis `made` are those of `x`. The variable was not
assigned yet, or it is bound in the entry. -/
structure Spun (fair : Prop) (x : Variable) (made : List InstId) (d : Draft) : Prop where
  formed : d.Formed fair [] none
  settled : d.Settled []
  web : d.Web x (· ∈ made) none
  below : ∀ i ∈ made, i.index < d.func.instCapacity
  begun : (d.vars.value? x d.func.entry).isSome = true ∨ ∀ c, d.vars.value? x c = none

/-- A block that binds the variable goes on to. -/
lemma Turns.bound (h : Turns x d d') (c : BlockId)
    (hbound : (d.vars.value? x c).isSome = true) : (d'.vars.value? x c).isSome = true := by
  obtain ⟨σ, hσ⟩ := h.evolves
  obtain ⟨v, hv⟩ := Option.isSome_iff_exists.1 hbound
  exact Option.isSome_iff_exists.2 ⟨σ v, hσ.values c v hv⟩

lemma Turns.begun (h : Turns x d d')
    (hbegun : (d.vars.value? x d.func.entry).isSome = true ∨ ∀ c, d.vars.value? x c = none) :
    (d'.vars.value? x d'.func.entry).isSome = true ∨ ∀ c, d'.vars.value? x c = none :=
  hbegun.imp (h.bound _) h.unbound

/-- A read adds what it makes for `x`. -/
lemma Spun.read {made : List InstId} (h : Spun fair x made d) (hb : d.func.hasBlock b = true)
    (hy : y = x → (d.vars.value? x d.func.entry).isSome = true) :
    (Draft.read y b).Yields d fun v d' => Spun fair x (made ++ madeBetween x y d d') d' ∧
      Turns x d d' ∧ (∀ c, d'.func.hasBlock c = d.func.hasBlock c) ∧
      (y = x → d'.vars.value? x b = some v) := by
  have hstart := Weaving.start h.formed h.settled (by rintro c ⟨⟩) h.web h.below hy
  refine (hstart.read hb).mono ?_
  intro v d' hd'
  obtain ⟨hweb, hbelow⟩ := hd'.made_eq h.below
  exact ⟨⟨hd'.formed, hd'.settled, hweb, hbelow, hd'.turns.begun h.begun⟩, hd'.turns,
    hd'.kept.hasBlock, hd'.here⟩

/-! ## Sealing -/

/-- Fills a placeholder that waited in a block. -/
def fillWaiting (b : BlockId) (e : Variable × InstId) : Work Draft PUnit := do
  let _ ← fillPhi (Draft.read e.1) e.2 ((← get).func.preds b)

/-- The phis that are made for `x` when a block is sealed. -/
def sealMade (x : Variable) (b : BlockId) (d : Draft) : List InstId :=
  if d.vars.isSealed b then []
  else Work.gather (fillWaiting b) (fun e d => madeBetween x e.1 d ((fillWaiting b e).state d))
    (d.vars.pendingAt b) { d with vars := d.vars.dropPending b }

/-- Some placeholders of a block are filled, `rest` are to come, and the web is kept. -/
structure Spinning (fair : Prop) (x : Variable) (b : BlockId) (d : Draft) (made : List InstId)
    (rest : List (Variable × InstId)) (d' : Draft) : Prop extends Sealing fair b d rest d' where
  web : d'.Web x (· ∈ made) (some b)
  below : ∀ i ∈ made, i.index < d'.func.instCapacity
  turns : Turns x d d'
  owned : ∀ e ∈ rest, (e.2 ∈ made ↔ e.1 = x) ∧ e.2.index < d'.func.instCapacity
  started : ∀ e ∈ rest, e.1 = x → (d'.vars.value? x d'.func.entry).isSome = true

namespace Spinning

variable {made : List InstId} {e : Variable × InstId} {rest : List (Variable × InstId)}

lemma start (h : Spun fair x made d) (b : BlockId) : Spinning fair x b d made (d.vars.pendingAt b)
    { d with vars := d.vars.dropPending b } := by
  refine ⟨.start h.formed h.settled b, h.web.dropPending b, h.below, .of_vars rfl rfl fun _ => rfl,
    ?_, ?_⟩
  · intro e he
    obtain ⟨node, hnode, -⟩ := (h.formed.pending b e he).2.1
    exact ⟨h.web.pending b e he, lt_instCapacity hnode⟩
  · rintro e he rfl
    refine h.begun.resolve_right fun hnone => ?_
    have hbound := (h.formed.pending b e he).2.2.1
    rw [hnone] at hbound
    cases hbound

/-- One placeholder more is filled. -/
lemma fill (h : Spinning fair x b d made (e :: rest) d₁) :
    (fillWaiting b e).Yields d₁ fun _ => Spinning fair x b d
      (made ++ madeBetween x e.1 d₁ ((fillWaiting b e).state d₁)) rest := by
  obtain ⟨hnot, -⟩ := List.nodup_cons.1 h.once
  obtain ⟨hm, hlate⟩ := h.waiting e List.mem_cons_self
  obtain ⟨howned, hlt⟩ := h.owned e List.mem_cons_self
  have hstart := Weaving.start h.formed h.settled hlate h.web h.below
    (h.started e List.mem_cons_self)
  have hX : Counts made x e.1 d₁ e.2 ↔ e.1 = x := by
    unfold Counts
    rw [howned]
    exact or_iff_left fun he => absurd he.2 (Nat.not_le.2 hlt)
  have hread : Weaver fair (some b) x (Counts made x e.1 d₁) e.1 (Draft.read e.1) :=
    fun _ _ _ hd hp => hd.read hp
  have hfill := Web.fillPhi hread (by rw [h.guard_eq]; exact hstart) hnot hm hX
  have hrun : (fillWaiting b e).Yields d₁ fun _ d' => (∃ v, Woven fair (rest.map (·.2)) (some b) x
      (Counts made x e.1 d₁) e.1 b d₁ v d') ∧ Sealing fair b d rest d' := by
    apply Work.Yields.get_bind
    refine (hfill.and h.placeholder).bind ?_
    rintro v d₂ ⟨hw, hs⟩
    exact Work.Yields.of_pure ⟨⟨v, hw⟩, hs⟩
  refine hrun.with_run.mono ?_
  rintro _ d₂ ⟨⟨⟨v, hw⟩, hs⟩, hends⟩
  rw [Work.state_of_ok hends]
  obtain ⟨hweb, hbelow⟩ := hw.made_eq h.below
  refine ⟨hs, hweb, hbelow, h.turns.trans hw.turns, ?_, ?_⟩
  · -- the placeholders that are left were made before
    intro e' he'
    obtain ⟨howned', hlt'⟩ := h.owned e' (List.mem_cons_of_mem _ he')
    refine ⟨?_, Nat.lt_of_lt_of_le hlt' hw.turns.capacity⟩
    rw [List.mem_append, mem_madeBetween, howned']
    exact or_iff_left fun he => absurd he.2.1 (Nat.not_le.2 hlt')
  · exact fun e' he' hx => hw.kept.bound x _ (h.started e' (List.mem_cons_of_mem _ he') hx)

end Spinning

/-- Sealing a block adds what it makes for `x`. -/
lemma Spun.sealBlock {made : List InstId} (h : Spun fair x made d) (b : BlockId) :
    (Draft.sealBlock b).Yields d fun _ d' => Spun fair x (made ++ d.sealMade x b) d' ∧
      Turns x d d' ∧ (∀ c, d'.func.hasBlock c = d.func.hasBlock c) := by
  unfold Draft.sealBlock sealMade
  apply Work.Yields.get_bind
  by_cases hsealed : d.vars.isSealed b = true
  · rw [if_pos hsealed, if_pos hsealed, List.append_nil]
    exact ⟨h, .refl x d, fun _ => rfl⟩
  · rw [if_neg hsealed, if_neg hsealed]
    apply Work.Yields.modify_bind
    apply (Work.Yields.forM_gather (f := fillWaiting b) (Spinning fair x b d) ?_ _ made
      (.start h b)).bind
    · intro _ d₁ h₁
      apply Work.Yields.modify_bind
      apply Work.Yields.get_bind
      obtain ⟨h₂, hs₂⟩ := h₁.marked
      have hweb₂ := h₁.web.markSealed h₁.formed h₁.settled
      have hmark : Turns x d₁ { d₁ with vars := d₁.vars.markSealed b } :=
        .of_vars rfl rfl fun _ => Bindings.value?_markSealed
      apply ((foldPhis_yields (hs₂ _)).and (foldPhis_tells _ _)).bind
      rintro rs d₃ ⟨⟨hfolds, hs₃⟩, hjournal⟩
      apply Work.Yields.of_pure
      have hturns : Turns x d d₃ :=
        (h₁.turns.trans hmark).trans (.folds hfolds h₂.toGrounded hjournal)
      have hkept := hfolds.kept h₂
      refine ⟨⟨hfolds.formed h₂, hs₃, hweb₂.folds hfolds h₂, ?_, hturns.begun h.begun⟩, hturns, ?_⟩
      · intro i hi
        rw [hfolds.func.capacity_eq]
        exact h₁.below i hi
      · exact fun c => (hkept.hasBlock c).trans (h₁.kept.hasBlock c)
    · exact fun got e rest d₁ h₁ => h₁.fill

end Draft

end SsaBackend
