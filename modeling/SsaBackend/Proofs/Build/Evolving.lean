import SsaBackend.Proofs.Build.Extending
import SsaBackend.Proofs.Build.Forming
import SsaBackend.Proofs.Func.Resolved

/-!
# What becomes of values

While a function is built, phis are folded, and the values that named them are followed to others.
`Draft.Evolves` says how: code, ways out and bindings of a variable are what they were, with
one map applied to all operands and values, and the journal tells of every step of that map
(`Draft.Became`). A value that named an instruction gone by then is left as it is. There is a lemma
for each of the steps that work on a draft is made of, and they compose (`Draft.Evolves.trans`).
-/

namespace SsaBackend

open Relation

namespace Func

/-- Block `b` runs the instruction `i`, which is no phi and does what `inst` says. -/
def Runs (f : Func) (b : BlockId) (i : InstId) (inst : Inst) : Prop :=
  f.inst? i = some ⟨inst, b⟩ ∧ inst.isPhi = false ∧ ∃ bb, f.block? b = some bb ∧ i ∈ bb.body

/-- A block keeps its code and its way out when an instruction is appended somewhere. -/
lemma Appended.exists_block {f g : Func} {b c : BlockId} {new : Inst} {cc : Block}
    (h : Appended f g b new) (hc : f.block? c = some cc) : ∃ cc', g.block? c = some cc' ∧
      (∀ i ∈ cc.body, i ∈ cc'.body) ∧ cc'.terminator = cc.terminator := by
  have hblock := h.block c
  rw [hc] at hblock
  split at hblock
  · refine ⟨_, hblock, ?_, ?_⟩
    · intro i hi
      unfold Block.append
      split
      · exact hi
      · exact List.mem_append_left _ hi
    · unfold Block.append
      split <;> rfl
  · exact ⟨cc, hblock, fun _ hi => hi, rfl⟩

/-- The new instruction runs in its block. -/
lemma Appended.runs_new {f g : Func} {b : BlockId} {new : Inst} {bb : Block}
    (h : Appended f g b new) (hphi : new.isPhi = false) (hb : f.block? b = some bb) :
    g.Runs b f.nextInst new := by
  refine ⟨by rw [h.inst, if_pos rfl], hphi, bb.append f.nextInst false, ?_, ?_⟩
  · rw [h.block, if_pos rfl, hb, hphi]
    rfl
  · exact List.mem_append_right _ (List.mem_singleton_self _)

end Func

namespace Draft

open Func

/-- The journal tells that `v` was a phi and another value took its place, and so on to `u`. -/
def Became (J : Journal) : Value → Value → Prop :=
  ReflTransGen fun v u => ∃ name i, v = .inst i ∧ Event.inFunction name (.phiReplaced i u) ∈ J

/-- What the draft `d` has become `d'`, where the variable `x` had a value in `d` it has the same
in `d'`, and everywhere values were followed by `σ`. -/
structure Evolves (x : Variable) (σ : Value → Value) (d d' : Draft) : Prop where
  code : ∀ b i inst, d.func.Runs b i inst → d'.func.Runs b i (inst.mapOperands σ)
  ends : ∀ b t, d.func.terminator? b = some t → d'.func.terminator? b = some (t.mapOperands σ)
  there : ∀ b, d.func.hasBlock b = true → d'.func.hasBlock b = true
  capacity : d.func.instCapacity ≤ d'.func.instCapacity
  /-- What names an instruction that is gone is not followed. -/
  gone : ∀ i, d.func.Gone i → d'.func.Gone i ∧ σ (.inst i) = .inst i
  /-- What is followed elsewhere names an instruction that is gone now. -/
  moved : ∀ v, σ v = v ∨ ∃ i, v = .inst i ∧ d'.func.Gone i
  told : ∀ v, Became d'.journal v (σ v)
  journal : ∀ e ∈ d.journal, e ∈ d'.journal
  values : ∀ b v, d.vars.value? x b = some v → d'.vars.value? x b = some (σ v)

variable {fair : Prop} {filling : List InstId} {late : Option BlockId} {d d' d'' : Draft}
  {x : Variable} {b p : BlockId} {v u : Value} {phi : InstId} {σ σ' : Value → Value}

lemma Became.mono {J J' : Journal} (h : Became J v u) (hJ : ∀ e ∈ J, e ∈ J') : Became J' v u := by
  refine ReflTransGen.mono ?_ _ _ h
  rintro v u ⟨name, i, hv, he⟩
  exact ⟨name, i, hv, hJ _ he⟩

namespace Evolves

lemma trans (h : Evolves x σ d d') (h' : Evolves x σ' d' d'') :
    Evolves x (fun v => σ' (σ v)) d d'' where
  code b i inst hi := by
    rw [← Inst.mapOperands_mapOperands]
    exact h'.code b i _ (h.code b i inst hi)
  ends b t ht := by
    rw [← Terminator.mapOperands_mapOperands]
    exact h'.ends b _ (h.ends b t ht)
  there b hb := h'.there b (h.there b hb)
  capacity := Nat.le_trans h.capacity h'.capacity
  gone i hi := by
    obtain ⟨hgone, hfix⟩ := h.gone i hi
    obtain ⟨hgone', hfix'⟩ := h'.gone i hgone
    exact ⟨hgone', by rw [hfix, hfix']⟩
  moved v := by
    rcases h.moved v with hv | ⟨i, rfl, hi⟩
    · rw [hv]
      exact h'.moved v
    · exact .inr ⟨i, rfl, (h'.gone i hi).1⟩
  told v := ((h.told v).mono h'.journal).trans (h'.told (σ v))
  journal e he := h'.journal e (h.journal e he)
  values b v hv := h'.values b _ (h.values b v hv)

/-! ## Steps that follow no value -/

/-- A step that only adds. -/
lemma of_added (hcode : ∀ b i inst, d.func.Runs b i inst → d'.func.Runs b i inst)
    (hends : ∀ b t, d.func.terminator? b = some t → d'.func.terminator? b = some t)
    (hthere : ∀ b, d.func.hasBlock b = true → d'.func.hasBlock b = true)
    (hcap : d.func.instCapacity ≤ d'.func.instCapacity)
    (hgone : ∀ i, d.func.Gone i → d'.func.Gone i) (hjournal : ∀ e ∈ d.journal, e ∈ d'.journal)
    (hvalues : ∀ b v, d.vars.value? x b = some v → d'.vars.value? x b = some v) :
    Evolves x id d d' where
  code b i inst hi := by
    rw [Inst.mapOperands_id]
    exact hcode b i inst hi
  ends b t ht := by
    rw [Terminator.mapOperands_id]
    exact hends b t ht
  there := hthere
  capacity := hcap
  gone i hi := ⟨hgone i hi, rfl⟩
  moved _ := .inl rfl
  told _ := .refl
  journal := hjournal
  values := hvalues

/-- A step that leaves the function alone. -/
lemma of_vars (hfunc : d'.func = d.func) (hjournal : ∀ e ∈ d.journal, e ∈ d'.journal)
    (hvalues : ∀ b v, d.vars.value? x b = some v → d'.vars.value? x b = some v) :
    Evolves x id d d' := by
  refine of_added ?_ ?_ ?_ ?_ ?_ hjournal hvalues
  · exact fun _ _ _ hi => hfunc ▸ hi
  · exact fun _ _ ht => hfunc ▸ ht
  · exact fun _ hb => hfunc ▸ hb
  · exact Nat.le_of_eq (by rw [hfunc])
  · exact fun _ hi => hfunc ▸ hi

lemma refl (x : Variable) (d : Draft) : Evolves x id d d :=
  of_vars rfl (fun _ he => he) fun _ _ hv => hv

lemma appended {new : Inst} (ha : Appended d.func d'.func b new) (hjournal : d'.journal = d.journal)
    (hvalues : ∀ b v, d.vars.value? x b = some v → d'.vars.value? x b = some v) :
    Evolves x id d d' := by
  refine of_added ?_ ?_ ?_ ?_ ?_ (hjournal ▸ fun _ he => he) hvalues
  · rintro c i inst ⟨hi, hphi, cc, hc, hmem⟩
    obtain ⟨cc', hc', hbody, -⟩ := ha.exists_block hc
    exact ⟨ha.inst_old hi, hphi, cc', hc', hbody i hmem⟩
  · intro c t ht
    obtain ⟨cc, hc, hend⟩ := terminator?_eq_some.1 ht
    obtain ⟨cc', hc', -, hterm⟩ := ha.exists_block hc
    exact terminator?_eq_some.2 ⟨cc', hc', hterm.trans hend⟩
  · intro c hc
    exact (ha.hasBlock_eq c).trans hc
  · rw [ha.capacity]
    exact Nat.le_succ _
  · exact fun i hi => (ha.gone_iff i).2 hi

lemma addBlock (x : Variable) (d : Draft) :
    Evolves x id d { d with func := d.func.addBlock } := by
  refine of_added ?_ ?_ ?_ (Nat.le_refl _) (fun _ hi => hi) (fun _ he => he) fun _ _ hv => hv
  · rintro c i inst ⟨hi, hphi, cc, hc, hmem⟩
    exact ⟨hi, hphi, cc, block_addBlock hc, hmem⟩
  · intro c t ht
    obtain ⟨cc, hc, hend⟩ := terminator?_eq_some.1 ht
    exact terminator?_eq_some.2 ⟨cc, block_addBlock hc, hend⟩
  · exact fun c hc => hasBlock_addBlock hc

lemma terminated {f : Func} {t : Terminator} (ht : Terminated d.func f b t) (x : Variable) :
    Evolves x id d { d with func := f } := by
  have hsame : ∀ i, f.inst? i = d.func.inst? i := ht.inst?
  have hcap : f.instCapacity = d.func.instCapacity := ht.capacity
  refine of_added ?_ ?_ ?_ (Nat.le_of_eq hcap.symm) ?_ (fun _ he => he) fun _ _ hv => hv
  · rintro c i inst ⟨hi, hphi, cc, hc, hmem⟩
    exact ⟨(hsame i).trans hi, hphi, _, (ht.block c).trans (congrArg _ hc), hmem⟩
  · intro c t' ht'
    obtain ⟨cc, hc, hend⟩ := terminator?_eq_some.1 ht'
    refine terminator?_eq_some.2 ⟨_, (ht.block c).trans (congrArg _ hc), ?_⟩
    -- the block that was completed had no terminator
    have hne : c ≠ b := by
      rintro rfl
      obtain ⟨old, hold, hnone⟩ := ht.was
      rw [hold] at hc
      cases hc
      rw [hnone] at hend
      cases hend
    show (if c = b then some t else cc.terminator) = some t'
    rw [if_neg hne]
    exact hend
  · intro c hc
    exact (ht.hasBlock_eq c).trans hc
  · rintro i ⟨hlt, hnone⟩
    exact ⟨hcap ▸ hlt, (hsame i).trans hnone⟩

/-- An operand more for a phi. -/
lemma widened (hw : Widened phi b p v d d') (hjournal : d'.journal = d.journal) (x : Variable) :
    Evolves x id d d' := by
  obtain ⟨node, hnode, hinst⟩ := hw.inst
  refine of_added ?_ ?_ ?_ (Nat.le_of_eq hw.capacity.symm) ?_ (hjournal ▸ fun _ he => he) ?_
  · rintro c i inst ⟨hi, hphi, cc, hc, hmem⟩
    refine ⟨?_, hphi, cc, (hw.block c).trans hc, hmem⟩
    rw [hinst, if_neg, hi]
    rintro rfl
    rw [hnode] at hi
    cases hi
    cases hphi
  · intro c t ht
    unfold terminator? at *
    rw [hw.block]
    exact ht
  · intro c hc
    exact (hw.hasBlock c).trans hc
  · exact fun i hi => (hw.gone_iff i).2 hi
  · intro c u hu
    rw [hw.vars]
    exact hu

end Evolves

/-! ## Folding -/

/-- Folding is told of in the journal. -/
lemma foldPhis_tells (left : List InstId) (d : Draft) :
    (Draft.foldPhis left).Yields d fun rs d' =>
      d'.journal = d.journal ++ rs.map (Replacement.event d'.func.name) := by
  unfold Draft.foldPhis
  apply Work.Yields.get_bind
  generalize d.func.foldTrivialPhis left (!d.vars.guarded.contains ·) = folded
  rfl

/-- Folding follows values to their ends. -/
lemma Folds.evolves {rs : List Replacement} (hf : Folds rs d d') (hg : d.Grounded fair)
    (hjournal : d'.journal = d.journal ++ rs.map (Replacement.event d'.func.name))
    (x : Variable) : Evolves x (Replacement.resolve rs) d d' := by
  have hphis := hf.func.resolve_value hg.placed
  refine ⟨?_, ?_, ?_, Nat.le_of_eq hf.func.capacity_eq.symm, ?_, ?_, ?_, ?_, ?_⟩
  · rintro c i inst ⟨hi, hphi, cc, hc, hmem⟩
    -- only phis are folded, so this instruction stays, with its operands resolved
    have hnot : ∀ r ∈ rs, r.phi ≠ i := by
      rintro r hr rfl
      obtain ⟨node, hnode, -⟩ := hphis r hr
      obtain ⟨c', hnode⟩ := phi?_some hnode
      rw [hi] at hnode
      cases hnode
      cases hphi
    exact ⟨hf.func.inst_eq hg.placed hi hnot, (Inst.isPhi_mapOperands ..).trans hphi,
      hf.func.mem_body hg.placed hc hmem hnot⟩
  · intro c t ht
    rw [hf.func.terminator?_eq hg.placed, ht]
    rfl
  · intro c hc
    exact (hf.func.hasBlock_eq hg.placed c).trans hc
  · intro i hi
    refine ⟨(hf.func.gone_iff i).2 (.inl hi), Replacement.resolve_eq_self ?_⟩
    rintro r hr ⟨⟩
    obtain ⟨node, hnode, -⟩ := hphis r hr
    obtain ⟨c, hnode⟩ := phi?_some hnode
    rw [hi.2] at hnode
    cases hnode
  · intro v
    -- what is not replaced stays itself; what is replaced is gone
    by_cases hv : ∃ r ∈ rs, v = .inst r.phi
    · obtain ⟨r, hr, rfl⟩ := hv
      exact .inr ⟨r.phi, rfl, (hf.func.gone_iff _).2 (.inr ⟨r, hr, rfl⟩)⟩
    · exact .inl (Replacement.resolve_eq_self fun r hr he => hv ⟨r, hr, he⟩)
  · intro v
    refine ReflTransGen.mono ?_ _ _ (Replacement.leads_resolve rs v)
    intro v u hlead
    obtain ⟨r, hr, rfl, rfl⟩ := Replacement.exists_of_next? hlead
    refine ⟨d'.func.name, r.phi, rfl, ?_⟩
    rw [hjournal, ← Array.mem_toList_iff, Array.toList_appendList]
    exact List.mem_append_right _ (List.mem_map_of_mem hr)
  · intro e he
    rw [hjournal, ← Array.mem_toList_iff, Array.toList_appendList]
    exact List.mem_append_left _ (Array.mem_toList_iff.2 he)
  · intro c v hv
    rw [hf.value?, hv]
    rfl

end Draft

end SsaBackend
