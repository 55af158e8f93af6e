import SsaBackend.Proofs.Func.NoTrivialPhis

/-!
# What is left when phis are folded

Folding takes one trivial phi after another out of a function (`Func.Folded`). The other phis
keep their blocks and the blocks that their operands come from, and the graph stays.

An instruction that is gone must not be named any more. In the function that is seen to at every
replacement. Elsewhere it is done by following the replacements to their end
(`Replacement.resolve`), and that gets there: what a replacement puts in names no phi replaced
before, so chains go forward (`Replacement.Chained`), and where they end is a value that lasts
(`Func.Folded.lasting_resolve`).
-/

namespace SsaBackend

/-! ## Following replacements -/

namespace Replacement

/-- No phi is replaced twice, and none by itself or by one that was replaced before. -/
structure Chained (rs : List Replacement) : Prop where
  forward : rs.Pairwise fun r r' => r'.phi ≠ r.phi ∧ r'.same ≠ .inst r.phi
  apart : ∀ r ∈ rs, r.same ≠ .inst r.phi

lemma Chained.nil : Chained [] := ⟨.nil, by simp⟩

lemma Chained.tail {r : Replacement} {rs : List Replacement} (h : Chained (r :: rs)) :
    Chained rs :=
  ⟨(List.pairwise_cons.1 h.forward).2, fun r' hr' => h.apart r' (List.mem_cons_of_mem _ hr')⟩

lemma Chained.concat {r : Replacement} {rs : List Replacement} (h : Chained rs)
    (hnew : ∀ r' ∈ rs, r.phi ≠ r'.phi ∧ r.same ≠ .inst r'.phi) (hself : r.same ≠ .inst r.phi) :
    Chained (rs ++ [r]) := by
  refine ⟨List.pairwise_append.2 ⟨h.forward, List.pairwise_singleton _ _, ?_⟩, ?_⟩
  · intro r' hr' x hx
    rw [List.mem_singleton.1 hx]
    exact hnew r' hr'
  · intro x hx
    rcases List.mem_append.1 hx with hx | hx
    · exact h.apart x hx
    · rw [List.mem_singleton.1 hx]
      exact hself

/-- How much of the list lies ahead of a value. -/
def ahead (v : Value) : List Replacement → Nat
  | [] => 0
  | r :: rest => if v = .inst r.phi then rest.length + 1 else ahead v rest

lemma ahead_le (v : Value) (rs : List Replacement) : ahead v rs ≤ rs.length := by
  induction rs with
  | nil => exact Nat.le_refl _
  | cons r rest ih =>
    rw [ahead, List.length_cons]
    split <;> omega

lemma next?_cons {r : Replacement} {rs : List Replacement} {v : Value} :
    next? (r :: rs) v = if v = .inst r.phi then some r.same else next? rs v := by
  cases v with
  | inst i =>
    show find? (r :: rs) i = if Value.inst i = .inst r.phi then some r.same else find? rs i
    unfold find?
    by_cases hi : r.phi = i
    · simp [hi]
    · have hne : Value.inst i ≠ .inst r.phi := fun he => hi (Value.inst.inj he).symm
      simp [hi, hne]
  | _ => simp [next?, Value.inst?]

/-- A value that is followed was put in by one of the replacements. -/
lemma exists_of_next? {rs : List Replacement} {v u : Value} (h : next? rs v = some u) :
    ∃ r ∈ rs, v = .inst r.phi ∧ u = r.same := by
  induction rs with
  | nil =>
    cases v <;> cases h
  | cons r rest ih =>
    rw [next?_cons] at h
    split at h
    · rename_i hv
      exact ⟨r, List.mem_cons_self, hv, (Option.some.inj h).symm⟩
    · obtain ⟨r', hr', heq⟩ := ih h
      exact ⟨r', List.mem_cons_of_mem _ hr', heq⟩

/-- Following a replacement leaves less ahead. -/
lemma Chained.ahead_lt {rs : List Replacement} (h : Chained rs) {v u : Value}
    (hnext : next? rs v = some u) : ahead u rs < ahead v rs := by
  induction rs with
  | nil => cases v <;> cases hnext
  | cons r rest ih =>
    rw [next?_cons] at hnext
    rw [ahead, ahead]
    split at hnext
    · rename_i hv
      cases hnext
      have := ahead_le r.same rest
      rw [if_pos hv, if_neg (h.apart r List.mem_cons_self)]
      omega
    · rename_i hv
      obtain ⟨r', hr', -, rfl⟩ := exists_of_next? hnext
      rw [if_neg hv, if_neg ((List.pairwise_cons.1 h.forward).1 r' hr').2]
      exact ih h.tail hnext

/-- Nothing leads on from where the replacements lead. -/
lemma Chained.next?_resolve {rs : List Replacement} (h : Chained rs) (v : Value) :
    next? rs (resolve rs v) = none :=
  repeatUpTo_done (fun _ => True) (ahead · rs) (fun _ _ _ _ => trivial)
    (fun _ _ _ hnext => h.ahead_lt hnext) _ _ trivial (ahead_le v rs)

/-- Where the replacements lead was not replaced. -/
lemma Chained.resolve_ne {rs : List Replacement} (h : Chained rs) (v : Value) :
    ∀ r ∈ rs, resolve rs v ≠ .inst r.phi := by
  have hend := h.next?_resolve v
  generalize resolve rs v = u at hend
  intro r hr he
  induction rs with
  | nil => cases hr
  | cons r₀ rest ih =>
    rw [next?_cons] at hend
    split at hend
    · cases hend
    · rename_i hne
      rcases List.mem_cons.1 hr with rfl | hr
      · exact hne he
      · exact ih h.tail hend hr

end Replacement

namespace Func

/-! ## Values that last -/

/-- The instruction was there, and has been removed. -/
def Gone (f : Func) (i : InstId) : Prop := i.index < f.instCapacity ∧ f.inst? i = none

/-- The value does not name an instruction that is gone. -/
def Lasting (f : Func) (v : Value) : Prop := ∀ i, v = .inst i → ¬ f.Gone i

/-- No operand names an instruction that is gone. -/
structure OperandsLast (f : Func) : Prop where
  insts : ∀ i p, f.inst? i = some p → ∀ v ∈ p.inst.operands, f.Lasting v
  ends : ∀ b bb, f.block? b = some bb → ∀ t, bb.terminator = some t → ∀ v ∈ t.operands,
    f.Lasting v

lemma Lasting.of_gone {f g : Func} (h : ∀ i, g.Gone i → f.Gone i) {v : Value} (hv : f.Lasting v) :
    g.Lasting v :=
  fun i hi hgone => hv i hi (h i hgone)

lemma lasting_of_inst {f : Func} {i : InstId} {p : PlacedInst} (hi : f.inst? i = some p) :
    f.Lasting (.inst i) := by
  rintro j ⟨⟩ ⟨-, hnone⟩
  rw [hi] at hnone
  cases hnone

lemma lasting_undef (f : Func) : f.Lasting .undef := by
  intro i hi
  cases hi

/-! ## One replacement -/

/-- The phi `i` of block `b` has operands from the blocks `l`, in this order. -/
def Merges (f : Func) (i : InstId) (b : BlockId) (l : List BlockId) : Prop :=
  ∃ node, f.inst? i = some ⟨.phi node, b⟩ ∧ node.blocks = l

/-- What a block lists is there, and knows the block. -/
def ListsPlaced (f : Func) : Prop := ∀ b i, f.Lists b i → ∃ p, f.inst? i = some p ∧ p.block = b

section Replacing

variable {f : Func} {i : InstId} {node : Phi} {same : Value}

lemma ListsPlaced.replaced (h : f.ListsPlaced) (i : InstId) (v : Value) :
    Replaced f ((f.replaceUses i v).removeInst i) i v :=
  replaced_of_lists (fun b hl => h b i hl) v

lemma Replaced.listsPlaced {g : Func} {v : Value} (hr : Replaced f g i v) (h : f.ListsPlaced) :
    g.ListsPlaced := by
  rintro b j ⟨bb', hb', hj⟩
  obtain ⟨bb, hb, hphis, hbody, -, -⟩ := hr.block_inv hb'
  have hlisted : j ∈ bb.insts ∧ j ≠ i := by
    unfold Block.insts at hj ⊢
    rw [hphis, hbody, ← List.filter_append, List.mem_filter] at hj
    exact ⟨hj.1, by simpa using hj.2⟩
  obtain ⟨p, hp, hpb⟩ := h b j ⟨bb, hb, hlisted.1⟩
  exact ⟨_, hr.inst_eq hp hlisted.2, hpb⟩

/-- The instruction that is replaced is gone afterwards, and no other. -/
lemma gone_replaced (hi : f.phi? i = some node) (v : Value) (j : InstId) :
    ((f.replaceUses i v).removeInst i).Gone j ↔ f.Gone j ∨ j = i := by
  obtain ⟨b, hinst⟩ := phi?_some hi
  unfold Gone
  rw [instCapacity_replaced, inst?_replaced]
  by_cases hj : j = i
  · subst hj
    simp [lt_instCapacity hinst]
  · simp [hj]

/-- The value of a trivial phi is one of its operands, if it names an instruction. -/
lemma mem_operands_of_trivial (hi : f.phi? i = some node) (ht : node.trivial? i = some same)
    {k : InstId} (hk : same = .inst k) :
    ∃ p, f.inst? i = some p ∧ Value.inst k ∈ p.inst.operands := by
  obtain ⟨b, hinst⟩ := phi?_some hi
  refine ⟨_, hinst, ?_⟩
  rcases (Phi.trivial?_some ht).2 with h | h
  · rw [h] at hk
    cases hk
  · exact hk ▸ h

/-- What a trivial phi amounts to lasts beyond the phi. -/
lemma OperandsLast.lasting_same (h : f.OperandsLast) (hi : f.phi? i = some node)
    (ht : node.trivial? i = some same) :
    ((f.replaceUses i same).removeInst i).Lasting same := by
  intro k hk hgone
  rcases (gone_replaced hi same k).1 hgone with hgone | rfl
  · obtain ⟨p, hp, hmem⟩ := mem_operands_of_trivial hi ht hk
    exact h.insts i p hp _ hmem k rfl hgone
  · exact Phi.trivial?_ne ht hk

/-- A replacement makes operands last that lasted. -/
lemma OperandsLast.subst (h : f.OperandsLast) (hi : f.phi? i = some node)
    (ht : node.trivial? i = some same) {v : Value} (hv : f.Lasting v) :
    ((f.replaceUses i same).removeInst i).Lasting (Value.subst (.inst i) same v) := by
  unfold Value.subst
  split
  · exact h.lasting_same hi ht
  · rename_i hne
    intro k hk hgone
    rcases (gone_replaced hi same k).1 hgone with hgone | rfl
    · exact hv k hk hgone
    · exact hne hk

lemma OperandsLast.replaced (h : f.OperandsLast) (hf : f.ListsPlaced) (hi : f.phi? i = some node)
    (ht : node.trivial? i = some same) : ((f.replaceUses i same).removeInst i).OperandsLast := by
  have hr := hf.replaced i same
  refine ⟨?_, ?_⟩
  · intro j q hq v hv
    obtain ⟨-, p, hp, -, hinst⟩ := hr.inst_inv hq
    rw [hinst, Inst.operands_mapOperands] at hv
    obtain ⟨u, hu, rfl⟩ := List.mem_map.1 hv
    exact h.subst hi ht (h.insts j p hp u hu)
  · intro b bb' hb' t' ht' v hv
    obtain ⟨bb, hb, -, -, -, hterm⟩ := hr.block_inv hb'
    rw [hterm] at ht'
    obtain ⟨t, hbt, rfl⟩ := Option.map_eq_some_iff.1 ht'
    rw [Terminator.operands_mapOperands] at hv
    obtain ⟨u, hu, rfl⟩ := List.mem_map.1 hv
    exact h.subst hi ht (h.ends b bb hb t hbt u hu)

end Replacing

/-! ## Several replacements -/

/-- The function `g` is `f` after the replacements `rs` of trivial phis. -/
inductive Folded (f : Func) : Func → List Replacement → Prop
  | refl : Folded f f []
  | step {g : Func} {rs : List Replacement} {i : InstId} {node : Phi} {same : Value}
    (before : Folded f g rs) (phi : g.phi? i = some node) (trivial : node.trivial? i = some same) :
    Folded f ((g.replaceUses i same).removeInst i) (rs ++ [⟨i, same⟩])

/-- Folding replaces trivial phis, of those that may be folded. -/
lemma foldTrivialPhis_folded (f : Func) (candidates : List InstId) (mayFold : InstId → Bool) :
    Folded f (f.foldTrivialPhis candidates mayFold).1 (f.foldTrivialPhis candidates mayFold).2 ∧
      ∀ r ∈ (f.foldTrivialPhis candidates mayFold).2, mayFold r.phi = true := by
  refine repeatUpTo_induct (fun s : PhiFold => Folded f s.func s.replaced ∧
    ∀ r ∈ s.replaced, mayFold r.phi = true) ?_ _ _ ⟨.refl, by simp⟩
  rintro s s' ⟨hs, hmay⟩ hstep
  rcases PhiFold.step_cases hstep with ⟨hfunc, hrs⟩ | ⟨i, same, node, hi, hnode, ht, hfunc, hrs⟩
  · rw [hfunc, hrs]
    exact ⟨hs, hmay⟩
  · rw [hfunc, hrs]
    refine ⟨hs.step hnode ht, ?_⟩
    intro r hr
    rcases List.mem_append.1 hr with hr | hr
    · exact hmay r hr
    · rw [List.mem_singleton.1 hr]
      exact hi

namespace Folded

variable {f g : Func} {rs : List Replacement}

lemma listsPlaced (h : Folded f g rs) (hf : f.ListsPlaced) : g.ListsPlaced := by
  induction h with
  | refl => exact hf
  | step _ _ _ ih => exact (ih.replaced _ _).listsPlaced ih

/-! ### What stays -/

lemma hasBlock_eq (h : Folded f g rs) (hf : f.ListsPlaced) (b : BlockId) :
    g.hasBlock b = f.hasBlock b := by
  induction h with
  | refl => rfl
  | step before _ _ ih => rw [((before.listsPlaced hf).replaced _ _).hasBlock_eq, ih]

lemma preds_eq (h : Folded f g rs) (hf : f.ListsPlaced) (b : BlockId) :
    g.preds b = f.preds b := by
  induction h with
  | refl => rfl
  | step before _ _ ih => rw [((before.listsPlaced hf).replaced _ _).preds_eq, ih]

/-- Blocks keep the phis that are not replaced. -/
lemma mem_phis (h : Folded f g rs) (hf : f.ListsPlaced) {b : BlockId} {bb' : Block}
    (hb' : g.block? b = some bb') : ∃ bb, f.block? b = some bb ∧ bb'.preds = bb.preds ∧
      ∀ i, i ∈ bb'.phis ↔ i ∈ bb.phis ∧ ∀ r ∈ rs, r.phi ≠ i := by
  induction h generalizing bb' with
  | refl => exact ⟨bb', hb', rfl, by simp⟩
  | @step g rs k node same before _ _ ih =>
    obtain ⟨mid, hmid, hphis, -, hpreds, -⟩ := ((before.listsPlaced hf).replaced _ _).block_inv hb'
    obtain ⟨bb, hb, hpreds', hall⟩ := ih hmid
    refine ⟨bb, hb, hpreds.trans hpreds', ?_⟩
    intro i
    rw [hphis, List.mem_filter, hall, and_assoc]
    refine and_congr_right fun _ => ?_
    simp only [List.mem_append, List.mem_singleton, decide_not, Bool.not_eq_true',
      decide_eq_false_iff_not]
    constructor
    · rintro ⟨h1, h2⟩ r (hr | rfl)
      · exact h1 r hr
      · exact Ne.symm h2
    · intro hr
      exact ⟨fun r hmem => hr r (.inl hmem), Ne.symm (hr _ (.inr rfl))⟩

/-- A phi that is not replaced merges what it merged. -/
lemma merges (h : Folded f g rs) (hf : f.ListsPlaced) {i : InstId} {b : BlockId}
    {l : List BlockId} (hi : f.Merges i b l) (hnot : ∀ r ∈ rs, r.phi ≠ i) : g.Merges i b l := by
  induction h with
  | refl => exact hi
  | step before _ _ ih =>
    obtain ⟨node, hnode, hblocks⟩ := ih fun r hr => hnot r (List.mem_append_left _ hr)
    have hne := hnot _ (List.mem_append_right _ (List.mem_singleton_self _))
    exact ⟨_, ((before.listsPlaced hf).replaced _ _).inst_eq hnode (Ne.symm hne),
      (Phi.blocks_mapValues _ _).trans hblocks⟩

/-! ### What is gone -/

/-- The replaced phis are gone, and nothing else that was not. -/
lemma gone_iff (h : Folded f g rs) (j : InstId) :
    g.Gone j ↔ f.Gone j ∨ ∃ r ∈ rs, r.phi = j := by
  induction h with
  | refl => simp
  | step _ hphi _ ih =>
    rw [gone_replaced hphi, ih, or_assoc]
    simp [or_and_right, exists_or, eq_comm]

/-- The replacements are chained, and no operand names a phi that is replaced. -/
lemma chained (h : Folded f g rs) (hf : f.ListsPlaced) : Replacement.Chained rs ∧
    ∀ r ∈ rs, ∀ j p, g.inst? j = some p → Value.inst r.phi ∉ p.inst.operands := by
  induction h with
  | refl => exact ⟨.nil, by simp⟩
  | @step g rs i node same before hphi ht ih =>
    obtain ⟨hchained, hcut⟩ := ih
    have hsame : ∀ r ∈ rs, same ≠ .inst r.phi := by
      intro r hr he
      obtain ⟨p, hp, hmem⟩ := mem_operands_of_trivial hphi ht he
      exact hcut r hr i p hp hmem
    refine ⟨hchained.concat ?_ (Phi.trivial?_ne ht), ?_⟩
    · intro r hr
      refine ⟨?_, hsame r hr⟩
      rintro rfl
      -- a phi that is replaced is gone, and this one is there
      obtain ⟨-, hnone⟩ := (before.gone_iff _).2 (.inr ⟨r, hr, rfl⟩)
      obtain ⟨b, hinst⟩ := phi?_some hphi
      rw [hinst] at hnone
      cases hnone
    · intro r hr j q hq hmem
      obtain ⟨-, p, hp, -, hinst⟩ := ((before.listsPlaced hf).replaced _ _).inst_inv hq
      rw [hinst, Inst.operands_mapOperands] at hmem
      obtain ⟨u, hu, he⟩ := List.mem_map.1 hmem
      unfold Value.subst at he
      split at he
      · rcases List.mem_append.1 hr with hr | hr
        · exact hsame r hr he
        · rw [List.mem_singleton.1 hr] at he
          exact Phi.trivial?_ne ht he
      · rename_i hne
        rcases List.mem_append.1 hr with hr | hr
        · exact hcut r hr j p hp (he ▸ hu)
        · rw [List.mem_singleton.1 hr] at he
          exact hne he

lemma operandsLast (h : Folded f g rs) (hf : f.ListsPlaced) (hlast : f.OperandsLast) :
    g.OperandsLast := by
  induction h with
  | refl => exact hlast
  | step before hphi ht ih => exact ih.replaced (before.listsPlaced hf) hphi ht

/-- What replacements put in was not gone before. -/
lemma lasting_same (h : Folded f g rs) (hf : f.ListsPlaced) (hlast : f.OperandsLast) :
    ∀ r ∈ rs, f.Lasting r.same := by
  induction h with
  | refl => simp
  | step before hphi ht ih =>
    intro r hr
    rcases List.mem_append.1 hr with hr | hr
    · exact ih r hr
    · rw [List.mem_singleton.1 hr]
      refine ((before.operandsLast hf hlast).lasting_same hphi ht).of_gone ?_
      intro j hj
      exact (gone_replaced hphi _ j).2 (.inl ((before.gone_iff j).2 (.inl hj)))

/-- Replacements lead from values that lasted to values that last. -/
lemma lasting_resolve (h : Folded f g rs) (hf : f.ListsPlaced) (hlast : f.OperandsLast)
    {v : Value} (hv : f.Lasting v) : g.Lasting (Replacement.resolve rs v) := by
  have hold : f.Lasting (Replacement.resolve rs v) := by
    refine repeatUpTo_induct f.Lasting ?_ _ _ hv
    intro u u' _ hnext
    obtain ⟨r, hr, -, rfl⟩ := Replacement.exists_of_next? hnext
    exact h.lasting_same hf hlast r hr
  intro j hj hgone
  rcases (h.gone_iff j).1 hgone with hgone | ⟨r, hr, rfl⟩
  · exact hold j hj hgone
  · exact (h.chained hf).1.resolve_ne v r hr hj

end Folded

end Func

end SsaBackend
