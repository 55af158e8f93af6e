import SsaBackend.Proofs.Func.Resolved
import SsaBackend.Proofs.Pass.Changed

/-!
# Passes that are run twice

Folding constants and folding branches both look for constants first and fold phis at the end. What
takes the place of a phi may be a constant, in an operand of an instruction or as the condition of a
branch, and nobody looks there any more. So a second run may find work.

It finds no other work. What is left by folding constants has no trivial phi, and an instruction
whose value is known is one that reads a phi which was folded (`ConstantOps.noneFolds_folded_iff`).
Folding branches changes conditions only where it folds phis (`BranchFold.ConditionsFrom`), and no
branch is left that was on a constant before.

## Main statements

* `Pass.second_run_answers`: which of the two passes answers no when it is run again, exactly.
* `Pass.second_run_finds_work`: for each of the passes there is a function for which it answers yes.
-/

namespace SsaBackend

open Func Replacement

/-! ## Constant operations -/

namespace ConstantOps

variable {f : Func}

/-- When the rounds are over, there is an instruction that reads a phi which is folded then, and its
value is known with what takes the place of the phi. -/
def FoldsLate (f : Func) : Prop :=
  ∃ b bb i p, (foldAll f).func.block? b = some bb ∧ i ∈ bb.body ∧
    (foldAll f).func.inst? i = some p ∧ (∃ r ∈ foldedPhis f, Value.inst r.phi ∈ p.inst.operands) ∧
    (p.inst.mapOperands (resolve (foldedPhis f))).fold?.isSome = true

lemma folded_folded (f : Func) : Folded (foldAll f).func (folded f) (foldedPhis f) :=
  (foldTrivialPhis_folded ..).1

lemma listsPlaced_foldAll (hf : f.ListsPlaced) : (foldAll f).func.ListsPlaced :=
  foldAll_kept ListsPlaced (fun _ i v hg => (hg.replaced i v).listsPlaced hg) hf

/-- A value that is known is not that of a phi. -/
lemma phi?_of_fold? {inst : Inst} (h : inst.fold?.isSome = true) : inst.phi? = none := by
  cases inst with
  | phi node => cases h
  | _ => rfl

/-- Nothing folds in what the pass leaves, unless it folds late. -/
lemma noneFolds_folded_iff (hf : f.ListsPlaced) (hnone : NoneFolds (foldAll f).func) :
    NoneFolds (folded f) ↔ ¬ FoldsLate f := by
  have hplaced := listsPlaced_foldAll hf
  have hfolded := folded_folded f
  constructor
  · rintro h ⟨b, bb, i, p, hb, hi, hp, -, hfold⟩
    -- the instruction is none of the phis, so it is still there
    have hkept : ∀ r ∈ foldedPhis f, r.phi ≠ i := by
      rintro r hr rfl
      obtain ⟨node, hnode, -⟩ := hfolded.resolve_value hplaced r hr
      have hphi := phi?_of_fold? hfold
      rw [Inst.phi?_mapOperands, ← phi?_of_inst? hp, hnode] at hphi
      cases hphi
    obtain ⟨bb', hb', hi'⟩ := hfolded.mem_body hplaced hb hi hkept
    rw [h b bb' hb' i hi' _ (hfolded.inst_eq hplaced hp hkept)] at hfold
    cases hfold
  · intro h b bb' hb' i hi q hq
    rw [hfolded.block?_eq hplaced] at hb'
    obtain ⟨bb, hb, rfl⟩ := Option.map_eq_some_iff.1 hb'
    have hi : i ∈ bb.body := List.mem_of_mem_filter hi
    obtain ⟨-, p, hp, rfl⟩ := hfolded.inst_inv hplaced hq
    by_cases hreads : ∃ r ∈ foldedPhis f, Value.inst r.phi ∈ p.inst.operands
    · rw [← Option.not_isSome_iff_eq_none]
      exact fun hfold => h ⟨b, bb, i, p, hb, hi, hp, hreads, hfold⟩
    · -- nothing that the instruction reads was replaced
      have hsame : p.inst.mapOperands (resolve (foldedPhis f)) = p.inst :=
        Inst.mapOperands_eq_self fun v hv =>
          resolve_eq_self fun r hr he => hreads ⟨r, hr, he ▸ hv⟩
      show (p.inst.mapOperands _).fold? = none
      rw [hsame]
      exact hnone b bb hb i hi p hp

/-- After a run, another one answers no unless folding phis left it something. -/
lemma second_run {s s' t : Session} {changed : Bool} (hf : s.func.ListsPlaced)
    (hrun : ConstantOps.run.run s = .ok changed s') (ht : t.func = s'.func) :
    (∃ t', ConstantOps.run.run t = .ok false t' ∧ t'.func = t.func) ↔ ¬ FoldsLate s.func := by
  obtain ⟨-, hfunc, hnone, -⟩ := (run_ends s).ok hrun
  rw [← noneFolds_folded_iff hf (candidates_eq_nil.1 hnone), ← hfunc, ← ht]
  constructor
  · rintro ⟨t', hrun', -⟩
    exact (((run_answers t).ok hrun').1 rfl).2.1
  · intro hfolds
    have htrivial := noneTrivial_folded s.func
    rw [← hfunc, ← ht] at htrivial
    obtain ⟨_, t', hrun', rfl, hfunc', -⟩ := (run_of_settled hfolds htrivial).exists_ok
    exact ⟨t', hrun', hfunc'⟩

end ConstantOps

/-! ## Branches -/

namespace BranchFold

variable {f g h : Func} {b p : BlockId} {i : InstId}

/-- There is a branch whose condition is a phi before the pass, and a constant after it. -/
def FoldsLate (f g : Func) : Prop :=
  ∃ b i node t e k, f.phi? i = some node ∧ f.terminator? b = some (.branch (.inst i) t e) ∧
    g.terminator? b = some (.branch (.const k) t e)

/-- Phis of `g` are phis of `f`, and so are branches, on the same condition if that is not a phi. -/
structure ConditionsFrom (f g : Func) : Prop where
  phis : ∀ i node, g.phi? i = some node → ∃ old, f.phi? i = some old
  branches : ∀ b v t e, g.terminator? b = some (.branch v t e) →
    ∃ u, f.terminator? b = some (.branch u t e) ∧
      (v = u ∨ ∃ i node, u = .inst i ∧ f.phi? i = some node)

namespace ConditionsFrom

lemma refl (f : Func) : ConditionsFrom f f :=
  ⟨fun _ node hi => ⟨node, hi⟩, fun _ v _ _ hb => ⟨v, hb, .inl rfl⟩⟩

lemma trans (hfg : ConditionsFrom f g) (hgh : ConditionsFrom g h) : ConditionsFrom f h := by
  refine ⟨fun i node hi => ?_, fun b v t e hb => ?_⟩
  · obtain ⟨mid, hmid⟩ := hgh.phis i node hi
    exact hfg.phis i mid hmid
  · obtain ⟨u, hu, hv⟩ := hgh.branches b v t e hb
    obtain ⟨w, hw, huw⟩ := hfg.branches b u t e hu
    refine ⟨w, hw, ?_⟩
    rcases huw with rfl | hphi
    · refine hv.imp_right ?_
      rintro ⟨i, node, he, hnode⟩
      obtain ⟨old, hold⟩ := hfg.phis i node hnode
      exact ⟨i, old, he, hold⟩
    · exact .inr hphi

/-- A phi is replaced. -/
lemma replaced {node : Phi} (hi : f.phi? i = some node) (same : Value) :
    ConditionsFrom f ((f.replaceUses i same).removeInst i) := by
  refine ⟨fun j node' hj => ?_, fun b v t e hb => ?_⟩
  · obtain ⟨-, old, hold, -⟩ := phi?_replaced hj
    exact ⟨old, hold⟩
  · rw [terminator?_replaced] at hb
    obtain ⟨t₀, ht₀, he⟩ := Option.map_eq_some_iff.1 hb
    cases t₀ with
    | branch u t' e' =>
      cases he
      refine ⟨u, ht₀, ?_⟩
      unfold Value.subst
      split
      · rename_i hu
        exact .inr ⟨i, node, hu, hi⟩
      · exact .inl rfl
    | _ => cases he

lemma of_folded {rs : List Replacement} (hg : Func.Folded f g rs) : ConditionsFrom f g := by
  induction hg with
  | refl => exact .refl f
  | step _ hphi _ ih => exact ih.trans (.replaced hphi _)

/-- Losing operands makes no phi out of anything else. -/
lemma exists_phi_of_modifyPhi {k : Phi → Phi} {j : InstId} {node : Phi}
    (hj : (f.modifyPhi i k).phi? j = some node) : ∃ old, f.phi? j = some old := by
  obtain ⟨c, hc⟩ := phi?_some hj
  unfold Func.modifyPhi at hc
  rw [inst?_modifyInst] at hc
  split at hc
  · obtain ⟨⟨inst, c'⟩, hold, he⟩ := Option.map_eq_some_iff.1 hc
    cases inst with
    | phi old => exact ⟨old, phi?_of_inst hold⟩
    | _ => cases he
  · exact ⟨node, phi?_of_inst hc⟩

lemma unlinked (f : Func) (b p : BlockId) (bb : Block) :
    ConditionsFrom f (f.unlinked b p bb) := by
  refine ⟨?_, fun c v t e hc => ⟨v, (unlinked_terminator c).symm.trans hc, .inl rfl⟩⟩
  unfold Func.unlinked
  have hstart : ∀ j node, (f.modifyBlock b (·.dropPred p)).phi? j = some node →
      ∃ old, f.phi? j = some old := fun j node hj => ⟨node, hj⟩
  generalize f.modifyBlock b (·.dropPred p) = g at hstart
  induction bb.phis generalizing g with
  | nil => exact hstart
  | cons i rest ih =>
    refine ih _ fun j node hj => ?_
    obtain ⟨old, hold⟩ := exists_phi_of_modifyPhi hj
    exact hstart j old hold

lemma removePred (f : Func) (b p : BlockId) : ConditionsFrom f (f.removePred b p).1 := by
  cases hb : f.block? b with
  | none =>
    rw [removePred_deleted hb]
    exact .refl f
  | some bb =>
    rw [removePred_eq hb]
    exact (unlinked f b p bb).trans (.of_folded (foldTrivialPhis_folded ..).1)

lemma jumping (f : Func) (b taken : BlockId) : ConditionsFrom f (f.jumping b taken) := by
  refine ⟨fun i node hi => ⟨node, hi⟩, fun c v t e hc => ⟨v, ?_, .inl rfl⟩⟩
  obtain ⟨cc', hcc', hterm'⟩ := Option.bind_eq_some_iff.1 hc
  obtain ⟨cc, hcc, -, -, -, hterm⟩ := jumping_block_inv hcc'
  rw [hterm] at hterm'
  split at hterm'
  · cases hterm'
  · exact (terminator?_of_block hcc).trans hterm'

/-- Folding a branch changes conditions only where it folds phis. -/
lemma fold (f : Func) (c : Candidate) : ConditionsFrom f (BranchFold.fold f c).1 := by
  rw [fold_eq]
  split
  · exact jumping ..
  · exact (jumping ..).trans (removePred ..)

end ConditionsFrom

/-- A run ends well, and another one answers yes if and only if folding phis left it something. -/
lemma second_run {s : Session} (hf : s.func.EdgesAgree) :
    ∃ changed s', BranchFold.run.run s = .ok changed s' ∧ ∀ t : Session, t.func = s'.func →
      ∃ again t', BranchFold.run.run t = .ok again t' ∧ (again = false → t'.func = t.func) ∧
        (again = false ↔ ¬ FoldsLate s.func s'.func) := by
  obtain ⟨changed, s', hrun, hfrom, -, hagree, -, -, hjumps⟩ :=
    (run_keeps hf (ConditionsFrom s.func) (fun g c _ hg => hg.trans (.fold g c)) (.refl _)).exists_ok
  refine ⟨changed, s', hrun, fun t ht => ?_⟩
  obtain ⟨again, t', hrun', -, -, hagain, hsame, -⟩ := (run_ends (ht ▸ hagree)).exists_ok
  refine ⟨again, t', hrun', hsame, ?_⟩
  have hsettled : again = false ↔ Pass.branchFold.Settled s'.func := by
    rw [← Pass.candidates_branchFold, ← ht, hagain]
    simp
  rw [hsettled]
  constructor
  · rintro h ⟨b, i, node, t, e, k, -, -, hlate⟩
    exact h b k t e hlate
  · intro h b k t e hterm
    obtain ⟨u, hu, hku⟩ := hfrom.branches b _ t e hterm
    rcases hku with rfl | ⟨i, node, rfl, hnode⟩
    · -- a branch that was on a constant was folded
      obtain ⟨bb, hb, hbterm⟩ := Option.bind_eq_some_iff.1 hu
      have hc : (if k.isTrue then ⟨b, t, e⟩ else ⟨b, e, t⟩) ∈ candidates s.func := by
        refine List.mem_filterMap.2 ⟨(b, bb), mem_liveBlocks.2 hb, ?_⟩
        rw [hbterm]
        rfl
      obtain ⟨d, hd⟩ := hjumps _ hc
      have hblock : (if k.isTrue then (⟨b, t, e⟩ : Candidate) else ⟨b, e, t⟩).block = b := by
        split <;> rfl
      rw [hblock, hterm] at hd
      cases hd
    · exact h ⟨b, i, node, t, e, k, hnode, hu, hterm⟩

end BranchFold

namespace Pass

/-- Of a function that was accepted, folding constants and folding branches answer no when they are
run a second time, unless phis that the first run folded have left them something: an instruction
that read one of them and whose value is known now, or a branch on one of them that is one on a
constant now. Then they answer something else. -/
theorem second_run_answers {s : Session} (hverify : s.func.verify = .ok ()) :
    (∀ changed s', constantOps.run.run s = .ok changed s' → ∀ t : Session, t.func = s'.func →
      ((∃ t', constantOps.run.run t = .ok false t' ∧ t'.func = t.func) ↔
        ¬ ConstantOps.FoldsLate s.func)) ∧
    ∃ changed s', branchFold.run.run s = .ok changed s' ∧ ∀ t : Session, t.func = s'.func →
      ∃ again t', branchFold.run.run t = .ok again t' ∧ (again = false → t'.func = t.func) ∧
        (again = false ↔ ¬ BranchFold.FoldsLate s.func s'.func) := by
  have hv := verified_of_verify hverify
  have hplaced : s.func.ListsPlaced := by
    rintro b i ⟨bb, hb, hi⟩
    rcases List.mem_append.1 hi with hi | hi
    · obtain ⟨node, hnode, -⟩ := hv.phis b bb hb i hi
      exact ⟨_, hnode, rfl⟩
    · obtain ⟨p, hp, hpb, -⟩ := hv.body b bb hb i hi
      exact ⟨p, hp, hpb⟩
  exact ⟨fun changed s' hrun t ht => ConstantOps.second_run hplaced hrun ht,
    BranchFold.second_run hv.edgesAgree⟩

/-- Two ways with the same sum meet in a phi that nothing computes with. -/
def meeting : Func where
  name := "meeting"
  numArgs := 0
  blocks := #[
    some { terminator := some (.branch (.bool true) ⟨1⟩ ⟨2⟩) },
    some { preds := [⟨0⟩], terminator := some (.jump ⟨3⟩) },
    some { body := [⟨0⟩], preds := [⟨0⟩], terminator := some (.jump ⟨3⟩) },
    some { phis := [⟨1⟩], preds := [⟨1⟩, ⟨2⟩], terminator := some (.ret (some (.inst ⟨1⟩))) }]
  insts := #[
    some ⟨.binary .add (.int 2) (.int 3), ⟨2⟩⟩,
    some ⟨.phi ⟨[⟨⟨1⟩, .int 5⟩, ⟨⟨2⟩, .inst ⟨0⟩⟩]⟩, ⟨3⟩⟩]

/-- Each pass changes the meeting when it is run for the first time, and finds nothing the second
time. -/
theorem meeting_second_run :
    meeting.verify = .ok () ∧
      (∃ s', constantOps.run.run ⟨meeting, .empty, #[]⟩ = .ok true s' ∧
        ∃ t', constantOps.run.run s' = .ok false t' ∧ t'.func = s'.func) ∧
      ∃ s', branchFold.run.run ⟨meeting, .empty, #[]⟩ = .ok true s' ∧
        ∃ t', branchFold.run.run s' = .ok false t' ∧ ¬ BranchFold.FoldsLate meeting s'.func := by
  have hv : meeting.verify = .ok () := by rfl
  obtain ⟨hconstants, changed, s', hrun, hbranches⟩ :=
    second_run_answers (s := ⟨meeting, .empty, #[]⟩) hv
  -- no instruction is left that could read the phi
  have hempty : ∀ e ∈ (ConstantOps.foldAll meeting).func.liveBlocks, e.2.body = [] := by
    decide +kernel
  have hearly : ¬ ConstantOps.FoldsLate meeting := by
    rintro ⟨b, bb, i, p, hb, hi, -⟩
    rw [hempty (b, bb) (mem_liveBlocks.2 hb)] at hi
    cases hi
  have hfirst : constantOps.run.result ⟨meeting, .empty, #[]⟩ = .ok true := by decide +kernel
  have hanswer : branchFold.run.result ⟨meeting, .empty, #[]⟩ = .ok true := by decide +kernel
  have hagain : branchFold.run.result (branchFold.run.state ⟨meeting, .empty, #[]⟩) =
      .ok false := by decide +kernel
  refine ⟨hv, ⟨_, Work.run_of_result hfirst, ?_⟩, _, Work.run_of_result hanswer, _,
    Work.run_of_result hagain, ?_⟩
  · exact (hconstants true _ (Work.run_of_result hfirst) _ rfl).2 hearly
  · rw [← Work.state_of_ok hrun] at hbranches
    obtain ⟨again, t', hrun', -, hlate⟩ := hbranches _ rfl
    rw [Work.run_of_result hagain] at hrun'
    cases hrun'
    exact hlate.1 rfl

/-- A sum of the meeting of 5 with a sum that is 5. -/
def lateSum : Func where
  name := "lateSum"
  numArgs := 1
  blocks := #[
    some { terminator := some (.branch (.arg 0) ⟨1⟩ ⟨2⟩) },
    some { preds := [⟨0⟩], terminator := some (.jump ⟨3⟩) },
    some { body := [⟨0⟩], preds := [⟨0⟩], terminator := some (.jump ⟨3⟩) },
    some { phis := [⟨1⟩], body := [⟨2⟩], preds := [⟨1⟩, ⟨2⟩],
           terminator := some (.ret (some (.inst ⟨2⟩))) }]
  insts := #[
    some ⟨.binary .add (.int 2) (.int 3), ⟨2⟩⟩,
    some ⟨.phi ⟨[⟨⟨1⟩, .int 5⟩, ⟨⟨2⟩, .inst ⟨0⟩⟩]⟩, ⟨3⟩⟩,
    some ⟨.binary .add (.inst ⟨1⟩) (.int 1), ⟨3⟩⟩]

/-- A branch on a phi that receives one value when a branch before it is folded. -/
def lateBranch : Func where
  name := "lateBranch"
  numArgs := 0
  blocks := #[
    some { terminator := some (.branch (.bool true) ⟨1⟩ ⟨2⟩) },
    some { preds := [⟨0⟩], terminator := some (.jump ⟨2⟩) },
    some { phis := [⟨0⟩], preds := [⟨0⟩, ⟨1⟩], terminator := some (.branch (.inst ⟨0⟩) ⟨3⟩ ⟨4⟩) },
    some { preds := [⟨2⟩], terminator := some (.ret none) },
    some { preds := [⟨2⟩], terminator := some (.ret none) }]
  insts := #[some ⟨.phi ⟨[⟨⟨0⟩, .int 1⟩, ⟨⟨1⟩, .int 0⟩]⟩, ⟨2⟩⟩]

/-- Neither pass is done after one run: the second one answers yes. -/
theorem second_run_finds_work :
    (lateSum.verify = .ok () ∧
      constantOps.run.result ⟨lateSum, .empty, #[]⟩ = .ok true ∧
      constantOps.run.result (constantOps.run.state ⟨lateSum, .empty, #[]⟩) = .ok true) ∧
    lateBranch.verify = .ok () ∧
      branchFold.run.result ⟨lateBranch, .empty, #[]⟩ = .ok true ∧
      branchFold.run.result (branchFold.run.state ⟨lateBranch, .empty, #[]⟩) = .ok true :=
  ⟨⟨by rfl, by decide +kernel, by decide +kernel⟩, by rfl, by decide +kernel, by decide +kernel⟩

end Pass

end SsaBackend
