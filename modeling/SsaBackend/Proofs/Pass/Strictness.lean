import SsaBackend.Pass.Schedule
import SsaBackend.Proofs.Hoist.Clean
import SsaBackend.Proofs.Pass.ConstantOps
import SsaBackend.Proofs.Pass.Edges
import SsaBackend.Proofs.Preheader.Complete

/-!
# Passes keep uses dominated

Whichever pass is run on a function that passes the checks and in which every use that is reached
is dominated by its definition, the uses of the function it leaves are dominated too
(`Pass.run_keeps_dominated`). The passes on loops are run when all blocks are reached.

`Func.checkDominated` looks for a use that is not dominated, with the dominator tree.
-/

namespace SsaBackend

namespace Func

/-! ## Looking for a use that is not dominated -/

/-- Whether a value is there in block `b` when the instructions `before` have run. -/
def isAvailable (f : Func) (dom : DomTree) (b : BlockId) (before : List InstId) : Value → Bool
  | .inst i => before.contains i || f.liveBlocks.any fun e =>
      e.1 ≠ b && dom.dominates e.1.index b.index && e.2.insts.contains i
  | _ => true

/-- Checks the operands of the instructions `rest` of a block, which come after `before`. -/
def checkBody (f : Func) (dom : DomTree) (b : BlockId) : List InstId → List InstId → Bool
  | _, [] => true
  | before, i :: rest =>
    (f.inst? i).all (fun p => p.inst.operands.all (f.isAvailable dom b before)) &&
      f.checkBody dom b (before ++ [i]) rest

/-- What the phis of the successors receive from a block. -/
def outgoing (f : Func) (b : BlockId) : List Value :=
  (f.succs b).flatMap fun s =>
    ((f.block? s).elim [] (·.phis)).filterMap fun i => (f.phi? i).bind (·.incoming? b)

/-- Checks the uses of one block. -/
def checkBlock (f : Func) (dom : DomTree) (b : BlockId) (bb : Block) : Bool :=
  decide bb.body.Nodup && f.checkBody dom b bb.phis bb.body &&
    (bb.terminator.elim [] (·.operands) ++ f.outgoing b).all (f.isAvailable dom b bb.insts)

/-- Checks the uses of the blocks that are reached. -/
def checkDominated (f : Func) : Bool :=
  f.liveBlocks.all fun e =>
    !f.cfg.domTree.isReachable e.1.index || f.checkBlock f.cfg.domTree e.1 e.2

lemma available_of_isAvailable {f : Func} (hg : f.cfg.Consistent) {b : BlockId}
    {before : List InstId} {i : InstId}
    (h : f.isAvailable f.cfg.domTree b before (.inst i) = true) : f.Available b before i := by
  unfold isAvailable at h
  rw [Bool.or_eq_true, List.contains_iff_mem, List.any_eq_true] at h
  rcases h with h | ⟨⟨d, dd⟩, hmem, h⟩
  · exact .inl h
  · rw [Bool.and_eq_true, Bool.and_eq_true, decide_eq_true_eq, List.contains_iff_mem] at h
    exact .inr ⟨d, h.1.1, ((Digraph.domTree_dominates hg _ _).1 h.1.2).2.2, dd,
      mem_liveBlocks.1 hmem, h.2⟩

lemma checkBody_spec {f : Func} {dom : DomTree} {b : BlockId} {before l first rest : List InstId}
    {i : InstId} (h : f.checkBody dom b before l = true) (hsplit : l = first ++ i :: rest)
    {p : PlacedInst} (hp : f.inst? i = some p) {v : Value} (hv : v ∈ p.inst.operands) :
    f.isAvailable dom b (before ++ first) v = true := by
  induction first generalizing before l with
  | nil =>
    subst hsplit
    rw [List.nil_append, checkBody, Bool.and_eq_true, hp, Option.all_some, List.all_eq_true] at h
    rw [List.append_nil]
    exact h.1 v hv
  | cons j first ih =>
    subst hsplit
    rw [List.cons_append, checkBody, Bool.and_eq_true] at h
    rw [List.append_cons]
    exact ih h.2 rfl

/-- Where no use is found that is not dominated, all are. -/
lemma dominated_of_check {f : Func} (hg : f.cfg.Consistent) (h : f.checkDominated = true) :
    f.DominatedWhereReached := by
  have hblock : ∀ b bb, f.block? b = some bb → f.Reached b →
      f.checkBlock f.cfg.domTree b bb = true := by
    intro b bb hb hr
    have := List.all_eq_true.1 h (b, bb) (mem_liveBlocks.2 hb)
    rw [Bool.or_eq_true, Bool.not_eq_true', ← Bool.not_eq_true,
      Digraph.domTree_isReachable hg] at this
    exact this.resolve_left (not_not_intro hr)
  -- what the terminator and the phis of the successors read was looked for at the end
  have hend : ∀ b bb i, f.block? b = some bb → f.Reached b →
      Value.inst i ∈ bb.terminator.elim [] (·.operands) ++ f.outgoing b →
      f.Available b bb.insts i := by
    intro b bb i hb hr hmem
    have hcheck := hblock b bb hb hr
    unfold checkBlock at hcheck
    rw [Bool.and_eq_true, List.all_eq_true] at hcheck
    exact available_of_isAvailable hg (hcheck.2 _ hmem)
  refine ⟨?_, ?_⟩
  · intro b bb hb hr
    have hcheck := hblock b bb hb hr
    unfold checkBlock at hcheck
    rw [Bool.and_eq_true, Bool.and_eq_true, decide_eq_true_eq] at hcheck
    exact hcheck.1.1
  · intro b before i hread hr
    cases hread with
    | inBody hb hsplit hp hmem =>
      have hcheck := hblock _ _ hb hr
      unfold checkBlock at hcheck
      rw [Bool.and_eq_true, Bool.and_eq_true] at hcheck
      exact available_of_isAvailable hg (checkBody_spec hcheck.1.2 hsplit hp hmem)
    | atEnd hb ht hmem =>
      refine hend _ _ i hb hr (List.mem_append_left _ ?_)
      rw [ht]
      exact hmem
    | @inPhi _ _ _ _ k _ hb hi hphi hp hedge hin =>
      refine hend _ _ i hp hr (List.mem_append_right _ ?_)
      refine List.mem_flatMap.2 ⟨_, hedge, List.mem_filterMap.2 ⟨k, ?_, ?_⟩⟩
      · rw [hb]
        exact hi
      · rw [hphi]
        exact hin

end Func

/-! ## The passes -/

namespace Pass

/-- A pass that ends well keeps uses dominated. -/
theorem run_keeps_dominated {p : Pass} {s s' : Session} {changed : Bool}
    (hverify : s.func.verify = .ok ()) (hentry : s.func.preds s.func.entry = [])
    (huses : s.func.DominatedWhereReached) (hcache : s.cache.FreshFor s.func)
    (hall : p = preheaders ∨ p = hoist → s.func.AllReached)
    (hrun : p.run.run s = .ok changed s') : s'.func.DominatedWhereReached := by
  obtain ⟨hf, ht, hk⟩ := Func.framed_of_verify hverify hentry
  cases p with
  | constantOps =>
    obtain ⟨-, -, -, hd, -⟩ := (ConstantOps.run_folds hf).ok hrun
    exact hd huses
  | branchFold =>
    obtain ⟨-, -, -, hkeep⟩ := (BranchFold.run_folds hf ht).ok hrun
    exact hkeep.dominated huses
  | deadBlocks =>
    obtain ⟨-, -, -, -, -, hd, -⟩ := (DeadBlocks.run_removes hf ht).ok hrun
    exact hd huses
  | preheaders =>
    have hc : s.func.Clean := ⟨hf, ht, hall (.inl rfl), huses, hk.args⟩
    exact ((Preheaders.run_completes hc hcache).ok hrun).1.dominated
  | hoist =>
    have hc : s.func.Clean := ⟨hf, ht, hall (.inr rfl), huses, hk.args⟩
    have hmeets := Hoist.run_hoists (E := fun _ => True) hc hcache fun _ _ _ => trivial
    exact (hmeets.ok hrun).1.dominated

/-- Two ways to a join, only one of which is taken, and a loop that is never entered and reads
what it has not computed. -/
def detour : Func where
  name := "detour"
  numArgs := 1
  blocks := #[
    some { terminator := some (.branch (.bool true) ⟨1⟩ ⟨2⟩) },
    some { body := [⟨0⟩], preds := [⟨0⟩], terminator := some (.jump ⟨3⟩) },
    some { body := [⟨1⟩], preds := [⟨0⟩], terminator := some (.jump ⟨3⟩) },
    some { phis := [⟨2⟩], body := [⟨3⟩], preds := [⟨1⟩, ⟨2⟩],
           terminator := some (.ret (some (.inst ⟨3⟩))) },
    some { body := [⟨4⟩], preds := [⟨4⟩], terminator := some (.jump ⟨4⟩) }]
  insts := #[
    some ⟨.binary .add (.arg 0) (.int 1), ⟨1⟩⟩,
    some ⟨.binary .add (.arg 0) (.int 2), ⟨2⟩⟩,
    some ⟨.phi ⟨[⟨⟨1⟩, .inst ⟨0⟩⟩, ⟨⟨2⟩, .inst ⟨1⟩⟩]⟩, ⟨3⟩⟩,
    some ⟨.binary .mul (.inst ⟨2⟩) (.arg 0), ⟨3⟩⟩,
    some ⟨.binary .add (.inst ⟨4⟩) (.inst ⟨3⟩), ⟨4⟩⟩]

lemma detour_verified : detour.verify = .ok () := by rfl

lemma detour_uses : detour.DominatedWhereReached :=
  Func.dominated_of_check (Func.verified_of_verify detour_verified).consistent (by decide +kernel)

/-- Folding its branch takes the second way out of reach, and all uses stay dominated. -/
theorem folded_detour_dominated :
    ∃ s', branchFold.run.run ⟨detour, .empty, #[]⟩ = .ok true s' ∧
      (s'.func.succs ⟨0⟩ = [⟨1⟩] ∧ s'.func.preds ⟨2⟩ = []) ∧ s'.func.DominatedWhereReached := by
  have hchanged : branchFold.run.result ⟨detour, .empty, #[]⟩ = .ok true := by decide +kernel
  have hedges : (branchFold.run.state ⟨detour, .empty, #[]⟩).func.succs ⟨0⟩ = [⟨1⟩] ∧
      (branchFold.run.state ⟨detour, .empty, #[]⟩).func.preds ⟨2⟩ = [] := by decide +kernel
  unfold Work.result at hchanged
  unfold Work.state at hedges
  cases hrun : branchFold.run.run ⟨detour, .empty, #[]⟩ with
  | error e s' =>
    rw [hrun] at hchanged
    cases hchanged
  | ok changed s' =>
    rw [hrun] at hchanged hedges
    cases hchanged
    exact ⟨s', rfl, hedges, run_keeps_dominated detour_verified (by decide) detour_uses
      (Cache.FreshFor.empty _) (by rintro (h | h) <;> cases h) hrun⟩

end Pass

end SsaBackend
