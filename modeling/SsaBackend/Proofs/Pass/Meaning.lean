import SsaBackend.Proofs.Pass.Strictness

/-!
# Passes that fold constants keep the meaning

The two passes that clean up the graph, one after the other, end well and leave a function that
no run can tell from the one before (`Pass.cleanup_sameMeaning`). What is left are the blocks to
which the entry leads along the edges that can be taken: a branch on a constant has one such
edge (`Func.decidedSuccs`).

Where all blocks are reached, folding constant operations ends well too, when nothing is left to
fold, and keeps the graph and the meaning (`Pass.constantOps_sameMeaning`).
-/

namespace SsaBackend

/-- Where control can go if a branch on a constant is taken as decided. -/
def Terminator.decided : Terminator → List BlockId
  | branch (.const c) t e => [if c.isTrue then t else e]
  | t => t.successors

namespace Func

/-- The successors of a block if branches on constants are taken as decided. -/
def decidedSuccs (f : Func) (b : BlockId) : List BlockId :=
  (f.terminator? b).elim [] Terminator.decided

/-- The edges from a block, over blocks in the place of their numbers. -/
lemma reached_iff_reaches {f : Func} {edge : BlockId → BlockId → Prop}
    (h : ∀ b c, c ∈ f.succs b ↔ edge b c) (b : BlockId) :
    f.Reached b ↔ Reaches edge f.entry b := by
  constructor
  · intro hb
    have hall : ∀ n, f.cfg.Reached n → Reaches edge f.entry ⟨n⟩ := by
      intro n hn
      refine Reaches.induct (P := fun n => Reaches edge f.entry ⟨n⟩) Reaches.init ?_ hn
      intro m n _ hm hedge
      exact hm.step ((h ⟨m⟩ ⟨n⟩).1 (edge_iff.1 hedge))
    exact hall b.index hb
  · intro hb
    refine Reaches.induct (P := fun c => f.Reached c) Reaches.init ?_ hb
    intro c d _ hc hedge
    exact hc.step (edge_iff.2 ((h c d).2 hedge))

end Func

namespace BranchFold

open Func

variable {f g : Func}

/-- The branches on constants are found in handle order, and every one of them is. -/
lemma mem_candidates_of_const {b : BlockId} {bb : Block} {k : Const} {t e : BlockId}
    (hb : f.block? b = some bb) (hterm : bb.terminator = some (.branch (.const k) t e)) :
    (if k.isTrue then (⟨b, t, e⟩ : Candidate) else ⟨b, e, t⟩) ∈ candidates f := by
  unfold candidates
  refine List.mem_filterMap.2 ⟨(b, bb), mem_liveBlocks.2 hb, ?_⟩
  rw [hterm, Option.bind_some]
  rfl

/-- Once all branches on constants are folded, the edges are those that can be taken. -/
lemma Folding.succs (h : Folding f g []) (b : BlockId) : g.succs b = f.decidedSuccs b := by
  have hdone : ∀ c ∈ candidates f, g.succs c.block = [c.taken] :=
    fun c hc => h.taken c hc List.not_mem_nil
  unfold decidedSuccs terminator?
  by_cases hfold : ∃ bb k t e, f.block? b = some bb ∧ bb.terminator = some (.branch (.const k) t e)
  · obtain ⟨bb, k, t, e, hb, hterm⟩ := hfold
    have htaken := hdone _ (mem_candidates_of_const hb hterm)
    rw [hb, Option.bind_some, hterm]
    show g.succs b = [if k.isTrue then t else e]
    split at htaken
    · rename_i hk
      rw [if_pos hk]
      exact htaken
    · rename_i hk
      rw [if_neg hk]
      exact htaken
  · rw [h.others b]
    · unfold Func.succs
      cases hb : f.block? b with
      | none => rfl
      | some bb =>
        cases hterm : bb.terminator with
        | none => simp [Block.successors, hterm]
        | some t =>
          rw [Option.elim_some, Block.successors, Option.bind_some, hterm, Option.elim_some,
            Option.elim_some]
          cases t with
          | branch v d e =>
            cases v with
            | const k => exact absurd ⟨bb, k, d, e, hb, hterm⟩ hfold
            | _ => rfl
          | _ => rfl
    · rintro c hc rfl
      obtain ⟨bb, k, t, e, hb, hterm, -⟩ := mem_candidates hc
      exact hfold ⟨bb, k, t, e, hb, hterm⟩

end BranchFold

namespace DeadBlocks

open Func

/-- Once all blocks out of reach are removed, the others are left. -/
lemma Removing.hasBlock_iff {f g : Func} (h : Removing f g []) (hf : f.Framed) (ht : f.Tight)
    (b : BlockId) : g.hasBlock b = true ↔ f.Reached b := by
  constructor
  · intro hb
    exact (h.left b hb).resolve_right List.not_mem_nil
  · intro hb
    refine h.stays b hb ?_
    by_cases hne : b = f.entry
    · obtain ⟨bb, hbb, -⟩ := hf.entry
      rw [hne]
      exact Option.isSome_iff_exists.2 ⟨bb, hbb⟩
    · -- an edge leads there, and edges lead to blocks
      obtain ⟨m, l, hedge, -, -⟩ := hb.exists_first fun he => hne (BlockId.index_inj.1 he)
      exact Option.isSome_iff_exists.2 (ht.targets ⟨m⟩ b (edge_iff.1 hedge))

end DeadBlocks

namespace Pass

/-- Folding branches and then removing blocks ends well, keeps the meaning, and leaves the blocks
to which the edges that can be taken lead. -/
theorem cleanup_sameMeaning {s : Session} (hverify : s.func.verify = .ok ())
    (hentry : s.func.preds s.func.entry = []) (huses : s.func.DominatedWhereReached) :
    ∃ folded s₁ removed s₂, branchFold.run.run s = .ok folded s₁ ∧
      deadBlocks.run.run s₁ = .ok removed s₂ ∧ s.func.SameMeaning s₂.func ∧
      ∀ b, s₂.func.hasBlock b = true ↔
        Reaches (fun c d => d ∈ s.func.decidedSuccs c) s.func.entry b := by
  obtain ⟨hf, ht, -⟩ := Func.framed_of_verify hverify hentry
  obtain ⟨folded, s₁, hfold, -, -, hfolding⟩ := (BranchFold.run_folding hf ht).exists_ok
  have hkeep := hfolding.keeps
  obtain ⟨removed, s₂, hremove, -, -, hremoving⟩ :=
    (DeadBlocks.run_removing hkeep.framed hfolding.tight).exists_ok
  refine ⟨folded, s₁, removed, s₂, hfold, hremove, ?_, ?_⟩
  · exact (hkeep.meaning huses).trans (hremoving.meaning (hkeep.dominated huses))
  · intro b
    rw [hremoving.hasBlock_iff hkeep.framed hfolding.tight]
    refine Func.reached_iff_reaches (fun c d => ?_) b
    rw [hfolding.succs]

/-- Of the detour the way that is taken is left, and it means the same. -/
theorem cleaned_detour :
    (detour.verify = .ok () ∧ detour.preds detour.entry = [] ∧ detour.DominatedWhereReached) ∧
      ∃ folded s₁ removed s₂, branchFold.run.run ⟨detour, .empty, #[]⟩ = .ok folded s₁ ∧
        deadBlocks.run.run s₁ = .ok removed s₂ ∧ detour.SameMeaning s₂.func ∧
        ∀ b, s₂.func.hasBlock b = true ↔
          Reaches (fun c d => d ∈ detour.decidedSuccs c) detour.entry b := by
  have hentry : detour.preds detour.entry = [] := by decide
  exact ⟨⟨detour_verified, hentry, detour_uses⟩,
    cleanup_sameMeaning (s := ⟨detour, .empty, #[]⟩) detour_verified hentry detour_uses⟩

/-- Folding constant operations ends well, once no instruction amounts to a known value and no
phi to a single one, and keeps the graph and the meaning. -/
theorem constantOps_sameMeaning {s : Session} (hverify : s.func.verify = .ok ())
    (hentry : s.func.preds s.func.entry = []) (hall : s.func.AllReached)
    (huses : s.func.DominatedWhereReached) :
    let done := (ConstantOps.foldAll s.func).func
    ConstantOps.candidates done = [] ∧ (done.foldEnd done.phiIds fun _ => true).work = [] ∧
      ∃ changed s', constantOps.run.run s = .ok changed s' ∧ s'.func.verify = .ok () ∧
        s.func.SameMeaning s'.func ∧
        (∀ i ∈ s'.func.phiIds, ∀ node, s'.func.phi? i = some node → node.trivial? i = none) ∧
        ∀ b, s'.func.succs b = s.func.succs b ∧ s'.func.preds b = s.func.preds b := by
  obtain ⟨hf, ht, hk⟩ := Func.framed_of_verify hverify hentry
  have hpicks := Func.picksEnd_of_dominated hf huses hall
  have hends := ConstantOps.foldAll_ends hf hk hpicks
  refine ⟨hends, Func.foldEnd_work .., ?_⟩
  obtain ⟨changed, s', hrun, -, hfunc⟩ :=
    ((ConstantOps.run_folded s).mono (fun _ _ h => h) fun _ hleft => hleft hends).exists_ok
  have hdone := ConstantOps.foldAll_folds hf
  obtain ⟨hshape, hkeep⟩ := ConstantOps.folded_keeps hf
  have hsame := hdone.shape.trans hshape
  refine ⟨changed, s', hrun, ?_⟩
  rw [hfunc]
  refine ⟨?_, ?_, ?_, fun b => ⟨hsame.succs b, hsame.preds b⟩⟩
  · exact Func.verify_of_wired hkeep.framed.toWired (hsame.tight ht)
      (hkeep.operands (hdone.known hk hpicks).1)
  · exact (hdone.meaning huses).trans (hkeep.meaning (hdone.dominated huses))
  · intro i hi
    exact Func.foldTrivialPhis_settles (fun i hi _ hnot => absurd hi hnot) i hi rfl

/-- A condition that is known but for its operands, a choice that hangs on it, and two ways to a
join that receives the same from both. -/
def diamond : Func where
  name := "diamond"
  numArgs := 2
  blocks := #[
    some { body := [⟨0⟩, ⟨1⟩, ⟨2⟩, ⟨3⟩], terminator := some (.branch (.arg 1) ⟨1⟩ ⟨2⟩) },
    some { body := [⟨4⟩], preds := [⟨0⟩], terminator := some (.jump ⟨3⟩) },
    some { preds := [⟨0⟩], terminator := some (.jump ⟨3⟩) },
    some { phis := [⟨5⟩], preds := [⟨1⟩, ⟨2⟩], terminator := some (.ret (some (.inst ⟨5⟩))) }]
  insts := #[
    some ⟨.binary .add (.int 2) (.int 3), ⟨0⟩⟩,
    some ⟨.compare .slt (.inst ⟨0⟩) (.int 10), ⟨0⟩⟩,
    some ⟨.load (.arg 0), ⟨0⟩⟩,
    some ⟨.select (.inst ⟨1⟩) (.inst ⟨2⟩) (.inst ⟨0⟩), ⟨0⟩⟩,
    some ⟨.store (.arg 0) (.inst ⟨3⟩), ⟨1⟩⟩,
    some ⟨.phi ⟨[⟨⟨1⟩, .inst ⟨3⟩⟩, ⟨⟨2⟩, .inst ⟨2⟩⟩]⟩, ⟨3⟩⟩]

lemma diamond_verified : diamond.verify = .ok () := by rfl

lemma diamond_consistent : diamond.cfg.Consistent :=
  (Func.verified_of_verify diamond_verified).consistent

/-- Of the diamond the load is left, which is what it returns, and the store. -/
theorem folded_diamond :
    ConstantOps.candidates (ConstantOps.foldAll diamond).func = [] ∧
      ∃ changed s', constantOps.run.run ⟨diamond, .empty, #[]⟩ = .ok changed s' ∧
        (s'.func.instIds = [⟨2⟩, ⟨4⟩] ∧
          s'.func.terminator? ⟨3⟩ = some (.ret (some (.inst ⟨2⟩)))) ∧
        s'.func.verify = .ok () ∧ diamond.SameMeaning s'.func := by
  have hleft : (constantOps.run.state ⟨diamond, .empty, #[]⟩).func.instIds = [⟨2⟩, ⟨4⟩] ∧
      (constantOps.run.state ⟨diamond, .empty, #[]⟩).func.terminator? ⟨3⟩ =
        some (.ret (some (.inst ⟨2⟩))) := by decide +kernel
  obtain ⟨hdone, -, changed, s', hrun, hverify, hmeaning, -, -⟩ :=
    constantOps_sameMeaning (s := ⟨diamond, .empty, #[]⟩) diamond_verified (by decide)
      (Func.allReached_of_check diamond_consistent (by decide +kernel))
      (Func.dominated_of_check diamond_consistent (by decide +kernel))
  unfold Work.state at hleft
  rw [hrun] at hleft
  exact ⟨hdone, changed, s', hrun, hleft, hverify, hmeaning⟩

end Pass

end SsaBackend
