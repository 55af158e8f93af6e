import SsaBackend.Pass.Schedule
import SsaBackend.Proofs.Hoist.Settled
import SsaBackend.Proofs.Pass.Endings

/-!
# What the passes answer

A pass answers whether it changed the function. `Pass.Settled` says of a function what it means
that a pass has nothing to do there; a pass that answers no has found just that and has left
everything as it was, and one that answers yes leaves another function (`Pass.run_answers`). Of a
settled function every pass answers no (`Pass.run_of_settled`).

Folding is told from the number of instructions, which every fold that counts makes smaller
(`Func.Shrunk`); folding branches and removing blocks from the blocks at hand; inserting
preheaders from the table of blocks, which grows.
-/

namespace SsaBackend

open Func

/-! ## Folding takes instructions away -/

/-- By `n` folds `g` came from `f`: it is `f` if there were none, and has fewer instructions
otherwise. -/
def Func.Shrunk (f : Func) (n : Nat) (g : Func) : Prop :=
  n = 0 ∧ g = f ∨ 0 < n ∧ g.instCount < f.instCount

namespace Func.Shrunk

variable {f g h : Func} {m n : Nat}

lemma refl (f : Func) : f.Shrunk 0 f := .inl ⟨rfl, rfl⟩

lemma instCount_le (hg : f.Shrunk n g) : g.instCount ≤ f.instCount := by
  rcases hg with ⟨-, rfl⟩ | ⟨-, hlt⟩
  · exact Nat.le_refl _
  · exact Nat.le_of_lt hlt

lemma trans (hg : f.Shrunk m g) (hh : g.Shrunk n h) : f.Shrunk (m + n) h := by
  rcases hh with ⟨rfl, rfl⟩ | ⟨hn, hlt⟩
  · exact hg
  · exact .inr ⟨by omega, Nat.lt_of_lt_of_le hlt hg.instCount_le⟩

lemma eq_iff (hg : f.Shrunk n g) : n = 0 ↔ g = f := by
  rcases hg with ⟨hn, he⟩ | ⟨hn, hlt⟩
  · exact ⟨fun _ => he, fun _ => hn⟩
  · refine ⟨fun h => absurd h (by omega), fun he => ?_⟩
    rw [he] at hlt
    exact absurd hlt (Nat.lt_irrefl _)

end Func.Shrunk

/-- The replacements that folding phis answers with are counted by the instructions. -/
lemma Func.shrunk_foldTrivialPhis (f : Func) (candidates : List InstId)
    (mayFold : InstId → Bool) :
    f.Shrunk (f.foldTrivialPhis candidates mayFold).2.length
      (f.foldTrivialPhis candidates mayFold).1 := by
  refine repeatUpTo_induct (fun s : PhiFold => f.Shrunk s.replaced.length s.func) ?_ _ _ (.refl f)
  intro s s' hs h
  obtain ⟨hfunc, hreplaced⟩ | ⟨i, same, node, -, hnode, -, hfunc, hreplaced⟩ :=
    PhiFold.step_cases h
  · rw [hfunc, hreplaced]
    exact hs
  · obtain ⟨b, hi⟩ := phi?_some hnode
    rw [hfunc, hreplaced, List.length_append]
    exact hs.trans (.inr ⟨Nat.one_pos, instCount_replaced same hi⟩)

namespace ConstantOps

variable {f : Func}

/-- What is replaced in a round is counted, and the first replacement of all takes away an
instruction that is there. -/
lemma shrunk_foldl_apply {cs : List (InstId × Value)} {s : Progress}
    (hcs : s.folded = 0 → ∀ c ∈ cs, ∃ p, f.inst? c.1 = some p)
    (hs : f.Shrunk s.folded s.func) :
    f.Shrunk (cs.foldl apply s).folded (cs.foldl apply s).func := by
  induction cs generalizing s with
  | nil => exact hs
  | cons c rest ih =>
    rw [List.foldl_cons]
    by_cases hgone : (c.2.inst?.any fun i => (s.func.inst? i).isNone) = true
    · have hsame : apply s c = s := if_pos hgone
      rw [hsame]
      exact ih (fun hn d hd => hcs hn d (List.mem_cons_of_mem _ hd)) hs
    · have happly : apply s c = ⟨(s.func.replaceUses c.1 c.2).removeInst c.1, s.folded + 1⟩ :=
        if_neg hgone
      rw [happly]
      refine ih (fun hn => absurd hn (Nat.succ_ne_zero _)) (.inr ⟨Nat.succ_pos _, ?_⟩)
      rcases hs with ⟨hn, hfunc⟩ | ⟨-, hlt⟩
      · obtain ⟨p, hp⟩ := hcs hn c List.mem_cons_self
        rw [hfunc]
        exact instCount_replaced c.2 hp
      · exact Nat.lt_of_le_of_lt (instCount_replaced_le ..) hlt

lemma shrunk_foldAll (f : Func) : f.Shrunk (foldAll f).folded (foldAll f).func := by
  refine repeatUpTo_induct (fun s : Progress => f.Shrunk s.folded s.func) ?_ _ _ (.refl f)
  intro s s' hs h
  unfold round at h
  split at h
  · cases h
  · cases h
    refine shrunk_foldl_apply (fun hn c hc => ?_) hs
    obtain ⟨-, -, p, -, -, hp, -⟩ := mem_candidates hc
    exact ⟨p, hs.eq_iff.1 hn ▸ hp⟩

/-- The pass counts its folds. -/
lemma shrunk_folded (f : Func) :
    f.Shrunk ((foldAll f).folded + (foldedPhis f).length) (folded f) :=
  (shrunk_foldAll f).trans (shrunk_foldTrivialPhis ..)

/-- No instruction has a value that is known. -/
def NoneFolds (f : Func) : Prop :=
  ∀ b bb, f.block? b = some bb → ∀ i ∈ bb.body, ∀ p, f.inst? i = some p → p.inst.fold? = none

/-- No phi is trivial. -/
def NoneTrivial (f : Func) : Prop :=
  ∀ b bb, f.block? b = some bb → ∀ i ∈ bb.phis, ∀ node, f.phi? i = some node →
    node.trivial? i = none

lemma candidates_eq_nil : candidates f = [] ↔ NoneFolds f := by
  constructor
  · intro h b bb hb i hi p hp
    cases hv : p.inst.fold? with
    | none => rfl
    | some v =>
      have hmem : (i, v) ∈ candidates f := by
        refine List.mem_filterMap.2 ⟨i, List.mem_flatMap.2 ⟨(b, bb), mem_liveBlocks.2 hb, hi⟩, ?_⟩
        rw [hp, Option.bind_some, hv, Option.map_some]
      rw [h] at hmem
      cases hmem
  · intro h
    refine List.eq_nil_iff_forall_not_mem.2 fun c hc => ?_
    obtain ⟨b, bb, p, hb, hi, hp, hfold⟩ := mem_candidates hc
    rw [h b bb hb c.1 hi p hp] at hfold
    cases hfold

/-- Where nothing folds the pass folds nothing. -/
lemma foldAll_of_noneFolds (h : NoneFolds f) : foldAll f = ⟨f, 0⟩ := by
  refine repeatUpTo_of_none ?_ _
  unfold round
  rw [show candidates (Progress.func ⟨f, 0⟩) = [] from candidates_eq_nil.2 h]

/-- What the pass leaves has no trivial phi. -/
lemma noneTrivial_folded (f : Func) : NoneTrivial (folded f) := by
  intro b bb hb i hi node hnode
  have hsettled : ∀ i ∈ (folded f).phiIds, true = true → ∀ node,
      (folded f).phi? i = some node → node.trivial? i = none :=
    foldTrivialPhis_settles fun j hj _ hnot => absurd hj hnot
  exact hsettled i (mem_phiIds.2 ⟨b, bb, hb, hi⟩) rfl node hnode

/-- The pass answers no if it had nothing to do, and leaves another function if it answers yes. -/
lemma run_answers (s : Session) :
    ConstantOps.run.Ends s (fun changed s' =>
      (changed = false → s'.func = s.func ∧ NoneFolds s.func ∧ NoneTrivial s.func) ∧
      (changed = true → s'.func ≠ s.func)) fun _ => True := by
  refine (run_ends s).mono ?_ fun _ _ => trivial
  rintro changed s' ⟨-, hfunc, hnone, rfl⟩
  have hcount := shrunk_folded s.func
  rw [← hfunc] at hcount
  refine ⟨fun hno => ?_, fun hyes he => ?_⟩
  · have hzero := of_decide_eq_false hno
    have hsame := hcount.eq_iff.1 (by omega)
    -- neither a phi was folded nor a round replaced anything
    have hphis : folded s.func = (foldAll s.func).func := by
      refine (shrunk_foldTrivialPhis ..).eq_iff.1 ?_
      show (foldedPhis s.func).length = 0
      omega
    have hrounds : (foldAll s.func).func = s.func := by
      rw [← hphis, ← hfunc, hsame]
    have htrivial := noneTrivial_folded s.func
    rw [← hfunc, hsame] at htrivial
    exact ⟨hsame, candidates_eq_nil.1 (hrounds ▸ hnone), htrivial⟩
  · have hzero := hcount.eq_iff.2 he
    have hpos := of_decide_eq_true hyes
    omega

/-- Where nothing folds and no phi is trivial, the pass ends well and answers no. -/
lemma run_of_settled {s : Session} (hfolds : NoneFolds s.func) (htrivial : NoneTrivial s.func) :
    ConstantOps.run.Meets s (fun changed s' => changed = false ∧ s'.func = s.func ∧
      s'.cache = s.cache) fun _ => False := by
  unfold ConstantOps.run
  refine Work.Meets.get_bind ?_
  rw [foldAll_of_noneFolds hfolds]
  dsimp only
  rw [candidates_eq_nil.2 hfolds, foldTrivialPhis_of_settled fun i hi _ => ?_]
  · exact Work.Meets.modify_bind (Work.Meets.of_pure ⟨rfl, rfl, rfl⟩)
  · obtain ⟨b, bb, hb, hi⟩ := mem_phiIds.1 hi
    exact htrivial b bb hb i hi

end ConstantOps

/-! ## The passes -/

namespace Pass

/-- The pass has nothing to do: no instruction has a value that is known and no phi is trivial; no
branch has a constant as its condition; every block is reached; every loop that is entered from
outside has a preheader; every loop has one, and nothing in it is invariant. -/
def Settled (p : Pass) (f : Func) : Prop :=
  match p with
  | .constantOps => ConstantOps.NoneFolds f ∧ ConstantOps.NoneTrivial f
  | .branchFold => ∀ b c t e, f.terminator? b ≠ some (.branch (.const c) t e)
  | .deadBlocks => f.AllReached
  | .preheaders => Preheaders.candidate? f (f.loopForest f.cfg.domTree) = none
  | .hoist => Hoist.Settled f

variable {p : Pass} {s : Session}

lemma candidates_branchFold {f : Func} :
    BranchFold.candidates f = [] ↔ Pass.branchFold.Settled f := by
  constructor
  · intro h b c t e hterm
    obtain ⟨bb, hb, ht⟩ := Option.bind_eq_some_iff.1 hterm
    have hmem : (if c.isTrue then ⟨b, t, e⟩ else ⟨b, e, t⟩) ∈ BranchFold.candidates f := by
      refine List.mem_filterMap.2 ⟨(b, bb), mem_liveBlocks.2 hb, ?_⟩
      rw [ht]
      rfl
    rw [h] at hmem
    cases hmem
  · intro h
    refine List.eq_nil_iff_forall_not_mem.2 fun c hc => ?_
    obtain ⟨bb, k, t, e, hb, ht, -⟩ := BranchFold.mem_candidates hc
    exact h c.block k t e ((terminator?_of_block hb).trans ht)

lemma dead_eq_nil {f : Func} (hf : f.EdgesAgree) :
    DeadBlocks.dead f (f.cfg.reachable f.entry.index) = [] ↔ Pass.deadBlocks.Settled f := by
  rw [List.eq_nil_iff_forall_not_mem]
  constructor
  · intro h b bb hb
    by_contra hreach
    exact h b ((DeadBlocks.mem_dead hf.consistent).2 ⟨hasBlock_of_block hb, hreach⟩)
  · intro h b hb
    obtain ⟨hhas, hreach⟩ := (DeadBlocks.mem_dead hf.consistent).1 hb
    obtain ⟨bb, hbb⟩ := Option.isSome_iff_exists.1 hhas
    exact hreach (h b bb hbb)

/-- A pass that answers no had nothing to do and left everything as it was; one that answers yes
leaves another function. -/
lemma run_answers (hf : s.func.EdgesAgree) (hfresh : s.cache.FreshFor s.func) :
    p.run.Ends s (fun changed s' =>
      (changed = false → s'.func = s.func ∧ p.Settled s.func) ∧
      (changed = true → s.func.BodiesPlaced → s'.func ≠ s.func)) fun _ => True := by
  cases p with
  | constantOps =>
    exact (ConstantOps.run_answers s).mono (fun _ _ h => ⟨h.1, fun hyes _ => h.2 hyes⟩)
      fun _ h => h
  | branchFold =>
    refine (BranchFold.run_ends hf).ends.mono ?_ fun _ h => h
    rintro changed s' ⟨-, -, hchanged, hsame, hjumps⟩
    refine ⟨fun hno => ⟨hsame hno, ?_⟩, fun hyes _ he => ?_⟩
    · rw [← candidates_branchFold]
      simpa [hno] using hchanged
    · -- a branch that was folded is a jump now
      rw [hyes] at hchanged
      have hne : BranchFold.candidates s.func ≠ [] := by simpa using hchanged.symm
      obtain ⟨c, hc⟩ := List.exists_mem_of_ne_nil _ hne
      obtain ⟨bb, k, t, e, hb, ht, -⟩ := BranchFold.mem_candidates hc
      obtain ⟨d, hd⟩ := hjumps c hc
      rw [he] at hd
      unfold terminator? at hd
      rw [hb, Option.bind_some, ht] at hd
      cases hd
  | deadBlocks =>
    refine (DeadBlocks.run_ends hf).ends.mono ?_ fun _ h => h
    rintro changed s' ⟨-, -, hchanged, hsame, hgone⟩
    refine ⟨fun hno => ⟨hsame hno, ?_⟩, fun hyes _ he => ?_⟩
    · rw [← dead_eq_nil hf]
      simpa [hno] using hchanged
    · rw [hyes] at hchanged
      have hne : DeadBlocks.dead s.func (s.func.cfg.reachable s.func.entry.index) ≠ [] := by
        simpa using hchanged.symm
      obtain ⟨b, hb⟩ := List.exists_mem_of_ne_nil _ hne
      have hno := hgone b hb
      rw [he, ((DeadBlocks.mem_dead hf.consistent).1 hb).1] at hno
      cases hno
  | preheaders =>
    refine (Preheaders.run_ends hf hfresh).mono ?_ fun _ _ => trivial
    rintro changed s' ⟨-, -, hsame, hgrown⟩
    refine ⟨hsame, fun hyes _ he => ?_⟩
    have hlt := hgrown hyes
    rw [he] at hlt
    exact absurd hlt (Nat.lt_irrefl _)
  | hoist => exact Hoist.run_counts hf hfresh

/-- A pass that has nothing to do ends well and answers no. -/
lemma run_of_settled (hf : s.func.EdgesAgree) (hfresh : s.cache.FreshFor s.func)
    (hp : p.Settled s.func) :
    p.run.Meets s (fun changed s' => changed = false ∧ s'.func = s.func ∧
      s'.cache.FreshFor s'.func) fun _ => False := by
  cases p with
  | constantOps =>
    refine (ConstantOps.run_of_settled hp.1 hp.2).mono ?_ fun _ h => h
    rintro changed s' ⟨hchanged, hfunc, hcache⟩
    exact ⟨hchanged, hfunc, hfunc ▸ hcache ▸ hfresh⟩
  | branchFold =>
    refine (BranchFold.run_ends hf).mono ?_ fun _ h => h
    rintro changed s' ⟨hcache, -, hchanged, hsame, -⟩
    rw [candidates_branchFold.2 hp] at hchanged
    have hfunc := hsame hchanged
    exact ⟨hchanged, hfunc, hfunc ▸ hcache ▸ hfresh⟩
  | deadBlocks =>
    refine (DeadBlocks.run_ends hf).mono ?_ fun _ h => h
    rintro changed s' ⟨hcache, -, hchanged, hsame, -⟩
    rw [(dead_eq_nil hf).2 hp] at hchanged
    have hfunc := hsame hchanged
    exact ⟨hchanged, hfunc, hfunc ▸ hcache ▸ hfresh⟩
  | preheaders =>
    show Preheaders.run.Meets _ _ _
    unfold Preheaders.run
    refine Work.Meets.get_bind ?_
    unfold Preheaders.insertAll
    refine Work.Meets.bind (Q := fun count s' => count = 0 ∧ s'.func = s.func ∧
      s'.cache.FreshFor s'.func) ?_ ?_
    · refine (Session.loops_meets hf.consistent hfresh _).bind ?_
      rintro lf s₁ ⟨rfl, hfunc, hfresh₁⟩
      refine Work.Meets.get_bind ?_
      rw [hfunc, show Preheaders.candidate? s.func _ = none from hp]
      exact Work.Meets.of_pure ⟨rfl, hfunc, hfunc ▸ hfresh₁⟩
    · rintro count s₁ ⟨rfl, h⟩
      exact Work.Meets.of_pure ⟨rfl, h⟩
  | hoist => exact Hoist.run_of_settled hf hfresh hp

end Pass

end SsaBackend
