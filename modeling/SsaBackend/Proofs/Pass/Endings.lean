import SsaBackend.Proofs.Hoist.Clean
import SsaBackend.Proofs.Pass.ConstantOps
import SsaBackend.Proofs.Pass.Edges
import SsaBackend.Proofs.Preheader.Edges

/-!
# How passes end

What each pass leaves behind, however it ends, of a function about which no more is known than
that every edge is listed at both ends. Folding constants and hoisting keep the shape of the
function; the other passes keep the edges listed at both ends. So no lookup of a block fails in
the middle of an edit, and a pass is refused only between edits: folding constants if it would
never end, inserting preheaders likewise, hoisting if a preheader is missing or an instruction
cannot be moved.

Each lemma also says what the answer of the pass means: what was found to do, and what of it shows
in the function afterwards.
-/

namespace SsaBackend

open Func

/-! ## Constant operations -/

namespace ConstantOps

/-- What every replacement keeps, the rounds keep. -/
lemma foldAll_kept {f : Func} (P : Func → Prop)
    (hstep : ∀ f i v, P f → P ((f.replaceUses i v).removeInst i)) (hstart : P f) :
    P (foldAll f).func := by
  have happly : ∀ (l : List (InstId × Value)) (s : Progress), P s.func →
      P (l.foldl apply s).func := by
    intro l
    induction l with
    | nil => exact fun _ hs => hs
    | cons c rest ih =>
      intro s hs
      refine ih _ ?_
      rcases apply_cases s c with he | ⟨-, he⟩
      · rw [he]
        exact hs
      · rw [he]
        exact hstep _ c.1 c.2 hs
  refine repeatUpTo_induct (fun s : Progress => P s.func) (fun s s' hs hround => ?_) _ _ hstart
  unfold round at hround
  split at hround
  · cases hround
  · cases hround
    exact happly _ _ hs

lemma sameShape_foldAll (f : Func) : SameShape f (foldAll f).func :=
  foldAll_kept (SameShape f) (fun g i v hg => hg.trans (sameShape_replaced g i v)) (.refl f)

lemma sameShape_folded (f : Func) : SameShape f (folded f) :=
  (sameShape_foldAll f).trans (sameShape_foldTrivialPhis ..)

/-- The phis that the pass folds once the rounds are over. -/
def foldedPhis (f : Func) : List Replacement :=
  ((foldAll f).func.foldTrivialPhis (foldAll f).func.phiIds fun _ => true).2

/-- The pass ends when nothing is left to fold, and answers whether it replaced anything. -/
lemma run_ends (s : Session) :
    ConstantOps.run.Ends s (fun changed s' => s'.cache = s.cache ∧ s'.func = folded s.func ∧
      candidates (foldAll s.func).func = [] ∧
      changed = decide ((foldAll s.func).folded + (foldedPhis s.func).length > 0))
      fun s' => s' = s := by
  unfold ConstantOps.run
  refine Work.Ends.get_bind ?_
  dsimp only
  split
  · exact Work.Ends.of_throw rfl
  · rename_i hleft
    have hnone : candidates (foldAll s.func).func = [] := by simpa using hleft
    refine Work.Ends.modify_bind ?_
    split
    · exact Work.Ends.modify_bind (Work.Ends.of_pure ⟨rfl, rfl, hnone, rfl⟩)
    · exact Work.Ends.of_pure ⟨rfl, rfl, hnone, rfl⟩

end ConstantOps

/-! ## Branches -/

namespace BranchFold

variable {f g : Func} {c : Candidate}

/-- The branch has its two targets as successors, and no others. -/
structure Forks (f : Func) (c : Candidate) : Prop where
  taken : c.taken ∈ f.succs c.block
  only : ∀ s ∈ f.succs c.block, s = c.taken ∨ s = c.untaken

lemma forks_of_mem (h : c ∈ candidates f) : Forks f c :=
  ⟨(goesTo_of_mem h).mem_succs, (pending_candidates f).only c h⟩

/-- What folding one branch does to the edges. -/
structure Cuts (f g : Func) (c : Candidate) : Prop where
  succs : ∀ b, g.succs b = if b = c.block then [c.taken] else f.succs b
  preds : ∀ b p, p ∈ g.preds b ↔
    p ∈ f.preds b ∧ ¬ (b = c.untaken ∧ p = c.block ∧ c.untaken ≠ c.taken)
  once : (∀ b, (f.preds b).Nodup) → ∀ b, (g.preds b).Nodup
  blocks : ∀ b, g.hasBlock b = f.hasBlock b
  jump : g.terminator? c.block = some (.jump c.taken)
  others : ∀ b d, b ≠ c.block → f.terminator? b = some (.jump d) →
    g.terminator? b = some (.jump d)

lemma fold_cuts (hc : Forks f c) : Cuts f (fold f c).1 c := by
  obtain ⟨bb, hb⟩ := exists_block_of_succ hc.taken
  have hjsuccs := fun b => @jumping_succs f c.block c.taken ⟨bb, hb⟩ b
  have hjpreds := fun b => @jumping_preds f c.block c.taken b
  have hjblocks := fun b => hasBlock_modifyBlock f c.block
    ({ · with terminator := some (.jump c.taken) }) b
  have hjump : (f.jumping c.block c.taken).terminator? c.block = some (.jump c.taken) := by
    unfold terminator?
    rw [jumping_block, if_pos rfl, hb]
    rfl
  have hothers : ∀ b d, b ≠ c.block → f.terminator? b = some (.jump d) →
      (f.jumping c.block c.taken).terminator? b = some (.jump d) := by
    intro b d hne h
    unfold terminator? at h ⊢
    rwa [jumping_block, if_neg (Ne.symm hne)]
  rw [fold_eq]
  by_cases hsame : c.untaken = c.taken
  · rw [if_pos hsame]
    refine ⟨hjsuccs, fun b p => ?_, fun hn b => ?_, hjblocks, hjump, hothers⟩
    · rw [hjpreds]
      exact ⟨fun hp => ⟨hp, fun hcut => hcut.2.2 hsame⟩, fun hp => hp.1⟩
    · rw [hjpreds]
      exact hn b
  · rw [if_neg hsame]
    have hun := removePred_unlinks (f.jumping c.block c.taken) c.untaken c.block
    have hkept : ∀ b d, (f.jumping c.block c.taken).terminator? b = some (.jump d) →
        ((f.jumping c.block c.taken).removePred c.untaken c.block).1.terminator? b =
          some (.jump d) := by
      intro b d h
      unfold removePred
      split
      · exact h
      · refine foldTrivialPhis_kept (fun g => g.terminator? b = some (.jump d))
          (fun g i v hg => by rw [terminator?_replaced, hg]; rfl) ?_ _ _
        exact (unlinked_terminator b).trans h
    refine ⟨fun b => (hun.succs b).trans (hjsuccs b), fun b p => ?_, fun hn => ?_,
      fun b => (hun.blocks b).trans (hjblocks b), hkept _ _ hjump,
      fun b d hne h => hkept b d (hothers b d hne h)⟩
    · rw [hun.preds, hjpreds]
      refine and_congr_right fun _ => not_congr ?_
      exact ⟨fun h => ⟨h.1, h.2, hsame⟩, fun h => ⟨h.1, h.2.1⟩⟩
    · refine hun.once fun b => ?_
      rw [hjpreds]
      exact hn b

lemma Cuts.edgesAgree (h : Cuts f g c) (hc : Forks f c) (hf : f.EdgesAgree) : g.EdgesAgree := by
  refine ⟨(h.blocks _).trans hf.entry, fun b s => ?_, h.once hf.once⟩
  rw [h.succs, h.preds, ← hf.linked b s]
  split
  · rename_i hb
    subst hb
    rw [List.mem_singleton]
    constructor
    · rintro rfl
      exact ⟨hc.taken, fun hcut => hcut.2.2 hcut.1.symm⟩
    · rintro ⟨hs, hnot⟩
      rcases hc.only s hs with rfl | rfl
      · rfl
      · by_contra hne
        exact hnot ⟨rfl, rfl, hne⟩
  · rename_i hb
    exact ⟨fun hs => ⟨hs, fun hcut => hb hcut.2.1⟩, fun hs => hs.1⟩

/-- Candidates keep their targets when one is folded. -/
lemma Cuts.forks (h : Cuts f g c) {c' : Candidate} (hc' : Forks f c')
    (hunique : c'.block = c.block → c' = c) : Forks g c' := by
  constructor
  · rw [h.succs]
    split
    · rename_i he
      rw [hunique he]
      exact List.mem_singleton_self _
    · exact hc'.taken
  · intro s hs
    rw [h.succs] at hs
    split at hs
    · rename_i he
      rw [hunique he]
      exact .inl (List.mem_singleton.1 hs)
    · exact hc'.only s hs

/-- The pass ends well, answers whether there was a branch to fold, and keeps what folding one
branch keeps. -/
lemma run_keeps {s : Session} (hf : s.func.EdgesAgree) (P : Func → Prop)
    (hstep : ∀ f c, Forks f c → P f → P (fold f c).1) (hP : P s.func) :
    BranchFold.run.Meets s (fun changed s' => P s'.func ∧ s'.cache = s.cache ∧
      s'.func.EdgesAgree ∧ changed = !(candidates s.func).isEmpty ∧
      (changed = false → s'.func = s.func) ∧
      ∀ c ∈ candidates s.func, ∃ d, s'.func.terminator? c.block = some (.jump d))
      fun _ => False := by
  have hunique := (pending_candidates s.func).unique
  refine (run_meets (fun rest g => P g ∧ g.EdgesAgree ∧ (∀ c ∈ candidates s.func, Forks g c) ∧
    ∀ c ∈ candidates s.func, c ∈ rest ∨ ∃ d, g.terminator? c.block = some (.jump d))
    ⟨hP, hf, fun c hc => forks_of_mem hc, fun c hc => .inl hc⟩ ?_).mono ?_ fun _ h => h
  · rintro c rest g hc ⟨hPg, hagree, hforks, hjumps⟩
    have hcuts := fold_cuts (hforks c hc)
    refine ⟨hstep _ c (hforks c hc) hPg, hcuts.edgesAgree (hforks c hc) hagree,
      fun c' hc' => hcuts.forks (hforks c' hc') (hunique c' hc' c hc), fun c' hc' => ?_⟩
    by_cases he : c'.block = c.block
    · exact .inr ⟨c.taken, he ▸ hcuts.jump⟩
    · -- a fold touches no other block, so what still waits and what is a jump already stay so
      rcases hjumps c' hc' with hmem | ⟨d, hd⟩
      · refine .inl ((List.mem_cons.1 hmem).resolve_left fun hcc => he ?_)
        rw [hcc]
      · exact .inr ⟨d, hcuts.others _ d he hd⟩
  · rintro changed s' ⟨⟨hPs, hagree, -, hjumps⟩, hcache, hchanged, hsame⟩
    exact ⟨hPs, hcache, hagree, hchanged, hsame,
      fun c hc => (hjumps c hc).resolve_left List.not_mem_nil⟩

/-- The pass ends well, and answers whether there was a branch to fold. -/
lemma run_ends {s : Session} (hf : s.func.EdgesAgree) :
    BranchFold.run.Meets s (fun changed s' => s'.cache = s.cache ∧ s'.func.EdgesAgree ∧
      changed = !(candidates s.func).isEmpty ∧ (changed = false → s'.func = s.func) ∧
      ∀ c ∈ candidates s.func, ∃ d, s'.func.terminator? c.block = some (.jump d))
      fun _ => False :=
  (run_keeps hf (fun _ => True) (fun _ _ _ _ => trivial) trivial).mono (fun _ _ h => h.2)
    fun _ h => h

end BranchFold

/-! ## Blocks -/

namespace DeadBlocks

variable {f g : Func}

/-- Blocks out of reach are being removed, with `rest` still to come: edges lead to blocks that
are gone only from blocks that are to come. -/
structure Clearing (f g : Func) (rest : List BlockId) : Prop where
  waits : ∀ b, b ∈ rest ↔ g.hasBlock b = true ∧ ¬ f.Reached b
  listed : rest.Nodup
  edges : ∀ b, g.hasBlock b = true → g.succs b = f.succs b
  sound : ∀ b p, p ∈ g.preds b → b ∈ g.succs p
  whole : ∀ b s, s ∈ g.succs b → b ∈ g.preds s ∨ g.hasBlock s = false
  once : ∀ b, (g.preds b).Nodup
  stays : ∀ b, f.Reached b → g.hasBlock b = f.hasBlock b

lemma Clearing.step {b : BlockId} {rest : List BlockId} (h : Clearing f g (b :: rest)) :
    ∃ r, g.removeBlock b = .ok r ∧ Clearing f r.1 rest := by
  obtain ⟨hb, hdead⟩ := (h.waits b).1 List.mem_cons_self
  have hne : b ≠ g.entry := by
    rintro rfl
    exact hdead Reaches.init
  obtain ⟨r, hrun, hdel⟩ := removeBlock_deletes hb hne
  obtain ⟨hnot, hnodup⟩ := List.nodup_cons.1 h.listed
  have hblocks : ∀ c, r.1.hasBlock c = true ↔ g.hasBlock c = true ∧ b ≠ c := by
    intro c
    rw [hdel.blocks, Bool.and_eq_true, decide_eq_true_eq]
  refine ⟨r, hrun, fun c => ?_, hnodup, fun c hc => ?_, fun c p hp => ?_, fun c s hs => ?_,
    hdel.once h.once, fun c hc => ?_⟩
  · rw [hblocks, and_right_comm, ← h.waits c, List.mem_cons]
    constructor
    · intro hc
      exact ⟨.inr hc, fun he => hnot (he ▸ hc)⟩
    · rintro ⟨hc, hne⟩
      exact hc.resolve_left (Ne.symm hne)
  · obtain ⟨hc, hne⟩ := (hblocks c).1 hc
    rw [hdel.succs, if_neg hne, h.edges c hc]
  · obtain ⟨-, hp, hcut⟩ := (hdel.preds c p).1 hp
    have hs := h.sound c p hp
    rw [hdel.succs]
    split
    · rename_i he
      subst he
      exact absurd ⟨hs, rfl⟩ hcut
    · exact hs
  · rw [hdel.succs] at hs
    split at hs
    · cases hs
    · rename_i hbc
      rcases h.whole c s hs with hp | hgone
      · -- an edge to the removed block leads nowhere; the others are listed as before
        by_cases hbs : b = s
        · subst hbs
          right
          rw [hdel.blocks]
          simp
        · exact .inl ((hdel.preds s c).2 ⟨hbs, hp, fun hcut => hbc hcut.2.symm⟩)
      · right
        rw [hdel.blocks, hgone]
        rfl
  · have hbc : b ≠ c := fun he => hdead (he ▸ hc)
    rw [hdel.blocks, h.stays c hc, decide_eq_true hbc, Bool.and_true]

/-- When nothing is to come, every edge is listed at both ends. -/
lemma Clearing.edgesAgree (h : Clearing f g []) (hf : f.EdgesAgree) : g.EdgesAgree := by
  have hreach : ∀ b, g.hasBlock b = true → f.Reached b := by
    intro b hb
    by_contra hdead
    exact absurd ((h.waits b).2 ⟨hb, hdead⟩) List.not_mem_nil
  refine ⟨?_, fun b s => ⟨fun hs => ?_, h.sound s b⟩, h.once⟩
  · exact (h.stays _ Reaches.init).trans hf.entry
  · refine (h.whole b s hs).resolve_right fun hgone => ?_
    have hold : s ∈ f.succs b := h.edges b (hasBlock_of_succs hs) ▸ hs
    have hsr : f.Reached s := (hreach b (hasBlock_of_succs hs)).step (edge_iff.2 hold)
    rw [h.stays s hsr, hf.hasBlock_succ hold] at hgone
    cases hgone

/-- The pass removes the blocks out of reach, and answers whether there was one. -/
lemma run_clears {s : Session} (hf : s.func.EdgesAgree) :
    DeadBlocks.run.Meets s (fun changed s' => s'.cache = s.cache ∧ Clearing s.func s'.func [] ∧
      changed = !(dead s.func (s.func.cfg.reachable s.func.entry.index)).isEmpty ∧
      (changed = false → s'.func = s.func) ∧
      ∀ b ∈ dead s.func (s.func.cfg.reachable s.func.entry.index), s'.func.hasBlock b = false)
      fun _ => False := by
  have hg := hf.consistent
  have hmem : ∀ b, b ∈ dead s.func (s.func.cfg.reachable s.func.entry.index) ↔
      s.func.hasBlock b = true ∧ ¬ s.func.Reached b := fun b => mem_dead hg
  have hlisted : (dead s.func (s.func.cfg.reachable s.func.entry.index)).Nodup :=
    (nodup_blockIds _).filter _
  have hstart : Clearing s.func s.func (dead s.func (s.func.cfg.reachable s.func.entry.index)) :=
    ⟨hmem, hlisted, fun _ _ => rfl, fun b p => (hf.linked p b).2,
      fun b t ht => .inl ((hf.linked b t).1 ht), hf.once, fun _ _ => rfl⟩
  refine (run_meets hg rfl (fun rest g => Clearing s.func g rest) hstart
    fun b rest g h => h.step).mono ?_ fun _ h => h
  rintro changed s' ⟨hclear, hcache, hchanged, hsame⟩
  refine ⟨hcache, hclear, hchanged, hsame, fun b hb => ?_⟩
  -- a block out of reach that is still there would be waiting
  by_contra hlive
  have hdead := ((hmem b).1 hb).2
  exact absurd ((hclear.waits b).2 ⟨by simpa using hlive, hdead⟩) List.not_mem_nil

/-- The pass ends well, with every edge listed at both ends. -/
lemma run_ends {s : Session} (hf : s.func.EdgesAgree) :
    DeadBlocks.run.Meets s (fun changed s' => s'.cache = s.cache ∧ s'.func.EdgesAgree ∧
      changed = !(dead s.func (s.func.cfg.reachable s.func.entry.index)).isEmpty ∧
      (changed = false → s'.func = s.func) ∧
      ∀ b ∈ dead s.func (s.func.cfg.reachable s.func.entry.index), s'.func.hasBlock b = false)
      fun _ => False :=
  (run_clears hf).mono (fun _ _ ⟨hcache, hclear, hrest⟩ => ⟨hcache, hclear.edgesAgree hf, hrest⟩)
    fun _ h => h

end DeadBlocks

/-! ## Preheaders -/

namespace Preheaders

/-- A candidate is the header of a loop with its predecessors outside, of which there are some. -/
lemma leads_of_candidate {f : Func} {lf : LoopForest} {c : Candidate} (hf : f.EdgesAgree)
    (h : candidate? f lf = some c) : Leads f c.header c.outside := by
  unfold candidate? at h
  obtain ⟨l, -, hl⟩ := List.exists_of_findSome?_eq_some h
  dsimp only at hl
  split at hl
  · rename_i hneed
    cases hl
    rw [Bool.and_eq_true, Bool.not_eq_true', List.isEmpty_eq_false_iff] at hneed
    exact ⟨hf, fun p hp => (List.mem_filter.1 hp).1, (hf.once _).filter _, hneed.2⟩
  · cases hl

/-- Preheaders are inserted between two looks at the loops, and the answer is how many. -/
lemma insertAll_ends (bound : Nat) {s : Session} (hf : s.func.EdgesAgree)
    (hfresh : s.cache.FreshFor s.func) :
    (insertAll bound).Ends s (fun count s' => s'.func.EdgesAgree ∧ s'.cache.FreshFor s'.func ∧
      (count = 0 → s'.func = s.func ∧
        candidate? s.func (s.func.loopForest s.func.cfg.domTree) = none) ∧
      (0 < count → s.func.blockCapacity < s'.func.blockCapacity))
      fun s' => s'.cache.FreshFor s'.func := by
  induction bound generalizing s with
  | zero => exact Work.Ends.of_throw hfresh
  | succ bound ih =>
    unfold insertAll
    refine (Session.loops_meets hf.consistent hfresh _).ends.bind ?_
    rintro lf s₁ ⟨rfl, hfunc, hfresh₁⟩
    refine Work.Ends.get_bind ?_
    rw [hfunc]
    split
    · rename_i hnone
      refine Work.Ends.of_pure ?_
      rw [hfunc]
      exact ⟨hf, hfresh₁, fun _ => ⟨rfl, hnone⟩, fun hlt => absurd hlt (Nat.lt_irrefl 0)⟩
    · rename_i c hsome
      have hleads := leads_of_candidate hf hsome
      have hlive : ∀ p ∈ c.outside, s₁.func.hasBlock p = true := by
        intro p hp
        rw [hfunc]
        exact hf.hasBlock_pred (hleads.preds p hp)
      refine (insert_meets hlive _).ends.bind fun pre s₂ hs₂ => ?_
      rw [hfunc] at hs₂
      refine Work.Ends.modify_bind (Work.Ends.modify_bind ?_)
      have hagree : s₂.func.EdgesAgree := hs₂ ▸ edgesAgree_withPreheader hleads
      refine (ih (s := { s₂ with cache := .empty, journal := _ }) hagree
        (Cache.FreshFor.empty _)).bind fun count s₃ hs₃ => Work.Ends.of_pure ?_
      obtain ⟨hagree₃, hfresh₃, hsame, hmore⟩ := hs₃
      refine ⟨hagree₃, hfresh₃, fun h => absurd h (Nat.succ_ne_zero _), fun _ => ?_⟩
      have hgrown : s.func.blockCapacity < s₂.func.blockCapacity := by
        rw [hs₂, hleads.led.capacity]
        exact Nat.lt_succ_self _
      by_cases hzero : count = 0
      · rw [(hsame hzero).1]
        exact hgrown
      · exact Nat.lt_trans hgrown (hmore (Nat.pos_of_ne_zero hzero))

/-- The pass answers whether it inserted a block. -/
lemma run_ends {s : Session} (hf : s.func.EdgesAgree) (hfresh : s.cache.FreshFor s.func) :
    Preheaders.run.Ends s (fun changed s' => s'.func.EdgesAgree ∧ s'.cache.FreshFor s'.func ∧
      (changed = false → s'.func = s.func ∧
        candidate? s.func (s.func.loopForest s.func.cfg.domTree) = none) ∧
      (changed = true → s.func.blockCapacity < s'.func.blockCapacity))
      fun s' => s'.cache.FreshFor s'.func := by
  unfold Preheaders.run
  refine Work.Ends.get_bind ((insertAll_ends _ hf hfresh).bind fun count s' hs' =>
    Work.Ends.of_pure ?_)
  obtain ⟨hagree, hfresh', hsame, hmore⟩ := hs'
  refine ⟨hagree, hfresh', fun h => hsame ?_, fun h => hmore ?_⟩
  · have := of_decide_eq_false h
    omega
  · exact of_decide_eq_true h

end Preheaders

/-! ## Hoisting -/

namespace Hoist

/-- A move keeps the shape, and one that is refused leaves everything as it is. -/
lemma hoistInst_ends (l : Loop) (pre b : BlockId) (count : Nat) (i : InstId) (s : Session) :
    (hoistInst l pre b count i).Ends s
      (fun _ s' => SameShape s.func s'.func ∧ s'.cache = s.cache) fun s' => s' = s := by
  unfold hoistInst
  refine Work.Ends.get_bind ?_
  dsimp only
  split
  · refine Work.Ends.ofExcept_bind (fun g hmove => ?_) rfl
    obtain ⟨p, hm⟩ := moveInst_ok hmove
    exact Work.Ends.modify_bind (Work.Ends.modify_bind
      (Work.Ends.of_pure ⟨Hoisting.sameShape hm, rfl⟩))
  · exact Work.Ends.of_pure ⟨.refl _, rfl⟩

/-- The pass keeps the shape of the function, however it ends. -/
lemma run_ends {s : Session} (hf : s.func.EdgesAgree) (hfresh : s.cache.FreshFor s.func) :
    Hoist.run.Ends s (fun _ s' => SameShape s.func s'.func ∧ s'.cache.FreshFor s'.func)
      fun s' => s'.cache.FreshFor s'.func := by
  refine run_ends_of_loops hf.consistent hfresh
    (P := fun _ g cache => SameShape s.func g ∧ cache.FreshFor g) fun s₁ hfunc hfresh₁ => ?_
  rw [← hfunc] at hfresh₁
  -- what the loops hand on: the shape stays, and the cache is not touched
  let Kept (s' : Session) : Prop := SameShape s₁.func s'.func ∧ s'.cache = s₁.cache
  have hkept : ∀ s', Kept s' → s'.cache.FreshFor s'.func :=
    fun s' hs' => (hs'.2 ▸ hfresh₁).sameShape hs'.1
  refine (Work.Ends.foldlM (fun _ _ s' => Kept s') ?_ _ 0 ⟨.refl _, rfl⟩).mono
    (fun _ s₂ h₂ => ⟨hfunc ▸ h₂.1, hkept _ h₂⟩) fun _ h => h
  intro count l _ s₂ h₂
  unfold hoistLoop
  split
  · exact Work.Ends.of_throw (hkept _ h₂)
  · rename_i pre _
    refine Work.Ends.foldlM (fun _ _ s' => Kept s') ?_ _ count h₂
    intro count b _ s₃ h₃
    unfold hoistBlock
    refine Work.Ends.get_bind (Work.Ends.foldlM (fun _ _ s' => Kept s') ?_ _ count h₃)
    intro count i _ s₄ h₄
    refine (hoistInst_ends l pre b count i s₄).mono (fun _ s₅ h₅ => ?_) fun s₅ h₅ => ?_
    · exact ⟨h₄.1.trans h₅.1, h₅.2.trans h₄.2⟩
    · rw [h₅]
      exact hkept _ h₄

end Hoist

end SsaBackend
