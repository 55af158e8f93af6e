import SsaBackend.Pass.BranchFold
import SsaBackend.Pass.DeadBlocks
import SsaBackend.Proofs.Func.Folding
import SsaBackend.Proofs.Graph.Dominators
import SsaBackend.Proofs.Graph.Reachability

/-!
# Folding branches and removing blocks keep a function sound

Both passes take edges away. A folded branch leaves one edge (`BranchFold.run_folds`); removing
the blocks out of reach leaves a function all of whose blocks are reached
(`DeadBlocks.run_removes`). The loops of both passes edit one block at a time, and between two
edits every loose end belongs to a block that is still to come (`BranchFold.Folding`,
`DeadBlocks.Removing`).
-/

namespace SsaBackend

open Func

/-! ## Branches on constants -/

namespace BranchFold

variable {f g : Func} {cs : List Candidate} {c : Candidate}

/-- Each of the branches goes to the one of its two targets that is taken, and a block has one. -/
structure Pending (f : Func) (cs : List Candidate) : Prop where
  goes : ∀ c ∈ cs, f.GoesTo c.block c.taken
  only : ∀ c ∈ cs, ∀ s ∈ f.succs c.block, s = c.taken ∨ s = c.untaken
  unique : ∀ c ∈ cs, ∀ c' ∈ cs, c.block = c'.block → c = c'

lemma mem_candidates (h : c ∈ candidates f) :
    ∃ bb k t e, f.block? c.block = some bb ∧ bb.terminator = some (.branch (.const k) t e) ∧
      c = if k.isTrue then ⟨c.block, t, e⟩ else ⟨c.block, e, t⟩ := by
  unfold candidates at h
  obtain ⟨⟨b, bb⟩, hb, hc⟩ := List.mem_filterMap.1 h
  obtain ⟨t, ht, hc⟩ := Option.bind_eq_some_iff.1 hc
  unfold candidate? at hc
  split at hc
  · rename_i k t e
    have hblock : c.block = b := by
      rw [← Option.some.inj hc]
      split <;> rfl
    refine ⟨bb, k, t, e, hblock ▸ mem_liveBlocks.1 hb, ht, ?_⟩
    rw [hblock]
    exact (Option.some.inj hc).symm
  · cases hc

/-- A branch on a constant goes one way. -/
lemma goesTo_of_mem (h : c ∈ candidates f) : f.GoesTo c.block c.taken := by
  obtain ⟨bb, k, t, e, hb, hterm, hc⟩ := mem_candidates h
  refine ⟨_, (terminator?_of_block hb).trans hterm, ?_⟩
  intro w env s seen
  have htaken : c.taken = if k.isTrue = true then t else e := by
    rw [hc]
    split <;> rfl
  simp only [Terminator.leave, Value.eval, Const.toInt64_ne_zero, htaken]

lemma pending_candidates (f : Func) : Pending f (candidates f) := by
  refine ⟨fun c hc => goesTo_of_mem hc, ?_, ?_⟩
  · intro c hc s hs
    obtain ⟨bb, k, t, e, hb, hterm, hc⟩ := mem_candidates hc
    rw [succs_of_terminator hb hterm] at hs
    have hmem : s = t ∨ s = e := by
      rw [Terminator.successors] at hs
      split at hs
      · exact .inl (List.mem_singleton.1 hs)
      · simpa using hs
    rw [hc]
    split
    · exact hmem
    · exact hmem.symm
  · intro c hc c' hc' he
    obtain ⟨bb, k, t, e, hb, hterm, hc⟩ := mem_candidates hc
    obtain ⟨bb', k', t', e', hb', hterm', hc'⟩ := mem_candidates hc'
    rw [he, hb'] at hb
    cases hb
    rw [hterm'] at hterm
    cases hterm
    rw [hc, hc', he]

/-- A branch that always goes one way may as well be a jump. -/
lemma jumping_keeps {b taken : BlockId} (hf : f.Framed) (hgo : f.GoesTo b taken) :
    Keeps f (f.jumping b taken) := by
  have htaken := hgo.mem_succs
  have hterm : ∀ c, (f.jumping b taken).terminator? c =
      if b = c then some (.jump taken) else f.terminator? c := by
    obtain ⟨bb, hb⟩ := exists_block_of_succ htaken
    intro c
    unfold terminator?
    rw [jumping_block]
    split
    · rename_i hc
      subst hc
      rw [hb]
      rfl
    · rfl
  -- a block goes to one block only
  have hleave : ∀ c t t', f.terminator? c = some t → (f.jumping b taken).terminator? c = some t' →
      ∀ w env (s : Arrival) seen, t.leave w env s seen = t'.leave w env s seen := by
    intro c t t' ht ht' w env s seen
    rw [hterm] at ht'
    split at ht'
    · rename_i hc
      subst hc
      cases ht'
      obtain ⟨t₀, ht₀, hgo⟩ := hgo
      rw [ht] at ht₀
      cases ht₀
      exact hgo w env s seen
    · rw [ht] at ht'
      cases ht'
      rfl
  refine (jumping_thinned htaken).keeps (jumping_framed hf htaken) ?_ rfl
    ((jumping_thinned htaken).sameMeaning (jumping_framed hf htaken)
      (fun c t t' ht ht' _ => hleave c t t' ht ht') hf.ended) ?_
  · intro v hv
    cases v with
    | inst i => exact hv
    | arg n => exact hv
    | const c => trivial
    | undef => trivial
  · rintro c d ⟨t, ht, hd⟩
    by_cases hc : b = c
    · have hjump : (f.jumping b taken).terminator? c = some (.jump taken) := by
        rw [hterm, if_pos hc]
      exact ⟨_, hjump, fun w env s seen => (hleave c t _ ht hjump w env s seen).symm.trans
        (hd w env s seen)⟩
    · exact ⟨t, by rw [hterm, if_neg hc, ht], hd⟩

/-- What folding one branch does to the edges. -/
structure Folded (f g : Func) (c : Candidate) : Prop where
  succs : ∀ b, g.succs b = if b = c.block then [c.taken] else f.succs b
  preds : ∀ b s, b ∈ g.preds s → b ∈ f.preds s ∧ (b = c.block → s = c.taken ∨ s ≠ c.untaken)
  blocks : ∀ b, g.hasBlock b = f.hasBlock b
  keeps : Keeps f g

lemma fold_eq (f : Func) (c : Candidate) : (fold f c).1 =
    if c.untaken = c.taken then f.jumping c.block c.taken
    else ((f.jumping c.block c.taken).removePred c.untaken c.block).1 := by
  unfold fold
  dsimp only
  split <;> rfl

lemma fold_folded (hf : f.Framed) (hgo : f.GoesTo c.block c.taken) : Folded f (fold f c).1 c := by
  have hjsuccs := fun b => @jumping_succs _ _ c.taken (exists_block_of_succ hgo.mem_succs) b
  have hkeep := jumping_keeps hf hgo
  have hjblocks : ∀ b, (f.jumping c.block c.taken).hasBlock b = f.hasBlock b := jumping_hasBlock
  rw [fold_eq]
  by_cases hsame : c.untaken = c.taken
  · rw [if_pos hsame]
    refine ⟨hjsuccs, ?_, hjblocks, hkeep⟩
    intro b s hb
    rw [jumping_preds] at hb
    refine ⟨hb, fun _ => ?_⟩
    rw [hsame]
    exact em _
  · rw [if_neg hsame]
    have hgone : c.untaken ∉ (f.jumping c.block c.taken).succs c.block := by
      rw [hjsuccs, if_pos rfl, List.mem_singleton]
      exact hsame
    have hrem := removePred_removed hkeep.framed hgone
    refine ⟨fun b => (hrem.succs b).trans (hjsuccs b), ?_,
      fun b => (hrem.blocks b).trans (hjblocks b), hkeep.trans hrem.keeps⟩
    intro b s hb
    rw [hrem.preds, jumping_preds] at hb
    split at hb
    · obtain ⟨hb, hne⟩ := List.mem_filter.1 hb
      exact ⟨hb, fun he => absurd he (by simpa using hne)⟩
    · rename_i hs
      exact ⟨hb, fun _ => .inr (Ne.symm hs)⟩

/-- Folding one branch leaves it the edge that is taken, and no loose ends. -/
lemma fold_keeps (hf : f.Framed) (ht : f.Tight) (hp : Pending f cs) (hc : c ∈ cs) :
    (fold f c).1.Tight ∧ Pending (fold f c).1 cs := by
  have hgo := hp.goes c hc
  have hfold := fold_folded hf hgo
  refine ⟨⟨?_, ?_⟩, ⟨fun c' hc' => hfold.keeps.goes _ _ (hp.goes c' hc'), ?_, hp.unique⟩⟩
  · intro b s hb
    obtain ⟨hb, hcut⟩ := hfold.preds b s hb
    have hs := ht.edges b s hb
    rw [hfold.succs]
    split
    · rename_i he
      subst he
      rw [List.mem_singleton]
      rcases hcut rfl with h | h
      · exact h
      · exact (hp.only c hc s hs).resolve_right h
    · exact hs
  · intro b s hs
    have hold : s ∈ f.succs b := by
      rw [hfold.succs] at hs
      split at hs
      · rename_i he
        rw [he, List.mem_singleton.1 hs]
        exact hgo.mem_succs
      · exact hs
    have := ht.targets b s hold
    rw [← Option.isSome_iff_exists] at this ⊢
    exact (hfold.blocks s).trans this
  · intro c' hc' s hs
    rw [hfold.succs] at hs
    split at hs
    · rename_i he
      rw [hp.unique c' hc' c hc he]
      exact .inl (List.mem_singleton.1 hs)
    · exact hp.only c' hc' s hs

/-- A function in which some branches on constants were folded, with `rest` still to come. -/
structure Folding (f g : Func) (rest : List Candidate) : Prop where
  waits : ∀ c ∈ rest, c ∈ candidates f
  tight : g.Tight
  pending : Pending g (candidates f)
  keeps : Keeps f g
  taken : ∀ c ∈ candidates f, c ∉ rest → g.succs c.block = [c.taken]
  others : ∀ b, (∀ c ∈ candidates f, c.block ≠ b) → g.succs b = f.succs b

lemma Folding.step {rest : List Candidate} (h : Folding f g (c :: rest)) :
    Folding f (fold g c).1 rest := by
  have hc := h.waits c List.mem_cons_self
  obtain ⟨htight, hpending⟩ := fold_keeps h.keeps.framed h.tight h.pending hc
  have hfold := fold_folded h.keeps.framed (h.pending.goes c hc)
  refine ⟨fun c' hc' => h.waits c' (List.mem_cons_of_mem _ hc'), htight, hpending,
    h.keeps.trans hfold.keeps, ?_, ?_⟩
  · intro c' hc' hnot
    rw [hfold.succs]
    split
    · rename_i he
      rw [h.pending.unique c' hc' c hc he]
    · rename_i he
      refine h.taken c' hc' ?_
      rw [List.mem_cons, not_or]
      exact ⟨fun hcc => he (congrArg _ hcc), hnot⟩
  · intro b hb
    rw [hfold.succs, if_neg (Ne.symm (hb c hc)), h.others b hb]

/-- The pass folds one branch after another and answers whether there was one. What holds at the
start, with all branches to come, and is handed on by each of them holds at the end. -/
lemma run_meets {s : Session} (I : List Candidate → Func → Prop)
    (hstart : I (candidates s.func) s.func)
    (hstep : ∀ c rest g, c ∈ candidates s.func → I (c :: rest) g → I rest (fold g c).1) :
    BranchFold.run.Meets s (fun changed s' => I [] s'.func ∧ s'.cache = s.cache ∧
      changed = !(candidates s.func).isEmpty ∧ (changed = false → s'.func = s.func))
      fun _ => False := by
  unfold BranchFold.run
  refine Work.Meets.get_bind ?_
  have hloop := Work.Meets.forM (E := fun _ => False) (s := s)
    (f := fun c => do
      Session.setFolded (fold (← get).func c)
      Session.note (.branchFolded c.block c.taken))
    (fun rest s' => I rest s'.func ∧ s'.cache = s.cache ∧
      (candidates s.func = [] → s'.func = s.func) ∧ ∀ c ∈ rest, c ∈ candidates s.func)
    ?_ (candidates s.func) ⟨hstart, rfl, fun _ => rfl, fun c hc => hc⟩
  · refine hloop.bind fun _ s' hs' => Work.Meets.of_pure ?_
    obtain ⟨hI, hcache, hsame, -⟩ := hs'
    exact ⟨hI, hcache, rfl, fun h => hsame (by simpa using h)⟩
  · rintro c rest s' ⟨hI, hcache, -, hin⟩
    have hc := hin c List.mem_cons_self
    refine Work.Meets.get_bind (Work.Meets.modify_bind (Work.Meets.of_modify ?_))
    refine ⟨hstep c rest _ hc hI, hcache, fun hnil => ?_,
      fun c' hc' => hin c' (List.mem_cons_of_mem _ hc')⟩
    rw [hnil] at hc
    cases hc

/-- The pass ends well, with every branch on a constant folded. -/
lemma run_folding {s : Session} (hf : s.func.Framed) (ht : s.func.Tight) :
    BranchFold.run.Meets s (fun changed s' =>
      s'.cache = s.cache ∧ (changed = false → s'.func = s.func) ∧ Folding s.func s'.func [])
      fun _ => False := by
  have hstart : Folding s.func s.func (candidates s.func) :=
    ⟨fun c hc => hc, ht, pending_candidates _, .refl hf, fun c hc hnot => absurd hc hnot,
      fun _ _ => rfl⟩
  refine (run_meets (fun rest g => Folding s.func g rest) hstart
    fun c rest g _ h => h.step).mono ?_ fun _ h => h
  exact fun _ _ ⟨hfolding, hcache, _, hsame⟩ => ⟨hcache, hsame, hfolding⟩

/-- The pass ends well, and what it leaves has no loose ends. -/
lemma run_folds {s : Session} (hf : s.func.Framed) (ht : s.func.Tight) :
    BranchFold.run.Meets s (fun changed s' =>
      s'.cache = s.cache ∧ (changed = false → s'.func = s.func) ∧ s'.func.Tight ∧
        Keeps s.func s'.func) fun _ => False :=
  (run_folding hf ht).mono
    (fun _ _ ⟨hcache, hsame, h⟩ => ⟨hcache, hsame, h.tight, h.keeps⟩) fun _ h => h

end BranchFold

/-! ## Blocks out of reach -/

namespace DeadBlocks

/-- A function from which some blocks that the entry does not reach were removed, with `rest`
still to come. -/
structure Removing (f g : Func) (rest : List BlockId) : Prop where
  framed : g.Framed
  dominated : f.DominatedWhereReached → g.DominatedWhereReached
  args : f.ArgsKnown → g.ArgsKnown
  meaning : f.DominatedWhereReached → f.SameMeaning g
  reached : ∀ c, g.Reached c ↔ f.Reached c
  succs : ∀ c, g.hasBlock c = true → g.succs c = f.succs c
  preds : ∀ p s, p ∈ g.preds s → p ∈ f.preds s ∧ g.hasBlock p = true
  waits : ∀ b ∈ rest, g.hasBlock b = true ∧ ¬ f.Reached b
  once : rest.Nodup
  left : ∀ c, g.hasBlock c = true → f.Reached c ∨ c ∈ rest
  stays : ∀ c, f.Reached c → f.hasBlock c = true → g.hasBlock c = true

variable {f g : Func} {b : BlockId} {rest : List BlockId}

lemma Removing.step (h : Removing f g (b :: rest)) (ht : f.Tight) :
    ∃ g' rs, g.removeBlock b = .ok (g', rs) ∧ Removing f g' rest := by
  obtain ⟨hb, hdead⟩ := h.waits b List.mem_cons_self
  obtain ⟨bb, hbb⟩ := Option.isSome_iff_exists.1 hb
  have hdead' : ¬ g.Reached b := fun hr => hdead ((h.reached b).1 hr)
  obtain ⟨g', rs, hrun, hrem⟩ := removeBlock_removed h.framed hbb hdead'
  obtain ⟨hnot, honce⟩ := List.nodup_cons.1 h.once
  have hblocks : ∀ c, g'.hasBlock c = true ↔ g.hasBlock c = true ∧ b ≠ c := by
    intro c
    rw [hrem.blocks, Bool.and_eq_true, decide_eq_true_eq]
  refine ⟨g', rs, hrun, hrem.framed, fun hd => hrem.dominated (h.dominated hd),
    fun ha => hrem.args (h.args ha),
    fun hd => (h.meaning hd).trans (hrem.meaning (h.dominated hd)),
    fun c => (hrem.reached hdead' c).trans (h.reached c), ?_, ?_, ?_, honce, ?_, ?_⟩
  · intro c hc
    obtain ⟨hc, hne⟩ := (hblocks c).1 hc
    rw [hrem.succs, if_neg hne, h.succs c hc]
  · intro p s hp
    obtain ⟨hp, hcut⟩ := hrem.preds p s hp
    obtain ⟨hpf, hlive⟩ := h.preds p s hp
    refine ⟨hpf, (hblocks p).2 ⟨hlive, ?_⟩⟩
    -- the removed block had the edge, so it is not listed any more
    rintro rfl
    exact hcut rfl (h.succs b hb ▸ ht.edges b s hpf)
  · intro c hc
    obtain ⟨hlive, hdc⟩ := h.waits c (List.mem_cons_of_mem _ hc)
    refine ⟨(hblocks c).2 ⟨hlive, ?_⟩, hdc⟩
    rintro rfl
    exact hnot hc
  · intro c hc
    obtain ⟨hc, hne⟩ := (hblocks c).1 hc
    refine (h.left c hc).imp_right fun hmem => ?_
    exact (List.mem_cons.1 hmem).resolve_left (Ne.symm hne)
  · intro c hr hc
    refine (hblocks c).2 ⟨h.stays c hr hc, ?_⟩
    rintro rfl
    exact hdead hr

/-- When nothing is left to come there are no loose ends, and all blocks are reached. -/
lemma Removing.tight (h : Removing f g []) (ht : f.Tight) : g.Tight ∧ g.AllReached := by
  have hreach : ∀ c, g.hasBlock c = true → f.Reached c :=
    fun c hc => (h.left c hc).resolve_right (by simp)
  refine ⟨⟨?_, ?_⟩, ?_⟩
  · intro p s hp
    obtain ⟨hpf, hlive⟩ := h.preds p s hp
    rw [h.succs p hlive]
    exact ht.edges p s hpf
  · intro c s hs
    have hc := hasBlock_of_succs hs
    rw [h.succs c hc] at hs
    obtain ⟨ss, hss⟩ := ht.targets c s hs
    have hsr : f.Reached s := (hreach c hc).step (edge_iff.2 hs)
    exact Option.isSome_iff_exists.1 (h.stays s hsr (hasBlock_of_block hss))
  · intro c cc hc
    exact (h.reached c).2 (hreach c (hasBlock_of_block hc))

lemma mem_dead (hg : f.cfg.Consistent) {b : BlockId} :
    b ∈ dead f (f.cfg.reachable f.entry.index) ↔ f.hasBlock b = true ∧ ¬ f.Reached b := by
  have hcontains := Digraph.contains_reachable hg hg.entry_lt b.index
  unfold dead
  rw [List.mem_filter, mem_blockIds, Bool.not_eq_true', ← Bool.not_eq_true]
  exact and_congr_right fun _ => not_congr hcontains

/-- The pass removes the blocks out of reach one after another and answers whether there was one.
What holds at the start, with all of them to come, and is handed on by each removal holds at the
end. -/
lemma run_meets {s : Session} (hg : s.func.cfg.Consistent) {gone : List BlockId}
    (hgone : dead s.func (s.func.cfg.reachable s.func.entry.index) = gone)
    (I : List BlockId → Func → Prop) (hstart : I gone s.func)
    (hstep : ∀ b rest g, I (b :: rest) g → ∃ r, g.removeBlock b = .ok r ∧ I rest r.1) :
    DeadBlocks.run.Meets s (fun changed s' => I [] s'.func ∧ s'.cache = s.cache ∧
      changed = !gone.isEmpty ∧ (changed = false → s'.func = s.func)) fun _ => False := by
  have hsearch : s.func.reachable s.func.entry.index =
      .ok (s.func.cfg.reachable s.func.entry.index) := by
    unfold Func.reachable Func.search
    rw [if_pos (hg.staysInside _)]
  unfold DeadBlocks.run
  refine Work.Meets.get_bind (Work.Meets.ofExcept_bind hsearch ?_)
  rw [hgone]
  have hloop := Work.Meets.forM (E := fun _ => False) (s := s)
    (f := fun b => do Session.setFolded (← Work.ofExcept ((← get).func.removeBlock b)))
    (fun rest s' => I rest s'.func ∧ s'.cache = s.cache ∧ (gone = [] → s'.func = s.func) ∧
      ∀ b ∈ rest, b ∈ gone) ?_ gone ⟨hstart, rfl, fun _ => rfl, fun b hb => hb⟩
  · refine hloop.bind fun _ s' hs' => ?_
    obtain ⟨hI, hcache, hsame, -⟩ := hs'
    have hend : I [] s'.func ∧ s'.cache = s.cache ∧ (!gone.isEmpty) = !gone.isEmpty ∧
        ((!gone.isEmpty) = false → s'.func = s.func) :=
      ⟨hI, hcache, rfl, fun h => hsame (by simpa using h)⟩
    by_cases hnil : (!gone.isEmpty) = true
    · simp only [hnil, if_true]
      exact Work.Meets.modify_bind (Work.Meets.of_pure (hnil ▸ hend))
    · simp only [hnil]
      exact Work.Meets.of_pure (by rw [Bool.not_eq_true] at hnil; exact hnil ▸ hend)
  · rintro b rest s' ⟨hI, hcache, -, hin⟩
    obtain ⟨r, hrun, hI'⟩ := hstep b rest _ hI
    refine Work.Meets.get_bind (Work.Meets.ofExcept_bind hrun (Work.Meets.of_modify ?_))
    refine ⟨hI', hcache, fun hnil => ?_, fun c hc => hin c (List.mem_cons_of_mem _ hc)⟩
    have hb := hin b List.mem_cons_self
    rw [hnil] at hb
    cases hb

/-- The pass ends well, with every block out of reach removed. -/
lemma run_removing {s : Session} (hf : s.func.Framed) (ht : s.func.Tight) :
    DeadBlocks.run.Meets s (fun changed s' =>
      s'.cache = s.cache ∧ (changed = false → s'.func = s.func) ∧ Removing s.func s'.func [])
      fun _ => False := by
  have hg := hf.consistent ht
  have hmem : ∀ b, b ∈ dead s.func (s.func.cfg.reachable s.func.entry.index) ↔
      s.func.hasBlock b = true ∧ ¬ s.func.Reached b := fun b => mem_dead hg
  have hstart : Removing s.func s.func
      (dead s.func (s.func.cfg.reachable s.func.entry.index)) := by
    refine ⟨hf, id, id, fun _ => .refl _, fun _ => Iff.rfl, fun _ _ => rfl, ?_,
      fun b hb => (hmem b).1 hb, (nodup_blockIds _).filter _, ?_, fun _ _ h => h⟩
    · intro p c hp
      exact ⟨hp, hasBlock_of_succs (ht.edges p c hp)⟩
    · intro c hc
      by_cases hr : s.func.Reached c
      · exact .inl hr
      · exact .inr ((hmem c).2 ⟨hc, hr⟩)
  refine (run_meets hg rfl (fun rest g => Removing s.func g rest) hstart ?_).mono ?_ fun _ h => h
  · intro b rest g h
    obtain ⟨g', rs, hrun, h'⟩ := h.step ht
    exact ⟨(g', rs), hrun, h'⟩
  · exact fun _ _ ⟨hremoving, hcache, _, hsame⟩ => ⟨hcache, hsame, hremoving⟩

/-- The pass ends well, and leaves the blocks that are reached. -/
lemma run_removes {s : Session} (hf : s.func.Framed) (ht : s.func.Tight) :
    DeadBlocks.run.Meets s (fun changed s' =>
      s'.cache = s.cache ∧ (changed = false → s'.func = s.func) ∧ s'.func.Framed ∧
        s'.func.Tight ∧ s'.func.AllReached ∧
        (s.func.DominatedWhereReached → s'.func.DominatedWhereReached) ∧
        (s.func.ArgsKnown → s'.func.ArgsKnown)) fun _ => False := by
  refine (run_removing hf ht).mono ?_ fun _ h => h
  rintro _ s' ⟨hcache, hsame, h⟩
  obtain ⟨htight, hall⟩ := h.tight ht
  exact ⟨hcache, hsame, h.framed, htight, hall, h.dominated, h.args⟩

end DeadBlocks

end SsaBackend
