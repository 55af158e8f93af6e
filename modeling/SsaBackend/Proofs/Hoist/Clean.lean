import SsaBackend.Proofs.Hoist.Sound
import SsaBackend.Proofs.Pass.Session

/-!
# Hoisting keeps a function clean

Every move that the pass asks for is granted, and leaves the tables in order: blocks and edges
stay as they are, and the moved instruction belongs to the block that lists it. So hoisting is
refused only for a loop without a preheader (`Hoist.run_hoists`).
-/

namespace SsaBackend

open Func

/-! ## One move -/

namespace Func.Hoisting

variable {f g : Func} {i : InstId} {p : PlacedInst} {pre : BlockId}

lemma sameShape (hm : Moved f g i p pre) : SameShape f g where
  preds b := preds_eq_of_map (hm.block b) fun _ => rfl
  succs b := succs_eq_of_map (hm.block b) fun _ => rfl
  blocks b := hasBlock_eq_of_map (hm.block b)
  capacity := hm.capacity
  numArgs := hm.numArgs

lemma framed (h : Hoisting f i p pre) (hm : Moved f g i p pre) (hf : f.Framed) : g.Framed := by
  have hpreds : ∀ {c bb'}, g.block? c = some bb' → ∃ bb, f.block? c = some bb ∧
      bb'.phis = bb.phis ∧ bb'.preds = bb.preds ∧ bb'.terminator = bb.terminator := by
    intro c bb' hb'
    rw [hm.block] at hb'
    obtain ⟨bb, hbb, rfl⟩ := Option.map_eq_some_iff.1 hb'
    exact ⟨bb, hbb, rfl, rfl, rfl⟩
  refine ⟨⟨?_, ?_, ?_, ?_, ?_, fun c bb' hb' k hk => h.body_moved hm hb' hk⟩,
    ((sameShape hm).preds _).trans hf.source⟩
  · obtain ⟨ee, hee⟩ := hf.start
    have hb := hm.block f.entry
    rw [hee, Option.map_some] at hb
    exact ⟨_, hb⟩
  · intro c bb' hb'
    obtain ⟨bb, hb, -, -, hterm⟩ := hpreds hb'
    rw [hterm]
    exact hf.ended c bb hb
  · intro c s ss' hs' hedge
    obtain ⟨ss, hs, -, hp, -⟩ := hpreds hs'
    rw [(sameShape hm).succs] at hedge
    rw [hp]
    exact hf.linked c s ss hs hedge
  · intro c bb' hb'
    obtain ⟨bb, hb, -, hp, -⟩ := hpreds hb'
    rw [hp]
    exact hf.predsOnce c bb hb
  · intro c bb' hb' k hk
    obtain ⟨bb, hb, hphis, hp, -⟩ := hpreds hb'
    rw [hphis] at hk
    rw [inst_ne hm fun he => h.not_phi hb (he ▸ hk), hp]
    exact hf.phis c bb hb k hk

lemma argsKnown (h : Hoisting f i p pre) (hm : Moved f g i p pre) (ha : f.ArgsKnown) :
    g.ArgsKnown := by
  intro c bb' hb' n hn
  rw [hm.numArgs]
  rcases mem_blockOperands.1 hn with ⟨k, hk, q, hq, hmem⟩ | ⟨t, ht, hmem⟩
  · by_cases hki : k = i
    · -- the moved instruction reads what it read in its old block
      subst hki
      rw [hm.inst, if_pos rfl] at hq
      cases hq
      obtain ⟨bb, hb, hi⟩ := h.lists
      exact ha _ bb hb n (mem_blockOperands.2 (.inl ⟨k, hi, p, h.inst, hmem⟩))
    · rw [inst_ne hm hki] at hq
      obtain ⟨bb, hb, hphis, -, hbody⟩ := block_inv hm hb'
      refine ha c bb hb n (mem_blockOperands.2 (.inl ⟨k, ?_, q, hq, hmem⟩))
      rcases List.mem_append.1 hk with hk | hk
      · exact List.mem_append_left _ (hphis ▸ hk)
      · rw [hbody] at hk
        rcases List.mem_append.1 hk with hk | hk
        · refine List.mem_append_right _ ?_
          split at hk
          · exact (List.mem_filter.1 hk).1
          · exact hk
        · split at hk
          · exact absurd (List.mem_singleton.1 hk) hki
          · cases hk
  · obtain ⟨bb, hb, -, hterm, -⟩ := block_inv hm hb'
    exact ha c bb hb n (mem_blockOperands.2 (.inr ⟨t, hterm ▸ ht, hmem⟩))

end Func.Hoisting

/-! ## The pass -/

namespace Hoist

variable {f₀ : Func} {l : Loop} {pre b : BlockId} {s : Session}

/-- The function of the session came from `f₀` by safe moves, and its tables are in order. -/
structure Kept (f₀ : Func) (s₀ s : Session) : Prop where
  hoisted : Hoisted f₀ s.func
  shape : SameShape f₀ s.func
  framed : s.func.Framed
  args : s.func.ArgsKnown
  cache : s.cache = s₀.cache

lemma hoistInst_meets {s₀ : Session} {count : Nat} {i : InstId} (hk : Kept f₀ s₀ s)
    (ha : Around f₀ l pre) (hb : b ∈ l.body) {bb : Block} (hbb : s.func.block? b = some bb)
    (hi : i ∈ bb.body) (E : Error → Prop) :
    (Hoist.hoistInst l pre b count i).Meets s (fun _ s' => Kept f₀ s₀ s' ∧
      ∃ bb', s'.func.block? b = some bb' ∧ ∀ k ∈ bb.body, k ≠ i → k ∈ bb'.body) E := by
  unfold Hoist.hoistInst
  refine Work.Meets.get_bind ?_
  cases hinv : isInvariant s.func l i with
  | false =>
    simp only [hinv]
    exact Work.Meets.of_pure ⟨hk, bb, hbb, fun k hk _ => hk⟩
  | true =>
    simp only [hinv]
    obtain ⟨p, rfl, hsafe⟩ := hoisting_of_invariant hk.hoisted ha hb hbb hi hinv
    obtain ⟨q, hq, -, hphi⟩ := hk.hoisted.strict.body _ bb hbb i hi
    rw [hsafe.inst] at hq
    cases hq
    obtain ⟨pb, hpb⟩ := hsafe.target
    obtain ⟨g, hmove⟩ := exists_moveInst hsafe.inst hphi hpb hbb
    obtain ⟨q, hm⟩ := moveInst_ok hmove
    have hpq := hm.was
    rw [hsafe.inst] at hpq
    cases hpq
    have hkept := hk.hoisted.moved hsafe hm
    have hshape := hk.shape.trans (Hoisting.sameShape hm)
    have hblock := hm.block p.block
    rw [hbb, Option.map_some] at hblock
    refine Work.Meets.ofExcept_bind hmove (Work.Meets.modify_bind (Work.Meets.modify_bind
      (Work.Meets.of_pure ?_)))
    refine ⟨⟨hkept, hshape, hsafe.framed hm hk.framed, hsafe.argsKnown hm hk.args, hk.cache⟩, _,
      hblock, ?_⟩
    intro k hk hki
    apply List.mem_append_left
    split
    · exact List.mem_filter.2 ⟨hk, by simpa using hki⟩
    · exact hk

lemma hoistBlock_meets {s₀ : Session} {count : Nat} (hk : Kept f₀ s₀ s) (ha : Around f₀ l pre)
    (hb : b ∈ l.body) (E : Error → Prop) :
    (Hoist.hoistBlock l pre count b).Meets s (fun _ s' => Kept f₀ s₀ s') E := by
  unfold Hoist.hoistBlock
  refine Work.Meets.get_bind ?_
  cases hbb : s.func.block? b with
  | none =>
    simp only
    exact Work.Meets.of_pure hk
  | some bb =>
    simp only [Option.elim_some]
    -- the instructions that are still to come are still in the block
    refine (Work.Meets.foldlM (fun rest _ s => Kept f₀ s₀ s ∧ rest.Nodup ∧
        ∃ bb, s.func.block? b = some bb ∧ ∀ i ∈ rest, i ∈ bb.body) ?_ bb.body count
        ⟨hk, hk.hoisted.strict.once b bb hbb, bb, hbb, fun i hi => hi⟩).mono
      (fun _ _ h => h.1) fun _ h => h
    rintro c i rest s₁ ⟨hk₁, hnodup, bb₁, hbb₁, hin⟩
    obtain ⟨hi, hrest⟩ := List.nodup_cons.1 hnodup
    refine (hoistInst_meets hk₁ ha hb hbb₁ (hin i List.mem_cons_self) E).mono ?_ fun _ h => h
    rintro _ s₂ ⟨hk₂, bb₂, hbb₂, hkeep⟩
    refine ⟨hk₂, hrest, bb₂, hbb₂, ?_⟩
    intro k hk
    exact hkeep k (hin k (List.mem_cons_of_mem _ hk)) fun he => hi (he ▸ hk)

/-- The pass asks for the loops of its function, goes through them one after another, and answers
whether anything was moved: what the loops leave, it leaves. -/
lemma run_meets (hg : s.func.cfg.Consistent) (hfresh : s.cache.FreshFor s.func)
    {P : Bool → Func → Cache → Prop} {E : Error → Prop}
    (hloops : ∀ s₁ : Session, s₁.func = s.func → s₁.cache.FreshFor s.func →
      ((s.func.loopForest s.func.cfg.domTree).innermostFirst.foldlM
        (hoistLoop s.func.cfg.domTree) 0).Meets s₁
        (fun n s' => P (decide (n > 0)) s'.func s'.cache) E) :
    Hoist.run.Meets s (fun changed s' => P changed s'.func s'.cache) E := by
  unfold Hoist.run
  refine (Session.compute_meets hg hfresh _ E).bind ?_
  rintro _ s₁ ⟨hfunc, hfresh₁⟩
  have hdom : s₁.cache.getDominators s₁.func = .ok s.func.cfg.domTree := by
    rw [hfunc]
    exact hfresh₁.getDominators_eq hg
  have hforest : s₁.cache.getLoops s₁.func = .ok (s.func.loopForest s.func.cfg.domTree) := by
    rw [hfunc]
    exact hfresh₁.getLoops_eq hg
  refine Work.Meets.get_bind (Work.Meets.ofExcept_bind hdom (Work.Meets.ofExcept_bind hforest ?_))
  refine (hloops s₁ hfunc hfresh₁).bind fun n s₂ hend => ?_
  split
  · exact Work.Meets.modify_bind (Work.Meets.of_pure hend)
  · exact Work.Meets.of_pure hend

/-- The same for a run that may be refused half-way. -/
lemma run_ends_of_loops (hg : s.func.cfg.Consistent) (hfresh : s.cache.FreshFor s.func)
    {P : Bool → Func → Cache → Prop} {R : Session → Prop}
    (hloops : ∀ s₁ : Session, s₁.func = s.func → s₁.cache.FreshFor s.func →
      ((s.func.loopForest s.func.cfg.domTree).innermostFirst.foldlM
        (hoistLoop s.func.cfg.domTree) 0).Ends s₁
        (fun n s' => P (decide (n > 0)) s'.func s'.cache) R) :
    Hoist.run.Ends s (fun changed s' => P changed s'.func s'.cache) R := by
  unfold Hoist.run
  refine (Session.compute_meets hg hfresh _ _).ends.bind ?_
  rintro _ s₁ ⟨hfunc, hfresh₁⟩
  have hdom : s₁.cache.getDominators s₁.func = .ok s.func.cfg.domTree := by
    rw [hfunc]
    exact hfresh₁.getDominators_eq hg
  have hforest : s₁.cache.getLoops s₁.func = .ok (s.func.loopForest s.func.cfg.domTree) := by
    rw [hfunc]
    exact hfresh₁.getLoops_eq hg
  refine Work.Ends.get_bind (Work.Ends.ofExcept_bind_of_ok hdom
    (Work.Ends.ofExcept_bind_of_ok hforest ?_))
  refine (hloops s₁ hfunc hfresh₁).bind fun n s₂ hend => ?_
  split
  · exact Work.Ends.modify_bind (Work.Ends.of_pure hend)
  · exact Work.Ends.of_pure hend

/-- The pass ends well and keeps the function clean, or is refused for a loop without a
preheader. -/
theorem run_hoists (hc : s.func.Clean) (hfresh : s.cache.FreshFor s.func) {E : Error → Prop}
    (hE : ∀ l ∈ (s.func.loopForest s.func.cfg.domTree).loops, l.preheader = none →
      E (.missingPreheader l.header)) :
    Hoist.run.Meets s (fun _ s' => s'.func.Clean ∧ SameShape s.func s'.func ∧
      s'.cache.FreshFor s'.func) E := by
  have hv := hc.verified
  have hentry := hc.framed.source
  refine run_meets hc.consistent hfresh
    (P := fun _ g cache => g.Clean ∧ SameShape s.func g ∧ cache.FreshFor g)
    fun s₁ hfunc hfresh₁ => ?_
  have hstart : Kept s.func s₁ s₁ := by
    refine ⟨?_, ?_, ?_, ?_, rfl⟩
    · rw [hfunc]
      exact ⟨hc.strict, rfl, hc.reached, SameMeaning.refl _⟩
    · rw [hfunc]
      exact .refl _
    · rw [hfunc]
      exact hc.framed
    · rw [hfunc]
      exact hc.args
  -- one loop after another
  refine (Work.Meets.foldlM (fun rest _ s₂ => Kept s.func s₁ s₂ ∧ ∀ l ∈ rest,
      l ∈ (s.func.loopForest s.func.cfg.domTree).innermostFirst) ?_ _ 0
      ⟨hstart, fun l hl => hl⟩).mono ?_ fun _ h => h
  · rintro c l rest s₂ ⟨hk, hin⟩
    have hmem := hin l List.mem_cons_self
    obtain ⟨hnat, hpre⟩ := natural_of_mem_innermostFirst hv hc.reached hmem
    have hrest := fun m hm => hin m (List.mem_cons_of_mem l hm)
    unfold Hoist.hoistLoop
    split
    · rename_i hnone
      exact Work.Meets.of_throw (hE l (mem_innermostFirst.1 hmem) hnone)
    · rename_i pre hsome
      have ha : Around s.func l pre := ⟨hv, hentry, hnat, hpre pre hsome⟩
      refine (Work.Meets.foldlM (fun bs _ s₃ => Kept s.func s₁ s₃ ∧ ∀ b ∈ bs, b ∈ l.body) ?_ _ c
        ⟨hk, fun b hb => mem_blocksOf hnat.header_mem hb⟩).mono (fun _ _ h => ⟨h.1, hrest⟩)
        fun _ h => h
      rintro c b bs s₃ ⟨hk₃, hbs⟩
      exact (hoistBlock_meets hk₃ ha (hbs b List.mem_cons_self) E).mono
        (fun _ _ h => ⟨h, fun d hd => hbs d (List.mem_cons_of_mem _ hd)⟩) fun _ h => h
  · rintro count s₂ ⟨hk, -⟩
    exact ⟨⟨hk.framed, hk.shape.tight hc.tight, hk.shape.allReached hc.reached,
      hk.hoisted.strict.whereReached, hk.args⟩, hk.shape,
      (hk.cache ▸ hfresh₁).sameShape hk.shape⟩

end Hoist

end SsaBackend
