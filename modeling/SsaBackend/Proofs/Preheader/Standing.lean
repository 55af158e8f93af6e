import SsaBackend.Proofs.Pass.Fresh
import SsaBackend.Proofs.Pass.Strictness

/-!
# Which passes leave preheaders standing

Hoisting refuses a function in which a loop has no preheader. A schedule makes sure that
preheaders were inserted at some time before, not that they are still there: folding a branch can
turn a cycle that was entered at two blocks into a loop, and that loop has no preheader. No other
pass does that. Whether all loops have preheaders can be told from the edges that the entry reaches
(`Preheaders.complete_iff`); folding constants and hoisting change no edge, and removing blocks
takes away only edges that the entry does not reach. So hoisting is not refused if no branches are
folded between it and the last insertion (`Schedule.run_finds_preheaders`). Nothing is asked of
instructions and operands for that.
-/

namespace SsaBackend

open Func

namespace Func

variable {f g : Func} {b h p pre : BlockId}

/-- Every edge is listed at both ends, and none leads to the entry. -/
structure Sourced (f : Func) : Prop where
  agree : f.EdgesAgree
  source : f.preds f.entry = []

namespace Sourced

/-- A change that gives the entry no predecessor. -/
lemma of_preds (hf : f.Sourced) (hg : g.EdgesAgree)
    (hpreds : ∀ p, p ∈ g.preds g.entry → p ∈ f.preds f.entry) : g.Sourced := by
  refine ⟨hg, List.eq_nil_iff_forall_not_mem.2 fun p hp => ?_⟩
  have hold := hpreds p hp
  rw [hf.source] at hold
  cases hold

lemma sameShape (hf : f.Sourced) (hs : SameShape f g) : g.Sourced :=
  hf.of_preds (hf.agree.sameShape hs) fun _ hp => hs.preds _ ▸ hp

/-- The target of a back edge is reached without it before. -/
lemma exists_entering (hf : f.Sourced) (hb : f.BackEdge b h) :
    ∃ p, p ∈ f.preds h ∧ ¬ f.BackEdge p h := by
  obtain ⟨hedge, hreach, hdom⟩ := hb
  have hne : h.index ≠ f.cfg.entry := by
    intro he
    have hp := (hf.agree.linked b h).1 hedge
    rw [show h = f.entry from BlockId.index_inj.1 he, hf.source] at hp
    cases hp
  obtain ⟨m, l, hm, hroute, hnot⟩ := Reaches.exists_first (hdom.reaches hreach) hne
  refine ⟨⟨m⟩, (hf.agree.linked ⟨m⟩ h).1 (edge_iff.1 hm), fun hback => ?_⟩
  exact hnot (hback.2.2 l hroute)

end Sourced

/-! ## Preheaders -/

/-- The block is the only one from which the other is entered, and leads nowhere else. -/
structure Fronts (f : Func) (pre h : BlockId) : Prop where
  only : ∀ p, (p ∈ f.preds h ∧ ¬ f.BackEdge p h) ↔ p = pre
  leads : f.succs pre = [h]

end Func

namespace Loop

variable {f : Func} {l : Loop}

/-- What a loop is entered from are the predecessors of the header without a back edge. -/
lemma Whole.mem_outsidePreds (hf : f.EdgesAgree) (hl : l.Whole f) (p : BlockId) :
    p ∈ l.outsidePreds f ↔ p ∈ f.preds l.header ∧ ¬ f.BackEdge p l.header := by
  unfold outsidePreds contains
  rw [List.mem_filter, Bool.not_eq_true', List.contains_eq_mem, decide_eq_false_iff_not]
  refine and_congr_right fun hp => not_congr ⟨fun hmem => ?_, fun hback => ?_⟩
  · exact ⟨(hf.linked p _).2 hp, hl.reached hmem, hl.above hmem⟩
  · by_cases hne : p = l.header
    · exact hne ▸ hl.header_mem
    · exact (hl.body p).2 (.inr ⟨hback.2.1, p, (hl.latches_iff p).2 hback, hne, .refl⟩)

lemma Whole.preheader_iff (hf : f.EdgesAgree) (hl : l.Whole f) (pre : BlockId) :
    l.preheader = some pre ↔ f.Fronts pre l.header := by
  have hmem := hl.mem_outsidePreds hf
  rw [hl.preheader]
  constructor
  · intro h
    obtain ⟨hone, hleads⟩ := findPreheader_spec h
    refine ⟨fun p => ?_, hleads⟩
    rw [← hmem, hone, List.mem_singleton]
  · rintro ⟨honly, hleads⟩
    have hone : l.outsidePreds f = [pre] := by
      refine List.perm_singleton.1 ((List.perm_ext_iff_of_nodup ?_ (List.nodup_singleton _)).2 ?_)
      · exact (hf.once _).filter _
      · intro p
        rw [hmem, honly, List.mem_singleton]
    unfold findPreheader
    rw [hone]
    exact if_pos hleads

end Loop

namespace Preheaders

variable {f g : Func}

/-- All loops have preheaders if the targets of all back edges have. -/
lemma complete_iff (hf : f.EdgesAgree) :
    Complete f ↔ ∀ n h, f.BackEdge n h → ∃ pre, f.Fronts pre h := by
  have hwhole := (family_loopForest hf).1.whole
  constructor
  · intro hc n h hback
    obtain ⟨l₀, hl₀, rfl⟩ := (whole_naturalLoops hf).2.2 n h hback
    obtain ⟨l, hl, hheader⟩ := exists_mem_nest hl₀
    rw [← loops_loopForest] at hl
    obtain ⟨pre, hpre⟩ := hc l hl
    exact ⟨pre, hheader ▸ ((hwhole l hl).preheader_iff hf pre).1 hpre⟩
  · intro hfronts l hl
    obtain ⟨n, hn⟩ := List.exists_mem_of_ne_nil _ (hwhole l hl).latched
    obtain ⟨pre, hpre⟩ := hfronts n _ (((hwhole l hl).latches_iff n).1 hn)
    exact ⟨pre, ((hwhole l hl).preheader_iff hf pre).2 hpre⟩

/-- Changes of instructions leave preheaders standing. -/
lemma Complete.sameShape (hc : Complete f) (hs : SameShape f g) : Complete g := by
  unfold Complete
  rw [hs.cfg, hs.loopForest]
  exact hc

/-- Without a candidate all loops have preheaders, whatever the entry does not reach. -/
lemma complete_of_candidate? (hf : f.Sourced)
    (h : candidate? f (f.loopForest f.cfg.domTree) = none) : Complete f := by
  intro l hl
  have hwhole := (family_loopForest hf.agree).1.whole l hl
  obtain ⟨n, hn⟩ := List.exists_mem_of_ne_nil _ hwhole.latched
  obtain ⟨p, hp⟩ := hf.exists_entering ((hwhole.latches_iff n).1 hn)
  have hentered := (hwhole.mem_outsidePreds hf.agree p).2 hp
  have hnone := List.findSome?_eq_none_iff.1 h l hl
  rw [← Option.isSome_iff_exists, Option.isSome_iff_ne_none]
  intro hmissing
  simp only [hmissing, Option.isNone_none, Bool.true_and, ite_eq_right_iff, Bool.not_eq_true',
    List.isEmpty_eq_false_iff, reduceCtorEq, imp_false, not_not] at hnone
  rw [hnone] at hentered
  cases hentered

end Preheaders

/-! ## Removing blocks -/

namespace DeadBlocks.Clearing

variable {f g : Func}

/-- What the entry reaches leads where it led. -/
lemma succs_of_reached (h : Clearing f g []) {b : BlockId} (hb : f.Reached b) :
    g.succs b = f.succs b := by
  by_cases hgone : g.hasBlock b = true
  · exact h.edges b hgone
  · have hold : f.hasBlock b = false := by
      rw [← h.stays b hb]
      simpa using hgone
    have hnil : ∀ f : Func, f.hasBlock b = false → f.succs b = [] := by
      intro f hnot
      refine List.eq_nil_iff_forall_not_mem.2 fun s hs => ?_
      rw [hasBlock_of_succs hs] at hnot
      cases hnot
    rw [hnil f hold, hnil g (by simpa using hgone)]

/-- The routes from the entry stay. -/
lemma route_iff (h : Clearing f g []) {l : List Nat} :
    Route g.cfg.Edge g.cfg.entry l ↔ Route f.cfg.Edge f.cfg.entry l := by
  -- an edge that follows on a route starts at a block that the entry reaches
  have hedge : ∀ {a b : Nat} {l : List Nat}, Route f.cfg.Edge f.cfg.entry (a :: l) →
      (g.cfg.Edge a b ↔ f.cfg.Edge a b) := by
    intro a b l hroute
    have hsame : g.succs ⟨a⟩ = f.succs ⟨a⟩ := h.succs_of_reached ⟨l, hroute⟩
    exact (edge_iff (b := ⟨a⟩) (s := ⟨b⟩)).trans (hsame ▸ (edge_iff (b := ⟨a⟩) (s := ⟨b⟩)).symm)
  constructor
  · intro hroute
    induction hroute with
    | start => exact .start
    | step _ last ih => exact ih.step ((hedge ih).1 last)
  · intro hroute
    induction hroute with
    | start => exact .start
    | step walk last ih => exact ih.step ((hedge walk).2 last)

/-- The back edges stay. -/
lemma backEdge_iff (h : Clearing f g []) {n b : BlockId} :
    g.BackEdge n b ↔ f.BackEdge n b := by
  have hreached : g.Reached n ↔ f.Reached n := exists_congr fun _ => h.route_iff
  have hdom : g.Dom b n ↔ f.Dom b n := forall_congr' fun _ => imp_congr (h.route_iff) Iff.rfl
  unfold BackEdge
  rw [hreached, hdom]
  refine and_congr_left fun hn => ?_
  rw [h.succs_of_reached hn.1]

/-- Preheaders stand as long as they did: the entry reaches them. -/
lemma complete (h : Clearing f g []) (hf : f.EdgesAgree) (hg : g.Sourced)
    (hc : Preheaders.Complete f) : Preheaders.Complete g := by
  rw [Preheaders.complete_iff hg.agree]
  intro n b hback
  obtain ⟨pre, honly, hleads⟩ :=
    (Preheaders.complete_iff hf).1 hc n b ((h.backEdge_iff).1 hback)
  have hold : ∀ p, p ∈ g.preds b ∧ ¬ g.BackEdge p b → p = pre := by
    rintro p ⟨hp, hnot⟩
    have hs := h.sound b p hp
    rw [h.edges p (hasBlock_of_succs hs)] at hs
    exact (honly p).1 ⟨(hf.linked p b).1 hs, fun hb => hnot ((h.backEdge_iff).2 hb)⟩
  -- what enters the loop now is the preheader
  obtain ⟨p, hp⟩ := hg.exists_entering hback
  obtain rfl := hold p hp
  refine ⟨p, fun q => ⟨hold q, fun he => he ▸ hp⟩, ?_⟩
  rw [h.edges p (hasBlock_of_succs (h.sound b p hp.1)), hleads]

end DeadBlocks.Clearing

/-! ## The passes -/

namespace Func

/-- If the answer is a refusal, it is for a defect. -/
def ForDefects {α : Type} (r : Except Error α) : Prop := ∀ e, r = .error e → ∃ d, e = .malformed d

namespace ForDefects

variable {α β : Type}

lemma of_ok {a : α} : ForDefects (.ok a) := fun _ h => nomatch h

lemma of_malformed {d : Defect} : ForDefects (.error (.malformed d) : Except Error α) := by
  rintro e ⟨⟩
  exact ⟨d, rfl⟩

lemma bind {x : Except Error α} {k : α → Except Error β} (hx : ForDefects x)
    (hk : ∀ a, ForDefects (k a)) : ForDefects (x >>= k) := by
  cases x with
  | ok a => exact hk a
  | error e =>
    rintro e' ⟨⟩
    exact hx e rfl

lemma forM {k : α → Except Error Unit} (hk : ∀ a, ForDefects (k a)) (l : List α) :
    ForDefects (l.forM k) := by
  induction l with
  | nil => exact of_ok
  | cons a rest ih => exact (hk a).bind fun _ => ih

end ForDefects

variable (f : Func)

lemma forDefects_require (cond : Bool) (d : FuncDefect) : ForDefects (f.require cond d) := by
  unfold require
  split
  · exact .of_ok
  · exact .of_malformed

lemma forDefects_verifyPreds (b : BlockId) (preds seen : List BlockId) :
    ForDefects (f.verifyPreds b seen preds) := by
  induction preds generalizing seen with
  | nil => exact .of_ok
  | cons p rest ih =>
    exact (f.forDefects_require _ _).bind fun _ => (f.forDefects_require _ _).bind fun _ => ih _

lemma forDefects_verify : ForDefects f.verify := by
  have hphi : ∀ b preds i, ForDefects (f.verifyPhi b preds i) := by
    intro b preds i
    unfold verifyPhi
    split <;> exact f.forDefects_require _ _
  have hoperand : ∀ b v, ForDefects (f.verifyOperand b v) := by
    intro b v
    unfold verifyOperand
    split
    · exact f.forDefects_require _ _
    · exact f.forDefects_require _ _
    · exact .of_ok
  refine (f.forDefects_require _ _).bind fun _ => .forM (fun e => ?_) _
  unfold verifyBlock
  split
  · exact f.forDefects_require _ _
  · refine (ForDefects.forM (fun _ => f.forDefects_require _ _) _).bind fun _ => ?_
    refine (f.forDefects_verifyPreds _ _ _).bind fun _ => ?_
    refine (ForDefects.forM (hphi _ _) _).bind fun _ => ?_
    refine (ForDefects.forM (fun _ => f.forDefects_require _ _) _).bind fun _ => ?_
    exact .forM (hoperand _) _

lemma forDefects_moveInst (i : InstId) (b : BlockId) : ForDefects (f.moveInst i b) := by
  have hinst : ∀ j, ForDefects (f.getInst j) := by
    intro j
    unfold getInst
    cases f.inst? j with
    | none => exact .of_malformed
    | some p => exact .of_ok
  have hblock : ∀ c, ForDefects (f.getBlock c) := by
    intro c
    unfold getBlock
    cases f.block? c with
    | none => exact .of_malformed
    | some bb => exact .of_ok
  refine (hinst i).bind fun p => ?_
  dsimp only
  split
  · exact ForDefects.of_malformed
  · exact (hblock _).bind fun _ => (hblock _).bind fun _ => .of_ok

end Func

/-- The error is not that a loop has no preheader. -/
def Error.NotForPreheader (e : Error) : Prop := ∀ h, e ≠ .missingPreheader h

lemma Error.notForPreheader_endless : Error.endless.NotForPreheader := fun _ h => nomatch h

lemma Func.ForDefects.notForPreheader {α : Type} {r : Except Error α} (h : ForDefects r) (e : Error)
    (he : r = .error e) : e.NotForPreheader := by
  obtain ⟨d, rfl⟩ := h e he
  exact fun _ h => nomatch h

namespace ConstantOps

/-- The pass is refused only if it would never end. -/
lemma run_refused (s : Session) :
    ConstantOps.run.Meets s (fun _ s' => SameShape s.func s'.func) Error.NotForPreheader := by
  unfold ConstantOps.run
  refine Work.Meets.get_bind ?_
  dsimp only
  split
  · exact Work.Meets.of_throw Error.notForPreheader_endless
  · refine Work.Meets.modify_bind ?_
    split
    · exact Work.Meets.modify_bind (Work.Meets.of_pure (sameShape_folded s.func))
    · exact Work.Meets.of_pure (sameShape_folded s.func)

end ConstantOps

namespace BranchFold

lemma Cuts.preds_entry {f g : Func} {c : Candidate} (h : Cuts f g c) (p : BlockId)
    (hp : p ∈ g.preds g.entry) : p ∈ f.preds f.entry :=
  ((h.preds _ p).1 hp).1

/-- Folding branches gives the entry no predecessor. -/
lemma run_sourced {s : Session} (hf : s.func.Sourced) :
    BranchFold.run.Meets s (fun _ s' => s'.func.Sourced) fun _ => False := by
  refine (run_keeps hf.agree (fun f => f.preds f.entry = []) ?_ hf.source).mono ?_ fun _ h => h
  · intro f c hc hnil
    refine List.eq_nil_iff_forall_not_mem.2 fun p hp => ?_
    have hold := (fold_cuts hc).preds_entry p hp
    rw [hnil] at hold
    cases hold
  · rintro _ s' ⟨hnil, -, hagree, -⟩
    exact ⟨hagree, hnil⟩

end BranchFold

namespace DeadBlocks

/-- Removing blocks leaves preheaders standing. -/
lemma run_complete {s : Session} (hf : s.func.Sourced) :
    DeadBlocks.run.Meets s (fun _ s' => s'.func.Sourced ∧
      (Preheaders.Complete s.func → Preheaders.Complete s'.func)) fun _ => False := by
  refine (run_clears hf.agree).mono ?_ fun _ h => h
  rintro _ s' ⟨-, hclear, -⟩
  have hg : s'.func.Sourced := by
    refine hf.of_preds (hclear.edgesAgree hf.agree) fun p hp => ?_
    have hs := hclear.sound _ p hp
    rw [hclear.edges p (hasBlock_of_succs hs)] at hs
    exact (hf.agree.linked p _).1 hs
  exact ⟨hg, hclear.complete hf.agree hg⟩

end DeadBlocks

namespace Preheaders

lemma Leads.sourced {f : Func} {header : BlockId} {outside : List BlockId} (hf : f.Sourced)
    (h : Leads f header outside) : (withPreheader f ⟨header, outside⟩).Sourced := by
  refine hf.of_preds (edgesAgree_withPreheader h) fun p hp => ?_
  rw [h.led.preds] at hp
  -- the entry is neither the new block nor the header
  have hentry : (withPreheader f ⟨header, outside⟩).entry ≠ f.nextBlock :=
    ne_nextBlock_of_hasBlock hf.agree.entry
  have hheader : (withPreheader f ⟨header, outside⟩).entry ≠ header := by
    intro he
    obtain ⟨q, hq⟩ := List.exists_mem_of_ne_nil _ h.entered
    have hpred := h.preds q hq
    rw [show header = f.entry from he.symm, hf.source] at hpred
    cases hpred
  rwa [if_neg hentry, if_neg hheader] at hp

/-- Insertions go on until all loops have preheaders. -/
lemma insertAll_complete (bound : Nat) {s : Session} (hf : s.func.Sourced)
    (hfresh : s.cache.FreshFor s.func) :
    (insertAll bound).Meets s (fun _ s' => s'.func.Sourced ∧ Complete s'.func)
      Error.NotForPreheader := by
  induction bound generalizing s with
  | zero => exact Work.Meets.of_throw Error.notForPreheader_endless
  | succ bound ih =>
    unfold insertAll
    refine (Session.loops_meets hf.agree.consistent hfresh _).bind ?_
    rintro lf s₁ ⟨rfl, hfunc, -⟩
    refine Work.Meets.get_bind ?_
    rw [hfunc]
    split
    · rename_i hnone
      refine Work.Meets.of_pure ?_
      rw [hfunc]
      exact ⟨hf, complete_of_candidate? hf hnone⟩
    · rename_i c hsome
      have hleads := leads_of_candidate hf.agree hsome
      have hlive : ∀ p ∈ c.outside, s₁.func.hasBlock p = true := by
        intro p hp
        rw [hfunc]
        exact hf.agree.hasBlock_pred (hleads.preds p hp)
      refine (insert_meets hlive _).bind fun pre s₂ hs₂ => ?_
      rw [hfunc] at hs₂
      refine Work.Meets.modify_bind (Work.Meets.modify_bind ?_)
      have hsourced : s₂.func.Sourced := hs₂ ▸ hleads.sourced hf
      exact (ih (s := { s₂ with cache := .empty, journal := _ }) hsourced
        (Cache.FreshFor.empty _)).bind fun _ _ hs₃ => Work.Meets.of_pure hs₃

/-- After the pass all loops have preheaders. -/
lemma run_complete {s : Session} (hf : s.func.Sourced) (hfresh : s.cache.FreshFor s.func) :
    Preheaders.run.Meets s (fun _ s' => s'.func.Sourced ∧ Complete s'.func)
      Error.NotForPreheader := by
  unfold Preheaders.run
  exact Work.Meets.get_bind ((insertAll_complete _ hf hfresh).bind fun _ _ hs' =>
    Work.Meets.of_pure hs')

end Preheaders

namespace Hoist

/-- Within a block, hoisting is refused only for a defect. -/
lemma hoistBlock_refused {E : Error → Prop} (hE : ∀ d, E (.malformed d)) (l : Loop) (pre : BlockId)
    (count : Nat) (b : BlockId) (s : Session) :
    (hoistBlock l pre count b).Meets s (fun _ _ => True) E := by
  unfold hoistBlock
  refine Work.Meets.get_bind (Work.Meets.foldlM (fun _ _ _ => True) ?_ _ count trivial)
  intro count i _ s' _
  unfold hoistInst
  refine Work.Meets.get_bind ?_
  dsimp only
  split
  · refine (Work.Meets.of_ofExcept (Q := fun _ _ => True) (fun _ _ => trivial) ?_).bind
      fun _ _ _ => Work.Meets.modify_bind (Work.Meets.modify_bind (Work.Meets.of_pure trivial))
    intro e he
    obtain ⟨d, rfl⟩ := forDefects_moveInst s'.func i pre e he
    exact hE d
  · exact Work.Meets.of_pure trivial

/-- Where all loops have preheaders, hoisting is refused only if an instruction cannot be
moved. -/
lemma run_refused {s : Session} (hf : s.func.EdgesAgree) (hfresh : s.cache.FreshFor s.func)
    (hc : Preheaders.Complete s.func) :
    Hoist.run.Meets s (fun _ _ => True) Error.NotForPreheader := by
  refine run_meets hf.consistent hfresh (P := fun _ _ _ => True) fun s₁ _ _ => ?_
  refine (Work.Meets.foldlM (fun rest _ _ => ∀ l ∈ rest, ∃ pre, l.preheader = some pre) ?_ _ 0
    fun l hl => hc l (mem_innermostFirst.1 hl)).mono (fun _ _ _ => trivial) fun _ h => h
  intro count l rest s₂ hrest
  obtain ⟨pre, hpre⟩ := hrest l List.mem_cons_self
  unfold hoistLoop
  rw [hpre]
  refine (Work.Meets.foldlM (fun _ _ _ => True) (fun count b _ s₃ _ => ?_) _ count trivial).mono
    (fun _ _ _ m hm => hrest m (List.mem_cons_of_mem _ hm)) fun _ h => h
  exact hoistBlock_refused (fun _ _ h => nomatch h) l pre count b s₃

end Hoist

namespace Pass

/-- Preheaders were inserted, and no branches folded since. -/
def Prepared (before : List Pass) : Prop :=
  ∃ earlier between, before = earlier ++ preheaders :: between ∧ branchFold ∉ between

/-- The last pass inserted preheaders, or is another that leaves them standing. -/
lemma Prepared.of_append {before : List Pass} {p : Pass} (h : Prepared (before ++ [p])) :
    p = preheaders ∨ p ≠ branchFold ∧ Prepared before := by
  obtain ⟨earlier, between, he, hnot⟩ := h
  rcases List.eq_nil_or_concat between with rfl | ⟨init, q, rfl⟩
  · exact .inl (List.append_inj_right' he rfl |> List.singleton_inj.1)
  · rw [List.concat_eq_append, ← List.cons_append, ← List.append_assoc] at he
    obtain ⟨hbefore, hlast⟩ := List.append_inj' he rfl
    obtain rfl := List.singleton_inj.1 hlast
    rw [List.concat_eq_append, List.mem_append, not_or, List.mem_singleton] at hnot
    exact .inr ⟨Ne.symm hnot.2, earlier, init, hbefore, hnot.1⟩

/-- A pass that finds all loops with preheaders, if it hoists, is not refused for one that is
missing. Inserting them leaves them, and every pass but folding branches leaves them standing. -/
lemma run_stands {p : Pass} {s : Session} (h : s.Holds Sourced)
    (hhoist : p = hoist → Preheaders.Complete s.func) :
    p.run.Meets s (fun changed s' => s'.func.Sourced ∧
      (p.cacheAfter changed s'.cache).FreshFor s'.func ∧
      (p = preheaders ∨ p ≠ branchFold ∧ Preheaders.Complete s.func → Preheaders.Complete s'.func))
      Error.NotForPreheader := by
  obtain ⟨hf, hfresh⟩ := h
  have hends := run_ends (p := p) (s := s) ⟨hf.agree, hfresh⟩
  -- what the pass does to preheaders; that analyses are fresh is known already
  suffices hstands : p.run.Meets s (fun _ s' => s'.func.Sourced ∧
      (p = preheaders ∨ p ≠ branchFold ∧ Preheaders.Complete s.func → Preheaders.Complete s'.func))
      Error.NotForPreheader from
    hstands.with_run.mono (fun _ _ hs' => ⟨hs'.1.1, (hends.ok hs'.2).2, hs'.1.2⟩) fun _ h => h
  cases p with
  | constantOps =>
    refine (ConstantOps.run_refused s).mono (fun _ s' hshape => ?_) fun _ h => h
    refine ⟨hf.sameShape hshape, ?_⟩
    rintro (⟨⟨⟩⟩ | ⟨-, hc⟩)
    exact hc.sameShape hshape
  | branchFold =>
    refine (BranchFold.run_sourced hf).mono (fun _ s' hs' => ⟨hs', ?_⟩) fun _ h => h.elim
    rintro (⟨⟨⟩⟩ | ⟨hne, -⟩)
    exact absurd rfl hne
  | deadBlocks =>
    refine (DeadBlocks.run_complete hf).mono (fun _ s' hs' => ⟨hs'.1, ?_⟩) fun _ h => h.elim
    rintro (⟨⟨⟩⟩ | ⟨-, hc⟩)
    exact hs'.2 hc
  | preheaders =>
    exact (Preheaders.run_complete hf hfresh).mono (fun _ s' hs' => ⟨hs'.1, fun _ => hs'.2⟩)
      fun _ h => h
  | hoist =>
    have hshape := Hoist.run_ends hf.agree hfresh
    refine (Hoist.run_refused hf.agree hfresh (hhoist rfl)).with_run.mono (fun _ s' hs' => ?_)
      fun _ h => h
    have hs := (hshape.ok hs'.2).1
    exact ⟨hf.sameShape hs, fun _ => (hhoist rfl).sameShape hs⟩

end Pass

namespace Schedule

variable {sch : Schedule} {s : Session}

lemma runPass_stands (sch : Schedule) (p : Pass) (h : s.Holds Sourced)
    (hhoist : p = .hoist → Preheaders.Complete s.func) :
    (sch.runPass p).Meets s (fun _ s' => s'.Holds Sourced ∧
      (p = .preheaders ∨ p ≠ .branchFold ∧ Preheaders.Complete s.func →
        Preheaders.Complete s'.func)) Error.NotForPreheader := by
  unfold runPass
  refine (Session.compute_meets h.func.agree.consistent h.fresh p.wanted _).bind ?_
  rintro _ s₁ ⟨hfunc, hfresh⟩
  have h₁ : s₁.Holds Sourced := ⟨hfunc ▸ h.func, hfunc ▸ hfresh⟩
  refine (Pass.run_stands h₁ (hfunc ▸ hhoist)).bind ?_
  rintro changed s₂ ⟨hsourced, hfresh₂, hstands⟩
  rw [hfunc] at hstands
  refine Work.Meets.modify_bind ?_
  cases changed with
  | false => exact Work.Meets.of_pure ⟨⟨hsourced, hfresh₂⟩, hstands⟩
  | true =>
    refine Work.Meets.get_bind (Work.Meets.modify_bind ?_)
    dsimp only
    split
    · refine Work.Meets.get_bind ?_
      refine Work.Meets.bind (Work.Meets.of_ofExcept (Q := fun _ s' => s'.Holds Sourced ∧
        (p = .preheaders ∨ p ≠ .branchFold ∧ Preheaders.Complete s.func →
          Preheaders.Complete s'.func)) (fun _ _ => ?_) ?_) fun _ _ hs' => Work.Meets.of_pure hs'
      · exact ⟨⟨hsourced, hfresh₂⟩, hstands⟩
      · exact (forDefects_verify s₂.func).notForPreheader
    · exact Work.Meets.of_pure ⟨⟨hsourced, hfresh₂⟩, hstands⟩

lemma validateFrom_error {before rest : List Pass} {e : Error}
    (h : validateFrom before rest = .error e) : ∃ p r, e = .passOrder p r := by
  induction rest generalizing before with
  | nil => cases h
  | cons p rest ih =>
    unfold validateFrom at h
    split at h
    · cases h
      exact ⟨_, _, rfl⟩
    · exact ih h

/-- Before every hoisting preheaders were inserted, and no branches folded since. -/
def Prepares (sch : Schedule) : Prop :=
  ∀ before after, sch.passes = before ++ .hoist :: after → Pass.Prepared before

lemma run_stands (hprep : sch.Prepares) (h : s.Holds Sourced) :
    sch.run.Meets s (fun _ s' => s'.Holds Sourced) Error.NotForPreheader := by
  unfold run
  refine (Work.Meets.of_ofExcept (Q := fun _ s' => s'.Holds Sourced) (fun _ _ => h)
    fun e he => ?_).bind fun _ s₀ h₀ => ?_
  · obtain ⟨p, r, rfl⟩ := validateFrom_error he
    exact fun _ h => nomatch h
  refine (Work.Meets.foldlM (fun rest _ (s' : Session) => s'.Holds Sourced ∧
    ∃ before, sch.passes = before ++ rest ∧ (Pass.Prepared before → Preheaders.Complete s'.func))
    ?_ sch.passes false ⟨h₀, [], rfl, ?_⟩).mono (fun _ _ hs' => hs'.1) fun _ h => h
  · rintro any p rest s' ⟨hs', before, hpasses, hstands⟩
    refine (sch.runPass_stands p hs' fun hp => ?_).bind fun _ s'' hs'' => Work.Meets.of_pure ?_
    · subst hp
      exact hstands (hprep before rest hpasses)
    · refine ⟨hs''.1, before ++ [p], by rw [hpasses, List.append_cons], fun hprepared => ?_⟩
      exact hs''.2 (hprepared.of_append.imp_right fun hp => ⟨hp.1, hstands hp.2⟩)
  · rintro ⟨earlier, between, he, -⟩
    cases earlier <;> cases he

lemma repeatFrom_stands (hprep : sch.Prepares) (left i : Nat) (h : s.Holds Sourced) :
    (sch.repeatFrom i left).Meets s (fun _ _ => True) Error.NotForPreheader := by
  induction left generalizing i s with
  | zero =>
    unfold repeatFrom
    exact Work.Meets.modify_bind (Work.Meets.of_pure trivial)
  | succ left ih =>
    unfold repeatFrom
    refine (run_stands hprep h).bind fun changed s' hs' => ?_
    split
    · exact ih (i + 1) hs'
    · exact Work.Meets.modify_bind (Work.Meets.of_pure trivial)

/-- If before every hoisting preheaders were inserted and no branches folded since, no run on an
accepted function without an edge to its entry is refused for a missing preheader. -/
theorem run_finds_preheaders (hprep : sch.Prepares) (hverify : s.func.verify = .ok ())
    (hsource : s.func.preds s.func.entry = []) (hfresh : s.cache.FreshFor s.func) (h : BlockId) :
    sch.run.result s ≠ .error (.missingPreheader h) ∧
      ∀ max, (sch.runToFixpoint max).result s ≠ .error (.missingPreheader h) := by
  have hs : s.Holds Sourced := ⟨⟨(verified_of_verify hverify).edgesAgree, hsource⟩, hfresh⟩
  have hnot : ∀ {α : Type} {x : Work Session α} {Q : α → Session → Prop},
      x.Meets s Q Error.NotForPreheader → x.result s ≠ .error (.missingPreheader h) := by
    intro α x Q hx hresult
    unfold Work.result at hresult
    cases hrun : x.run s with
    | ok a s' =>
      rw [hrun] at hresult
      cases hresult
    | error e s' =>
      rw [hrun] at hresult
      cases hresult
      exact hx.error hrun h rfl
  exact ⟨hnot (run_stands hprep hs), fun max => hnot (repeatFrom_stands hprep max 1 hs)⟩

/-- Two blocks that lead to each other, each of them entered from outside: the second only by a
branch on a value that is a constant once a block out of reach is removed. -/
def switchback : Func where
  name := "switchback"
  numArgs := 1
  blocks := #[
    some { terminator := some (.branch (.bool true) ⟨1⟩ ⟨2⟩) },
    some { preds := [⟨0⟩], terminator := some (.jump ⟨3⟩) },
    some { preds := [⟨0⟩], terminator := some (.jump ⟨3⟩) },
    some { phis := [⟨0⟩], preds := [⟨1⟩, ⟨2⟩], terminator := some (.branch (.arg 0) ⟨4⟩ ⟨5⟩) },
    some { preds := [⟨3⟩], terminator := some (.jump ⟨6⟩) },
    some { preds := [⟨3⟩], terminator := some (.branch (.inst ⟨0⟩) ⟨6⟩ ⟨7⟩) },
    some { preds := [⟨4⟩, ⟨5⟩, ⟨7⟩], terminator := some (.jump ⟨7⟩) },
    some { preds := [⟨5⟩, ⟨6⟩], terminator := some (.branch (.arg 0) ⟨6⟩ ⟨8⟩) },
    some { preds := [⟨7⟩], terminator := some (.ret none) }]
  insts := #[some ⟨.phi ⟨[⟨⟨1⟩, .bool true⟩, ⟨⟨2⟩, .bool false⟩]⟩, ⟨3⟩⟩]

lemma switchback_verified : switchback.verify = .ok () := by rfl

/-- Preheaders that are inserted again after branches were folded are there for hoisting. -/
theorem switchback_finds_preheaders :
    let sch : Schedule :=
      ⟨[.constantOps, .branchFold, .deadBlocks, .branchFold, .preheaders, .deadBlocks, .hoist], true⟩
    sch.validate = .ok () ∧
      ∀ h, sch.run.result ⟨switchback, .empty, #[]⟩ ≠ .error (.missingPreheader h) ∧
        ∀ max, (sch.runToFixpoint max).result ⟨switchback, .empty, #[]⟩ ≠
          .error (.missingPreheader h) := by
  refine ⟨by decide, run_finds_preheaders ?_ switchback_verified rfl (Cache.FreshFor.empty _)⟩
  intro before after hpasses
  have hsplit : [.constantOps, .branchFold, .deadBlocks, .branchFold, .preheaders, .deadBlocks] ++
      Pass.hoist :: [] = before ++ .hoist :: after := hpasses
  obtain ⟨rfl, -, -⟩ := (List.append_cons_inj_of_notMem (by decide) (by decide)).1 hsplit
  exact ⟨[.constantOps, .branchFold, .deadBlocks, .branchFold], [.deadBlocks], rfl, by decide⟩

/-- Preheaders that were inserted somewhere before are not enough: when the second branch of the
switchback is folded, its cycle becomes a loop that is entered from two blocks. -/
theorem switchback_loses_preheader :
    ¬ ∀ (sch : Schedule) (f : Func), sch.validate = .ok () → f.verify = .ok () →
      f.preds f.entry = [] → f.DominatedWhereReached →
      ∀ h, sch.run.result ⟨f, .empty, #[]⟩ ≠ .error (.missingPreheader h) := by
  intro hall
  refine hall ⟨[.constantOps, .branchFold, .deadBlocks, .preheaders, .branchFold, .deadBlocks,
    .hoist], true⟩ switchback (by decide) switchback_verified rfl ?_ ⟨6⟩ (by decide +kernel)
  exact dominated_of_check (verified_of_verify switchback_verified).consistent (by decide +kernel)

end Schedule

end SsaBackend
