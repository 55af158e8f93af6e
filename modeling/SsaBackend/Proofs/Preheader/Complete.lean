import SsaBackend.Proofs.Loop.Found
import SsaBackend.Proofs.Pass.Session
import SsaBackend.Proofs.Preheader.Sound

/-!
# Every loop gets a preheader

A header lacks a preheader if it is entered, but not through one block that leads nowhere else
(`Preheaders.Lacks`). Inserting a preheader takes its header off the list of those and puts no
other block on it: the new block is no header, since the entering blocks can be reached without
it, and what enters the other headers stays as it was (`Inserted.lacks`). The list is no longer
than the table of blocks, so the pass ends (`run_completes`), and then all loops have preheaders.
-/

namespace SsaBackend

/-- Terminators without an edge to `old` stay as they are. -/
lemma Terminator.retarget_of_not_mem {old new : BlockId} {t : Terminator}
    (h : old ∉ t.successors) : t.retarget old new = t := by
  cases t with
  | jump b =>
    have hne : b ≠ old := by simpa [successors, eq_comm] using h
    simp [retarget, hne]
  | branch c x y =>
    have hx : x ≠ old := fun he => h (mem_successors_branch.2 (.inl he.symm))
    have hy : y ≠ old := fun he => h (mem_successors_branch.2 (.inr he.symm))
    simp [retarget, hx, hy]
  | ret v => rfl

namespace Preheaders

open Func

variable {f g : Func} {header pre h' : BlockId} {outside : List BlockId} {hh : Block}
  {new : List InstId}

/-- The block is the header of a loop that is entered, but not through a preheader. -/
structure Lacks (f : Func) (h : BlockId) : Prop where
  latch : ∃ p ∈ f.preds h, f.Dom h p
  entered : f.enteringPreds h ≠ []
  missing : ¬ ∃ p, f.enteringPreds h = [p] ∧ f.succs p = [h]

/-- A header that lacks a preheader, with the blocks that enter it. -/
lemma Lacks.entering (hc : f.Tidy) (hl : Lacks f header) :
    ∃ hh, Entered f header (f.enteringPreds header) hh := by
  obtain ⟨p, hp, -⟩ := hl.latch
  obtain ⟨hh, hb⟩ := exists_block_of_pred hp
  refine ⟨hh, hc.wired, hc.tight, ?_, hb, ?_, ?_, hl.entered⟩
  · -- the entry dominates all blocks, so nothing enters it
    rintro rfl
    obtain ⟨q, hq⟩ := List.exists_mem_of_ne_nil _ hl.entered
    exact ((mem_enteringPreds hc).1 hq).2 (Dominates.of_start _)
  · intro q hq
    exact preds_of_block hb ▸ (List.mem_filter.1 hq).1
  · unfold enteringPreds
    rw [preds_of_block hb]
    exact (hc.wired.predsOnce header hh hb).filter _

/-! ## One insertion -/

namespace Inserted

lemma tidy (h : Inserted f g header pre outside hh new) (he : Entered f header outside hh)
    (hc : f.Tidy) : g.Tidy where
  wired := h.wired he
  tight := h.tight he
  reached := h.allReached he hc.reached
  dominated := h.dominated he hc.dominated
  args := h.argsKnown he hc.args

/-- Blocks without an entering edge lead where they led. -/
lemma succs_eq (h : Inserted f g header pre outside hh new) {b : BlockId} (hb : b ≠ pre)
    (hnot : header ∉ f.succs b) : g.succs b = f.succs b := by
  unfold succs at hnot ⊢
  rw [h.old b hb]
  cases hbb : f.block? b with
  | none => rfl
  | some bb =>
    rw [hbb] at hnot
    simp only [Option.map_some, Option.elim_some, Block.successors] at hnot ⊢
    split
    · cases ht : bb.terminator with
      | none => rfl
      | some t =>
        rw [ht] at hnot
        simp only [Option.map_some, Option.elim_some] at hnot ⊢
        rw [Terminator.retarget_of_not_mem hnot]
    · rfl

/-- A block that enters the header is reached without the header, and without the preheader. -/
lemma route_outside (h : Inserted f g header pre outside hh new) (he : Entered f header outside hh)
    {p : BlockId} (hnot : ¬ f.Dom header p) (hp : p ≠ pre) :
    ∃ r, Route g.cfg.Edge g.cfg.entry (p.index :: r) ∧ header.index ∉ p.index :: r ∧
      pre.index ∉ p.index :: r := by
  obtain ⟨l, hl, hmiss⟩ : ∃ l, Route f.cfg.Edge f.cfg.entry (p.index :: l) ∧
      header.index ∉ p.index :: l := by
    unfold Func.Dom Digraph.Dom Dominates at hnot
    push Not at hnot
    exact hnot
  obtain ⟨r, hr, hmem, hclean⟩ := h.lift he hl p.index l rfl
  have hne : header.index ≠ pre.index :=
    fun hc => h.ne_of_block he.block (BlockId.index_inj.1 hc)
  refine ⟨r, hr, ?_, ?_⟩
  · intro hc
    rcases List.mem_cons.1 hc with hc | hc
    · exact hmiss (hc ▸ List.mem_cons_self)
    · rcases hmem _ hc with hc | hc
      · exact hmiss (List.mem_cons_of_mem _ hc)
      · exact hne hc
  · intro hc
    rcases List.mem_cons.1 hc with hc | hc
    · exact hp (BlockId.index_inj.1 hc.symm)
    · exact hclean hmiss hc

/-- The header is not above the preheader. -/
lemma not_dom_preheader (h : Inserted f g header pre (f.enteringPreds header) hh new)
    (he : Entered f header (f.enteringPreds header) hh) (hc : f.Tidy) : ¬ g.Dom header pre := by
  intro hd
  obtain ⟨p, hp⟩ := List.exists_mem_of_ne_nil _ he.entered
  have hpne : p ≠ pre := fun hc => h.preheader_not_outside he (hc ▸ hp)
  obtain ⟨r, hr, hmiss, -⟩ := h.route_outside he ((mem_enteringPreds hc).1 hp).2 hpne
  have hstep := hr.step (edge_iff (s := pre).2 (h.edge_preheader he hp))
  rcases List.mem_cons.1 (hd _ hstep) with hc | hc
  · exact h.ne_of_block he.block (BlockId.index_inj.1 hc)
  · exact hmiss hc

/-- The preheader is no header: it is above none of its predecessors. -/
lemma no_latch_preheader (h : Inserted f g header pre (f.enteringPreds header) hh new)
    (he : Entered f header (f.enteringPreds header) hh) (hc : f.Tidy) :
    ¬ ∃ p ∈ g.preds pre, g.Dom pre p := by
  rintro ⟨p, hp, hd⟩
  rw [h.preds_preheader] at hp
  have hpne : p ≠ pre := fun hc => h.preheader_not_outside he (hc ▸ hp)
  obtain ⟨r, hr, -, hmiss⟩ := h.route_outside he ((mem_enteringPreds hc).1 hp).2 hpne
  exact hmiss (hd _ hr)

/-- The header is entered through the preheader now. -/
lemma not_lacks_header (h : Inserted f g header pre (f.enteringPreds header) hh new)
    (he : Entered f header (f.enteringPreds header) hh) (hc : f.Tidy) : ¬ Lacks g header := by
  intro hl
  have hg := h.tidy he hc
  have hheadne := h.ne_of_block he.block
  apply hl.missing
  refine ⟨pre, ?_, h.succs_preheader⟩
  have hpreds := h.preds_old he hheadne
  rw [if_pos rfl] at hpreds
  have hold : ∀ p ∈ (f.preds header).filter (!(f.enteringPreds header).contains ·),
      g.cfg.domTree.dominates header.index p.index = true := by
    intro p hp
    obtain ⟨hp, hnot⟩ := List.mem_filter.1 hp
    have hdom : f.Dom header p := by
      by_contra hd
      have := (mem_enteringPreds hc).2 ⟨hp, hd⟩
      simp [this] at hnot
    have hpne := h.ne_of_pred he hp
    have hd := (h.dom_iff he hheadne hpne).2 hdom
    have hr := (h.reached_iff he hpne).2 (hc.reached_pred hp)
    exact (Digraph.domTree_dominates hg.consistent _ _).2 ⟨hd.reaches hr, hr, hd⟩
  have hpre : g.cfg.domTree.dominates header.index pre.index = false := by
    rw [← Bool.not_eq_true, Digraph.domTree_dominates hg.consistent]
    exact fun hd => h.not_dom_preheader he hc hd.2.2
  have hnil : ((f.preds header).filter (!(f.enteringPreds header).contains ·)).filter
      (fun p => !g.cfg.domTree.dominates header.index p.index) = [] := by
    rw [List.filter_eq_nil_iff]
    intro p hp
    rw [hold p hp]
    simp
  show (g.preds header).filter (fun p => !g.cfg.domTree.dominates header.index p.index) = [pre]
  rw [hpreds, List.filter_append, hnil, List.filter_cons, hpre]
  rfl


/-- What lacks a preheader after the insertion lacked one before, and is another header. -/
lemma lacks (h : Inserted f g header pre (f.enteringPreds header) hh new)
    (he : Entered f header (f.enteringPreds header) hh) (hc : f.Tidy) (hl : Lacks g h') :
    h' ≠ header ∧ Lacks f h' := by
  have hne : h' ≠ header := fun e => h.not_lacks_header he hc (e ▸ hl)
  have hpre : h' ≠ pre := fun e => h.no_latch_preheader he hc (e ▸ hl).latch
  have hg := h.tidy he hc
  have hpreds : g.preds h' = f.preds h' := by rw [h.preds_old he hpre, if_neg hne]
  have hold : ∀ p ∈ f.preds h', p ≠ pre := fun p hp => h.ne_of_pred he hp
  have hdom : ∀ p ∈ f.preds h', g.cfg.domTree.dominates h'.index p.index =
      f.cfg.domTree.dominates h'.index p.index := by
    intro p hp
    rw [Bool.eq_iff_iff, Digraph.domTree_dominates hg.consistent,
      Digraph.domTree_dominates hc.consistent]
    exact and_congr (h.reached_iff he hpre)
      (and_congr (h.reached_iff he (hold p hp)) (h.dom_iff he hpre (hold p hp)))
  have henter : g.enteringPreds h' = f.enteringPreds h' := by
    unfold enteringPreds
    rw [hpreds]
    exact List.filter_congr fun p hp => by rw [hdom p hp]
  refine ⟨hne, ?_, ?_, ?_⟩
  · obtain ⟨p, hp, hd⟩ := hl.latch
    rw [hpreds] at hp
    exact ⟨p, hp, (h.dom_iff he hpre (hold p hp)).1 hd⟩
  · rw [← henter]
    exact hl.entered
  · rintro ⟨p, hp, hs⟩
    apply hl.missing
    have hmem : p ∈ f.preds h' :=
      (List.mem_filter.1 (show p ∈ f.enteringPreds h' from hp ▸ List.mem_singleton_self _)).1
    refine ⟨p, henter.trans hp, ?_⟩
    rw [h.succs_eq (hold p hmem), hs]
    rw [hs]
    simpa using Ne.symm hne

end Inserted

/-! ## The candidates -/

/-- A candidate is a header that lacks a preheader, with the blocks that enter it. -/
lemma candidate?_some (hc : f.Tidy) {c : Candidate}
    (h : candidate? f (f.loopForest f.cfg.domTree) = some c) :
    Lacks f c.header ∧ c.outside = f.enteringPreds c.header := by
  unfold candidate? at h
  obtain ⟨l, hl, hcand⟩ := List.exists_of_findSome?_eq_some h
  have hloop := loopOf_of_mem hc hl
  have hout := hloop.outsidePreds hc
  simp only at hcand
  split at hcand
  · rename_i hcond
    cases hcand
    rw [Bool.and_eq_true, Option.isNone_iff_eq_none, hloop.preheader] at hcond
    refine ⟨⟨hloop.latch, ?_, ?_⟩, hout⟩
    · rw [← hout]
      simpa using hcond.2
    · rintro ⟨p, hp, hs⟩
      have hfind := hcond.1
      unfold Loop.findPreheader at hfind
      rw [hout, hp] at hfind
      simp [hs] at hfind
  · cases hcand

/-- All loops of the function have preheaders, but for one at the entry. -/
def HasPreheaders (f : Func) : Prop :=
  ∀ l ∈ (f.loopForest f.cfg.domTree).loops, l.header ≠ f.entry → ∃ pre, l.preheader = some pre

/-- Without a candidate all loops have preheaders. -/
lemma candidate?_none (hc : f.Tidy) (h : candidate? f (f.loopForest f.cfg.domTree) = none) :
    HasPreheaders f := by
  intro l hl hne
  have hloop := loopOf_of_mem hc hl
  have hnone := List.findSome?_eq_none_iff.1 h l hl
  simp only [ite_eq_right_iff, Option.some_ne_none, imp_false, Bool.and_eq_true,
    Option.isNone_iff_eq_none, not_and] at hnone
  by_contra hmiss
  have hpre : l.preheader = none := by
    rw [Option.eq_none_iff_forall_ne_some]
    exact fun p hp => hmiss ⟨p, hp⟩
  -- the header is not the entry, so it is entered
  obtain ⟨p, hp, -⟩ := hloop.latch
  obtain ⟨bb, hb⟩ := exists_block_of_pred hp
  obtain ⟨q, hq⟩ := exists_enteringPreds hc hb hne
  rw [← hloop.outsidePreds hc] at hq
  apply hnone hpre
  cases ho : l.outsidePreds f with
  | nil =>
    rw [ho] at hq
    cases hq
  | cons x rest => rfl

/-! ## The pass -/

/-- An insertion ends well, and gives the function with the preheader. -/
lemma insert_meets {s : Session} {c : Candidate}
    (hlive : ∀ p ∈ c.outside, s.func.hasBlock p = true) (E : Error → Prop) :
    (insert c).Meets s (fun _ s' => s'.func = withPreheader s.func c) E := by
  unfold insert
  refine Work.Meets.get_bind (Work.Meets.modify_bind ?_)
  have hloop := Work.Meets.forM (E := E)
    (f := fun p => do
      let _ ← Work.ofExcept ((← get).func.getBlock p)
      Session.modifyFunc (reroute c.header s.func.nextBlock · p))
    (s := { s with func := s.func.addBlock })
    (fun rest s' => (∀ p ∈ rest, s'.func.hasBlock p = true) ∧
      withPreheader s.func c =
        attach c s.func.nextBlock (rest.foldl (reroute c.header s.func.nextBlock) s'.func))
    ?_ c.outside ⟨?_, rfl⟩
  · exact hloop.bind fun _ s' hs' => Work.Meets.modify_bind (Work.Meets.of_pure hs'.2.symm)
  · rintro p rest s' ⟨hlive, heq⟩
    have hget : ∃ bb, s'.func.getBlock p = .ok bb := by
      obtain ⟨bb, hb⟩ := Option.isSome_iff_exists.1 (hlive p List.mem_cons_self)
      unfold getBlock
      rw [hb]
      exact ⟨bb, rfl⟩
    obtain ⟨bb, hbb⟩ := hget
    refine Work.Meets.get_bind (Work.Meets.ofExcept_bind hbb (Work.Meets.of_modify ⟨?_, heq⟩))
    intro q hq
    unfold reroute
    rw [hasBlock_modifyBlock, hasBlock_modifyBlock]
    exact hlive q (List.mem_cons_of_mem _ hq)
  · exact fun p hp => hasBlock_addBlock (hlive p hp)

/-- Insertions end when the headers that lack a preheader are used up, and keep what one
insertion keeps. -/
lemma insertAll_meets (P : Func → Prop)
    (hstep : ∀ f header, f.Tidy → Lacks f header → P f →
      P (withPreheader f ⟨header, f.enteringPreds header⟩))
    (bound : Nat) {s : Session} (hc : s.func.Tidy) (hfresh : s.cache.FreshFor s.func)
    (hs : List BlockId) (hlack : ∀ h, Lacks s.func h → h ∈ hs) (hlen : hs.length < bound)
    (hP : P s.func) :
    (insertAll bound).Meets s (fun _ s' => s'.func.Tidy ∧ s'.cache.FreshFor s'.func ∧
      HasPreheaders s'.func ∧ P s'.func) fun _ => False := by
  induction bound generalizing s hs with
  | zero => omega
  | succ bound ih =>
    unfold insertAll
    refine (Session.loops_meets hc.consistent hfresh _).bind ?_
    rintro lf s₁ ⟨rfl, hfunc, hfresh₁⟩
    refine Work.Meets.get_bind ?_
    rw [hfunc]
    split
    · rename_i hnone
      refine Work.Meets.of_pure ?_
      rw [hfunc]
      -- where there is no candidate, no header lacks a preheader
      exact ⟨hc, hfresh₁, candidate?_none hc hnone, hP⟩
    · rename_i c hsome
      obtain ⟨hl, hout⟩ := candidate?_some hc hsome
      obtain ⟨hh, he⟩ := hl.entering hc
      obtain ⟨new, hins⟩ := he.inserted
      have hlive : ∀ p ∈ c.outside, s₁.func.hasBlock p = true := by
        intro p hp
        rw [hout] at hp
        rw [hfunc]
        exact hasBlock_of_succs (he.edge hp)
      refine (insert_meets hlive _).bind fun pre s₂ hs₂ => ?_
      refine Work.Meets.modify_bind (Work.Meets.modify_bind ?_)
      have heq : s₂.func = withPreheader s.func ⟨c.header, s.func.enteringPreds c.header⟩ := by
        rw [hs₂, hfunc, ← hout]
      have hmem := hlack _ hl
      refine (ih (s := { s₂ with cache := .empty, journal := _ }) ?_
        (Cache.FreshFor.empty _) (hs.erase c.header) ?_ ?_ ?_).bind
        fun _ s₃ hs₃ => Work.Meets.of_pure hs₃
      · show s₂.func.Tidy
        rw [heq]
        exact hins.tidy he hc
      · intro h hlacks
        have hlacks : Lacks s₂.func h := hlacks
        rw [heq] at hlacks
        obtain ⟨hne, hold⟩ := hins.lacks he hc hlacks
        exact (List.mem_erase_of_ne hne).2 (hlack h hold)
      · -- the header that was served is off the list
        have := List.length_erase_of_mem hmem
        have := List.length_pos_of_mem hmem
        omega
      · show P s₂.func
        rw [heq]
        exact hstep _ _ hc hl hP

/-- The pass ends well, afterwards all loops but one at the entry have preheaders, and what one
insertion keeps is kept. -/
lemma run_meets (P : Func → Prop)
    (hstep : ∀ f header, f.Tidy → Lacks f header → P f →
      P (withPreheader f ⟨header, f.enteringPreds header⟩))
    {s : Session} (hc : s.func.Tidy) (hfresh : s.cache.FreshFor s.func) (hP : P s.func) :
    Preheaders.run.Meets s (fun _ s' => s'.func.Tidy ∧ s'.cache.FreshFor s'.func ∧
      HasPreheaders s'.func ∧ P s'.func) fun _ => False := by
  unfold Preheaders.run
  refine Work.Meets.get_bind ((insertAll_meets P hstep _ hc hfresh s.func.blockIds ?_ ?_ hP).bind
    fun _ s' hs' => Work.Meets.of_pure hs')
  · intro h hl
    obtain ⟨p, hp, -⟩ := hl.latch
    exact mem_blockIds.2 (Option.isSome_iff_exists.2 (exists_block_of_pred hp))
  · rw [blockIds_eq, List.length_map]
    have := List.length_filter_le (fun i => s.func.hasBlock ⟨i⟩) (List.range s.func.blockCapacity)
    rw [List.length_range] at this
    omega

/-! ## An entry without predecessors -/

/-- All loops of the function have preheaders. -/
def Complete (f : Func) : Prop :=
  ∀ l ∈ (f.loopForest f.cfg.domTree).loops, ∃ pre, l.preheader = some pre

/-- The entry keeps its predecessors. -/
lemma Inserted.preds_entry (h : Inserted f g header pre outside hh new)
    (he : Entered f header outside hh) : g.preds g.entry = f.preds f.entry := by
  obtain ⟨ee, hee⟩ := he.wired.start
  have hne := h.ne_of_block hee
  show g.preds f.entry = _
  rw [h.preds_old he hne, if_neg (Ne.symm he.notEntry)]

/-- The pass ends well, and afterwards all loops have preheaders. -/
theorem run_completes {s : Session} (hc : s.func.Clean) (hfresh : s.cache.FreshFor s.func) :
    Preheaders.run.Meets s (fun _ s' => s'.func.Clean ∧ s'.cache.FreshFor s'.func ∧
      Complete s'.func) fun _ => False := by
  refine (run_meets (fun f => f.preds f.entry = []) ?_ hc.tidy hfresh hc.framed.source).mono ?_
    fun _ h => h
  · intro f header hf hl hnil
    obtain ⟨hh, he⟩ := hl.entering hf
    obtain ⟨new, hins⟩ := he.inserted
    exact (hins.preds_entry he).trans hnil
  · rintro _ s' ⟨ht, hfresh', hpre, hnil⟩
    refine ⟨⟨⟨ht.wired, hnil⟩, ht.tight, ht.reached, ht.dominated, ht.args⟩, hfresh', ?_⟩
    intro l hl
    refine hpre l hl fun he => ?_
    -- a header has a predecessor
    obtain ⟨p, hp, -⟩ := (loopOf_of_mem ht hl).latch
    rw [he, hnil] at hp
    cases hp

end Preheaders

end SsaBackend
