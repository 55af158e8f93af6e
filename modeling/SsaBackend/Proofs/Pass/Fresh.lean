import SsaBackend.Proofs.Compile
import SsaBackend.Proofs.Loop.Nesting
import SsaBackend.Proofs.Pass.Endings

/-!
# Analyses are never stale

Whatever passes run on a function that was accepted once, what the session knows of the function
is what would be computed now (`Schedule.analyses_stay_fresh`): between two passes, at the end, and
where a run is refused. Nothing else is carried from pass to pass than edges that are listed at
both ends; so it does not matter whether the function is checked on the way or would still be
accepted.
-/

namespace SsaBackend

open Func

namespace Session

/-- From fresh analyses come the loops of the function, and the intervals with them. -/
lemma loops_of_fresh {s : Session} (hg : s.func.cfg.Consistent)
    (hfresh : s.cache.FreshFor s.func) :
    Session.loops.result s = .ok (s.func.loopForest s.func.cfg.domTree) ∧
      Session.intervals.result s =
        s.func.liveIntervals (s.func.loopForest s.func.cfg.domTree) := by
  obtain ⟨lf, s', hrun, hlf, hfunc, -⟩ :=
    (Session.loops_meets hg hfresh fun _ => False).exists_ok
  rw [← hlf, ← hfunc]
  constructor
  · unfold Work.result
    rw [hrun]
  · have hstep : Session.intervals.run s = (do
        let ivs ← Work.ofExcept (s'.func.liveIntervals lf)
        modify fun s => { s with journal := s.journal ++ ivs.events s.func.name }
        return ivs : Work Session Intervals).run s' := by
      unfold Session.intervals
      simp only [EStateM.run_bind, EStateM.run_get, hrun]
    unfold Work.result
    rw [hstep]
    cases s'.func.liveIntervals lf <;> rfl

end Session

namespace Pass

/-- However a pass ends, what it says it keeps is up to date. -/
lemma run_ends {p : Pass} {s : Session} (h : s.Holds EdgesAgree) :
    p.run.Ends s (fun changed s' => s'.func.EdgesAgree ∧
      (p.cacheAfter changed s'.cache).FreshFor s'.func) fun s' => s'.cache.FreshFor s'.func := by
  obtain ⟨hf, hfresh⟩ := h
  cases p with
  | constantOps =>
    refine (ConstantOps.run_ends s).mono ?_ fun s' hs' => ?_
    · rintro changed s' ⟨hcache, hfunc, -, -⟩
      have hshape := ConstantOps.sameShape_folded s.func
      rw [← hfunc] at hshape
      exact ⟨hf.sameShape hshape, fresh_cacheAfter (hcache ▸ hfresh.sameShape hshape) _⟩
    · rw [hs']
      exact hfresh
  | branchFold =>
    refine (BranchFold.run_ends hf).ends.mono ?_ fun _ h => h
    rintro changed s' ⟨hcache, hagree, -, hsame, -⟩
    exact ⟨hagree, fresh_of_forgotten rfl (hcache ▸ hfresh) hsame⟩
  | deadBlocks =>
    refine (DeadBlocks.run_ends hf).ends.mono ?_ fun _ h => h
    rintro changed s' ⟨hcache, hagree, -, hsame, -⟩
    exact ⟨hagree, fresh_of_forgotten rfl (hcache ▸ hfresh) hsame⟩
  | preheaders =>
    refine (Preheaders.run_ends hf hfresh).mono ?_ fun _ h => h
    rintro changed s' ⟨hagree, hfresh', -, -⟩
    exact ⟨hagree, fresh_cacheAfter hfresh' _⟩
  | hoist =>
    refine (Hoist.run_ends hf hfresh).mono ?_ fun _ h => h
    rintro changed s' ⟨hshape, hfresh'⟩
    exact ⟨hf.sameShape hshape, fresh_cacheAfter hfresh' _⟩

end Pass

namespace Schedule

variable {sch : Schedule} {s : Session}

/-- A pass of a schedule hands on edges that agree and analyses that are fresh. -/
lemma runPass_ends (sch : Schedule) (p : Pass) (h : s.Holds EdgesAgree) :
    (sch.runPass p).Ends s (fun _ s' => s'.Holds EdgesAgree)
      fun s' => s'.cache.FreshFor s'.func := by
  unfold runPass
  refine (Session.compute_meets h.func.consistent h.fresh p.wanted _).ends.bind ?_
  rintro _ s₁ ⟨hfunc, hfresh⟩
  have h₁ : s₁.Holds EdgesAgree := ⟨hfunc ▸ h.func, hfunc ▸ hfresh⟩
  refine (Pass.run_ends h₁).bind ?_
  rintro changed s₂ ⟨hagree, hfresh₂⟩
  refine Work.Ends.modify_bind ?_
  cases changed with
  | false => exact Work.Ends.of_pure ⟨hagree, hfresh₂⟩
  | true =>
    refine Work.Ends.get_bind (Work.Ends.modify_bind ?_)
    dsimp only
    split
    · exact Work.Ends.get_bind (Work.Ends.ofExcept_bind
        (fun _ _ => Work.Ends.of_pure ⟨hagree, hfresh₂⟩) hfresh₂)
    · exact Work.Ends.of_pure ⟨hagree, hfresh₂⟩

lemma run_ends (sch : Schedule) (h : s.Holds EdgesAgree) :
    sch.run.Ends s (fun _ s' => s'.Holds EdgesAgree) fun s' => s'.cache.FreshFor s'.func := by
  unfold run
  refine Work.Ends.ofExcept_bind (fun _ _ => ?_) h.fresh
  refine Work.Ends.foldlM (fun _ _ (s' : Session) => s'.Holds EdgesAgree)
    (fun any p _ s' hs' => ?_) _ _ h
  exact (runPass_ends sch p hs').bind fun _ _ hs'' => Work.Ends.of_pure hs''

lemma repeatFrom_ends (sch : Schedule) (left i : Nat) (h : s.Holds EdgesAgree) :
    (sch.repeatFrom i left).Ends s (fun _ s' => s'.Holds EdgesAgree)
      fun s' => s'.cache.FreshFor s'.func := by
  induction left generalizing i s with
  | zero =>
    unfold repeatFrom
    exact Work.Ends.modify_bind (Work.Ends.of_pure ⟨h.func, h.fresh⟩)
  | succ left ih =>
    unfold repeatFrom
    refine (sch.run_ends h).bind fun changed s' hs' => ?_
    split
    · exact ih (i + 1) hs'
    · exact Work.Ends.modify_bind (Work.Ends.of_pure ⟨hs'.func, hs'.fresh⟩)

/-- Where a run of a schedule that began with `s` can stand between two passes, with the passes
`rest` of the round still to come. -/
inductive Between (sch : Schedule) (s : Session) : List Pass → Session → Prop
  | start (valid : sch.validate = .ok ()) : Between sch s sch.passes s
  | pass {p : Pass} {rest : List Pass} {changed : Bool} {s₁ s₂ : Session}
    (before : Between sch s (p :: rest) s₁) (ran : (sch.runPass p).run s₁ = .ok changed s₂) :
    Between sch s rest s₂
  | again {s₁ : Session} (before : Between sch s [] s₁) : Between sch s sch.passes s₁

lemma Between.holds {rest : List Pass} {s' : Session} (h : s.Holds EdgesAgree)
    (hs' : sch.Between s rest s') : s'.Holds EdgesAgree := by
  induction hs' with
  | start => exact h
  | pass _ hran ih => exact (sch.runPass_ends _ ih).ok hran
  | again _ ih => exact ih

/-- Of a function that was accepted, with analyses that are fresh, no run of passes comes to know
anything stale: not between two passes, not at its end, and not where it is refused. The loops by
which intervals are weighed are those of the function that the passes leave. -/
theorem analyses_stay_fresh (sch : Schedule) (hverify : s.func.verify = .ok ())
    (hfresh : s.cache.FreshFor s.func) :
    (∀ rest s', sch.Between s rest s' → s'.cache.FreshFor s'.func) ∧
    (sch.run.state s).cache.FreshFor (sch.run.state s).func ∧
    (∀ max, ((sch.runToFixpoint max).state s).cache.FreshFor
      ((sch.runToFixpoint max).state s).func) ∧
    ∀ (c : Config) (changed : Bool) (s' : Session),
      (c.schedule.runToFixpoint c.maxRounds).run s = .ok changed s' →
      ∃ dom, s'.func.dominators = .ok dom ∧ ∀ journal,
        Session.loops.result { s' with journal } = .ok (s'.func.loopForest dom) ∧
        Session.intervals.result { s' with journal } =
          s'.func.liveIntervals (s'.func.loopForest dom) := by
  have h : s.Holds EdgesAgree := ⟨(verified_of_verify hverify).edgesAgree, hfresh⟩
  refine ⟨fun rest s' hs' => (hs'.holds h).fresh, ?_, fun max => ?_, fun c changed s' hrun => ?_⟩
  · exact (sch.run_ends h).state (P := fun s' => s'.cache.FreshFor s'.func)
      (fun _ _ hs' => hs'.fresh) fun _ hs' => hs'
  · exact (sch.repeatFrom_ends max 1 h).state (P := fun s' => s'.cache.FreshFor s'.func)
      (fun _ _ hs' => hs'.fresh) fun _ hs' => hs'
  · obtain ⟨hagree, hfresh'⟩ := (c.schedule.repeatFrom_ends c.maxRounds 1 h).ok hrun
    refine ⟨_, hagree.consistent.dominators_eq, fun journal => ?_⟩
    exact Session.loops_of_fresh (s := { s' with journal }) hagree.consistent hfresh'

/-- Begun with all that is known of the spiral, a schedule of every pass stays fresh. -/
theorem spiral_stays_fresh :
    ∃ c : Cache, c = ⟨some spiral.cfg.domTree, some (spiral.loopForest spiral.cfg.domTree)⟩ ∧
      (spiral.verify = .ok () ∧ c.FreshFor spiral) ∧
      let sch : Schedule := ⟨Pass.all, true⟩
      let s : Session := ⟨spiral, c, #[]⟩
      (∀ rest s', sch.Between s rest s' → s'.cache.FreshFor s'.func) ∧
      sch.run.result s = .ok true ∧
      (sch.run.state s).cache.FreshFor (sch.run.state s).func := by
  have hv : spiral.verify = .ok () := by rfl
  have hdom : spiral.dominators = .ok spiral.cfg.domTree :=
    (verified_of_verify hv).consistent.dominators_eq
  have hc : Cache.FreshFor ⟨some spiral.cfg.domTree,
      some (spiral.loopForest spiral.cfg.domTree)⟩ spiral := by
    refine ⟨fun t ht => ?_, fun lf hlf => ⟨_, hdom, (Option.some.inj hlf).symm⟩⟩
    rw [← Option.some.inj ht]
    exact hdom
  obtain ⟨hbetween, hrun, -, -⟩ :=
    analyses_stay_fresh (s := ⟨spiral, _, #[]⟩) ⟨Pass.all, true⟩ hv hc
  exact ⟨_, rfl, ⟨hv, hc⟩, hbetween, by decide +kernel, hrun⟩

end Schedule

end SsaBackend
