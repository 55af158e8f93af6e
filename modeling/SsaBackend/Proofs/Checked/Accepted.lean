import SsaBackend.Proofs.Checked.Allocation
import SsaBackend.Proofs.Checked.Passes

/-!
# A function that was accepted stays in range

The definitions that run read a default where there is no place to read, and the ones that look
before they reach refuse it. For a function that passes the checks, and reads no result of a block
before it is there, the two go alike from the dominators to the registers, and neither comes to an
access that is refused (`Func.accepted_stays_in_range`).
-/

namespace SsaBackend

namespace Func

variable {f : Func}

/-- A function reads late if every body is found to do so. -/
lemma readsLate_of_check
    (h : (f.liveBlocks.all fun e => f.checkReads e.2.body [] e.2.body) = true) : f.ReadsLate := by
  intro b bb hb before i after hsplit p hp j q hj hbody _ _
  have hread : .inst j ∈ (f.action i).reads := by
    unfold action
    rw [hp]
    exact hj
  exact checkReads_spec (List.all_eq_true.1 h (b, bb) (mem_liveBlocks.2 hb)) hsplit hread hbody

/-- For a function that was accepted, whose blocks read no result of their own before it is there
and whose slots have numbers, every block that a terminator names has a place, and no access is
refused: not in finding dominators, orders, what can be reached, loops and live intervals, not in
any pass that is run on it, and not in an allocation of its intervals, whatever the target and
however many colors there are. Everything goes as it goes without looking; work that is refused is
refused for another reason. -/
theorem accepted_stays_in_range (hverify : f.verify = .ok ()) (hlate : f.ReadsLate)
    (hslots : f.SlotsFit (f.loopForest f.cfg.domTree)) :
    (∀ b, ∀ s ∈ f.succs b, s.index < f.blockCapacity) ∧ ∃ dom lf ivs,
      (f.dominators = .ok dom ∧ f.cfg.dominators? = .ok dom) ∧
      (∀ start, ∃ order, f.postorder start = .ok order ∧ f.cfg.postorder? start = .ok order) ∧
      (∀ start, ∃ met, f.reachable start = .ok met ∧ f.cfg.reachable? start = .ok met) ∧
      (lf = f.loopForest dom ∧ f.loopForest? dom = .ok lf) ∧
      (f.liveIntervals lf = .ok ivs ∧ f.liveIntervals? lf = .ok ivs) ∧
      (∀ (p : Pass) (s : Session), s.func = f → s.cache.FreshFor f →
        p.run?.run s = p.run.run s ∧ p.run.result s ≠ .error .outOfRange) ∧
      ∀ (t : Target) (colors slots : Nat) (journal : Journal),
        (allocate? t colors).run ⟨ivs, slots, journal⟩ =
          (allocate t colors).run ⟨ivs, slots, journal⟩ ∧
        (allocate t colors).result ⟨ivs, slots, journal⟩ ≠ .error .outOfRange := by
  have hf := (verified_of_verify hverify).edgesAgree
  have hg := hf.consistent
  obtain ⟨-, hivs⟩ := exists_liveIntervals hg (f.loopForest f.cfg.domTree)
  refine ⟨?_, f.cfg.domTree, f.loopForest f.cfg.domTree, f.intervalsIn _ f.blockOrder,
    ⟨hg.dominators_eq, Digraph.dominators?_eq hg⟩, fun start => ?_, fun start => ?_,
    ⟨rfl, loopForest?_eq hf⟩, ⟨hivs, ?_⟩, ?_, ?_⟩
  · intro b s hs
    exact lt_blockCapacity_of_hasBlock (hf.hasBlock_succ hs)
  · exact ⟨_, if_pos (hg.staysInside start), Digraph.postorder?_eq hg start⟩
  · exact ⟨_, if_pos (hg.staysInside start), Digraph.reachable?_eq hg start⟩
  · rw [liveIntervals?_eq hf hlate hslots]
    exact hivs
  · intro p s hs hfresh
    have h := p.run?_agrees (s := s) ⟨hs ▸ hf, hs ▸ hfresh⟩
    exact ⟨h.run_eq not_false, h.result_ne⟩
  · intro t colors slots journal
    have h := allocate?_agrees t colors
      ⟨f.intervalsIn (f.loopForest f.cfg.domTree) f.blockOrder, slots, journal⟩
    exact ⟨h.run_eq (not_not.2 hslots.piecesFit), h.result_ne⟩

/-- The loop that hands three values round stays in range. -/
theorem rotation_stays_in_range : rotation.verify = .ok () ∧ rotation.ReadsLate ∧
    ∃ lf ivs, rotation.loopForest? rotation.cfg.domTree = .ok lf ∧
      rotation.liveIntervals? lf = .ok ivs ∧
      (∀ p : Pass, p.run?.run ⟨rotation, .empty, #[]⟩ = p.run.run ⟨rotation, .empty, #[]⟩) ∧
      ∀ colors, (allocate (.uniform 2) colors).result ⟨ivs, 0, #[]⟩ ≠ .error .outOfRange := by
  have hverify : rotation.verify = .ok () := by decide +kernel
  have hlate : rotation.ReadsLate := readsLate_of_check (by decide +kernel)
  have hslots : rotation.SlotsFit (rotation.loopForest rotation.cfg.domTree) := by
    unfold SlotsFit
    decide +kernel
  obtain ⟨-, dom, lf, ivs, ⟨hdom, -⟩, -, -, ⟨-, hlf⟩, ⟨-, hivs⟩, hpasses, halloc⟩ :=
    accepted_stays_in_range hverify hlate hslots
  obtain rfl : rotation.cfg.domTree = dom := by
    rw [show rotation.dominators = .ok rotation.cfg.domTree by decide +kernel] at hdom
    exact Except.ok.inj hdom
  exact ⟨hverify, hlate, lf, ivs, hlf, hivs,
    fun p => (hpasses p _ rfl (Cache.FreshFor.empty _)).1,
    fun colors => (halloc (.uniform 2) colors 0 #[]).2⟩

/-- A block that adds one to a sum before it is there. -/
def hasty : Func where
  name := "hasty"
  numArgs := 0
  blocks := #[some { body := [⟨0⟩], terminator := some (.ret none) }]
  insts := #[some ⟨.binary .add (.inst ⟨0⟩) (.int 1), ⟨0⟩⟩]

-- the checks do not ask for a function that reads late, and the scan of a block does
example : hasty.verify = .ok () ∧
    hasty.liveIntervals? (hasty.loopForest hasty.cfg.domTree) = .error .outOfRange := by
  decide +kernel

end Func

end SsaBackend
