import SsaBackend.Proofs.Pass.Meaning
import SsaBackend.Proofs.Preheader.Trace

/-!
# Preheaders are inserted correctly

On a tidy function the pass ends well and leaves a tidy function with the same headers, in which
every loop that is entered has a preheader, and nobody sees the difference
(`Pass.preheaders_correct`). The entry may be a header itself; nothing enters its loop.

An insertion keeps the set of headers: the new block dominates none of its predecessors, and the
edges that close loops stay (`Preheaders.Inserted.latch_iff`). That the preheader dominates its
header follows from its being the only block outside: a route comes to the header for a first
time, and then from a block that the header does not dominate (`Func.LoopOf.dom_preheader`).
-/

namespace SsaBackend

namespace Func

variable {f : Func}

lemma tidy_of_verify (hverify : f.verify = .ok ()) (hall : f.AllReached)
    (huses : f.DominatedWhereReached) : f.Tidy := by
  obtain ⟨hwired, htight, hknown⟩ := wired_of_verify hverify
  exact ⟨hwired, htight, hall, huses, hknown.args⟩

/-- The preheader of a loop dominates the header, unless control starts there. -/
lemma LoopOf.dom_preheader {l : Loop} {pre : BlockId} (h : f.Tidy) (hl : f.LoopOf l)
    (hpre : l.HasPreheader f pre) (hne : l.header ≠ f.entry) : f.Dom pre l.header := by
  intro route hroute
  obtain ⟨m, r, hedge, hfirst, hnot, hsub⟩ := hroute.first_visit
    fun he => hne (BlockId.index_inj.1 he)
  have henter : (⟨m⟩ : BlockId) ∈ f.enteringPreds l.header := by
    refine (mem_enteringPreds h).2 ⟨(h.verified.linked ⟨m⟩ l.header).1 (edge_iff.1 hedge), ?_⟩
    intro hd
    exact hnot (hd _ hfirst)
  rw [← hl.outsidePreds h, hpre.1, List.mem_singleton] at henter
  rw [← henter]
  exact List.mem_cons_of_mem _ (hsub m List.mem_cons_self)

end Func

namespace Preheaders

open Func

variable {f g : Func} {header pre : BlockId} {hh : Block} {new : List InstId}

/-- An insertion keeps the headers. -/
lemma Inserted.latch_iff (h : Inserted f g header pre (f.enteringPreds header) hh new)
    (he : Entered f header (f.enteringPreds header) hh) (hc : f.Tidy) (b : BlockId) :
    (∃ p ∈ g.preds b, g.Dom b p) ↔ ∃ p ∈ f.preds b, f.Dom b p := by
  by_cases hb : b = pre
  · subst hb
    refine iff_of_false (h.no_latch_preheader he hc) ?_
    rintro ⟨p, hp, -⟩
    obtain ⟨bb, hbb⟩ := exists_block_of_pred hp
    exact h.ne_of_block hbb rfl
  · -- latches are old blocks, and edges from them do not enter
    have hlatch : ∀ p, p ∈ g.preds b ∧ g.Dom b p ↔ p ∈ f.preds b ∧ f.Dom b p := by
      intro p
      rw [h.preds_old he hb]
      split
      · rename_i hbh
        subst hbh
        rw [List.mem_append, List.mem_filter, List.mem_singleton]
        constructor
        · rintro ⟨⟨hp, -⟩ | rfl, hd⟩
          · exact ⟨hp, (h.dom_iff he hb (h.ne_of_pred he hp)).1 hd⟩
          · exact absurd hd (h.not_dom_preheader he hc)
        · rintro ⟨hp, hd⟩
          have hstay : p ∉ f.enteringPreds b := fun hin => ((mem_enteringPreds hc).1 hin).2 hd
          exact ⟨.inl ⟨hp, by simpa using hstay⟩, (h.dom_iff he hb (h.ne_of_pred he hp)).2 hd⟩
      · exact and_congr_right fun hp => h.dom_iff he hb (h.ne_of_pred he hp)
    exact exists_congr hlatch

/-- What insertions keep of a function. -/
structure Kept (f g : Func) : Prop where
  headers : ∀ b, b ∈ g.loopHeaders ↔ b ∈ f.loopHeaders
  trace : f.SameTrace g

lemma Kept.step {f₀ : Func} (hkept : Kept f₀ f) (hc : f.Tidy) (hl : Lacks f header) :
    Kept f₀ (withPreheader f ⟨header, f.enteringPreds header⟩) := by
  obtain ⟨hh, he⟩ := hl.entering hc
  obtain ⟨new, hins⟩ := he.inserted
  refine ⟨?_, hkept.trace.trans (hins.sameTrace he hc.operands)⟩
  intro b
  rw [← hkept.headers b, mem_loopHeaders hc, mem_loopHeaders (hins.tidy he hc)]
  exact hins.latch_iff he hc b

end Preheaders

namespace Pass

/-- Inserting preheaders ends well and gives every loop that is entered a preheader that dominates
the header; the function stays well formed, and its headers and what is seen of it stay. -/
theorem preheaders_correct {s : Session} (hverify : s.func.verify = .ok ())
    (hall : s.func.AllReached) (huses : s.func.DominatedWhereReached)
    (hfresh : s.cache.FreshFor s.func) :
    ∃ changed s', preheaders.run.run s = .ok changed s' ∧ s'.func.verify = .ok () ∧
      (∀ b, b ∈ s'.func.loopHeaders ↔ b ∈ s.func.loopHeaders) ∧
      (∀ l ∈ (s'.func.loopForest s'.func.cfg.domTree).loops, l.header ≠ s'.func.entry →
        ∃ pre, l.preheader = some pre ∧ l.outsidePreds s'.func = [pre] ∧ pre ∉ l.body ∧
          s'.func.succs pre = [l.header] ∧ s'.func.Dom pre l.header) ∧
      s.func.SameTrace s'.func := by
  have hc := Func.tidy_of_verify hverify hall huses
  have hstart : Preheaders.Kept s.func s.func := ⟨fun _ => Iff.rfl, .refl _⟩
  obtain ⟨changed, s', hrun, ht, -, hpre, hkept⟩ := (Preheaders.run_meets
    (Preheaders.Kept s.func) (fun f header hf hl hk => hk.step hf hl) hc hfresh hstart).exists_ok
  refine ⟨changed, s', hrun, ht.verify, hkept.headers, ?_, hkept.trace⟩
  intro l hl hne
  obtain ⟨pre, hfound⟩ := hpre l hl hne
  have hloop := Func.loopOf_of_mem ht hl
  have hhas := Loop.findPreheader_spec (hloop.preheader.symm.trans hfound)
  exact ⟨pre, hfound, hhas.1, (Loop.Natural.preheader_pred hhas).2, hhas.2,
    hloop.dom_preheader ht hhas hne⟩

/-- A loop from the entry around one that is entered from two blocks, from the second of them by
both ways of a branch. Of its phis one receives different values from the two, the other receives
the same. -/
def nested : Func where
  name := "nested"
  numArgs := 2
  blocks := #[
    some { preds := [⟨4⟩], terminator := some (.branch (.arg 0) ⟨1⟩ ⟨2⟩) },
    some { preds := [⟨0⟩], terminator := some (.jump ⟨3⟩) },
    some { preds := [⟨0⟩], terminator := some (.branch (.arg 1) ⟨3⟩ ⟨3⟩) },
    some { phis := [⟨0⟩, ⟨1⟩], body := [⟨2⟩, ⟨3⟩], preds := [⟨1⟩, ⟨2⟩, ⟨3⟩],
           terminator := some (.branch (.inst ⟨3⟩) ⟨3⟩ ⟨4⟩) },
    some { preds := [⟨3⟩], terminator := some (.branch (.inst ⟨2⟩) ⟨0⟩ ⟨5⟩) },
    some { preds := [⟨4⟩], terminator := some (.ret (some (.inst ⟨1⟩))) }]
  insts := #[
    some ⟨.phi ⟨[⟨⟨1⟩, .int 1⟩, ⟨⟨2⟩, .int 2⟩, ⟨⟨3⟩, .inst ⟨2⟩⟩]⟩, ⟨3⟩⟩,
    some ⟨.phi ⟨[⟨⟨1⟩, .arg 0⟩, ⟨⟨2⟩, .arg 0⟩, ⟨⟨3⟩, .inst ⟨0⟩⟩]⟩, ⟨3⟩⟩,
    some ⟨.binary .add (.inst ⟨0⟩) (.inst ⟨1⟩), ⟨3⟩⟩,
    some ⟨.compare .slt (.inst ⟨2⟩) (.arg 1), ⟨3⟩⟩]

lemma nested_verified : nested.verify = .ok () := by rfl

lemma nested_consistent : nested.cfg.Consistent :=
  (Func.verified_of_verify nested_verified).consistent

/-- The inner loop of the two gets a preheader, the outer one is never entered. -/
theorem nested_preheader :
    ∃ changed s', preheaders.run.run ⟨nested, .empty, #[]⟩ = .ok changed s' ∧
      (nested.loopHeaders = [⟨0⟩, ⟨3⟩] ∧ s'.func.loopHeaders = [⟨0⟩, ⟨3⟩] ∧
        s'.func.preds ⟨3⟩ = [⟨3⟩, ⟨6⟩] ∧ s'.func.preds ⟨6⟩ = [⟨1⟩, ⟨2⟩] ∧
        s'.func.phi? ⟨4⟩ = some ⟨[⟨⟨1⟩, .int 1⟩, ⟨⟨2⟩, .int 2⟩]⟩) ∧
      s'.func.verify = .ok () ∧ nested.SameTrace s'.func := by
  have hnow : nested.loopHeaders = [⟨0⟩, ⟨3⟩] := by decide +kernel
  have hthen : (preheaders.run.state ⟨nested, .empty, #[]⟩).func.loopHeaders = [⟨0⟩, ⟨3⟩] ∧
      (preheaders.run.state ⟨nested, .empty, #[]⟩).func.preds ⟨3⟩ = [⟨3⟩, ⟨6⟩] ∧
      (preheaders.run.state ⟨nested, .empty, #[]⟩).func.preds ⟨6⟩ = [⟨1⟩, ⟨2⟩] ∧
      (preheaders.run.state ⟨nested, .empty, #[]⟩).func.phi? ⟨4⟩ =
        some ⟨[⟨⟨1⟩, .int 1⟩, ⟨⟨2⟩, .int 2⟩]⟩ := by decide +kernel
  obtain ⟨changed, s', hrun, hverify, -, -, htrace⟩ :=
    preheaders_correct (s := ⟨nested, .empty, #[]⟩) nested_verified
      (Func.allReached_of_check nested_consistent (by decide +kernel))
      (Func.dominated_of_check nested_consistent (by decide +kernel)) (Cache.FreshFor.empty _)
  unfold Work.state at hthen
  rw [hrun] at hthen
  exact ⟨changed, s', hrun, ⟨hnow, hthen⟩, hverify, htrace⟩

end Pass

end SsaBackend
