import SsaBackend.Pass.Session
import SsaBackend.Proofs.Func.Folding
import SsaBackend.Proofs.Graph.Dominators

/-!
# Analyses that are up to date

What a session knows of its function is `Cache.FreshFor` it if computing it now gives the same.
Analyses that are asked for of a function without loose ends are found, and are the dominator
tree of its graph and the loops of that tree. They depend on the blocks and edges only, so they
stay fresh when a pass changes neither (`Cache.FreshFor.sameShape`).
-/

namespace SsaBackend

open Func

/-! ## Fresh analyses -/

namespace Cache

/-- What is known of a function is what would be computed now. -/
structure FreshFor (c : Cache) (f : Func) : Prop where
  dominators : ∀ t, c.dominators = some t → f.dominators = .ok t
  loops : ∀ lf, c.loops = some lf → ∃ t, f.dominators = .ok t ∧ lf = f.loopForest t

lemma FreshFor.empty (f : Func) : Cache.empty.FreshFor f := by
  refine ⟨?_, ?_⟩
  · intro t h
    cases h
  · intro lf h
    cases h

namespace FreshFor

variable {c c' : Cache} {f : Func}

lemma getDominators (h : c.FreshFor f) {t : DomTree} (ht : c.getDominators f = .ok t) :
    f.dominators = .ok t := by
  unfold Cache.getDominators at ht
  split at ht
  · rename_i u hu
    cases ht
    exact h.dominators _ hu
  · exact ht

lemma getLoops (h : c.FreshFor f) {lf : LoopForest} (hl : c.getLoops f = .ok lf) :
    ∃ t, f.dominators = .ok t ∧ lf = f.loopForest t := by
  unfold Cache.getLoops at hl
  split at hl
  · rename_i u hu
    cases hl
    exact h.loops _ hu
  · obtain ⟨t, ht, hl⟩ := except_bind_ok.1 hl
    cases hl
    exact ⟨t, h.getDominators ht, rfl⟩

lemma withDominators (h : c.FreshFor f) (hc : c.withDominators f = .ok c') : c'.FreshFor f := by
  unfold Cache.withDominators at hc
  obtain ⟨t, ht, hc⟩ := except_bind_ok.1 hc
  cases hc
  refine ⟨?_, h.loops⟩
  intro u hu
  cases hu
  exact h.getDominators ht

lemma withLoops (h : c.FreshFor f) (hc : c.withLoops f = .ok c') : c'.FreshFor f := by
  unfold Cache.withLoops at hc
  split at hc
  · cases hc
    exact h
  · obtain ⟨c₁, h₁, hc⟩ := except_bind_ok.1 hc
    obtain ⟨lf, hlf, hc⟩ := except_bind_ok.1 hc
    cases hc
    have hf₁ := h.withDominators h₁
    refine ⟨hf₁.dominators, ?_⟩
    intro u hu
    cases hu
    exact hf₁.getLoops hlf

/-- Computing analyses keeps them fresh. -/
lemma compute (h : c.FreshFor f) {wanted : Analyses} (hc : c.compute f wanted = .ok c') :
    c'.FreshFor f := by
  have hloops : ∀ c₁ : Cache, c₁.FreshFor f →
      (if wanted.loops then c₁.withLoops f else pure c₁) = .ok c' → c'.FreshFor f := by
    intro c₁ hf₁ hc
    split at hc
    · exact hf₁.withLoops hc
    · cases hc
      exact hf₁
  unfold Cache.compute at hc
  by_cases hw : (wanted.dominators || wanted.loops) = true
  · simp only [if_pos hw] at hc
    obtain ⟨c₁, h₁, hc⟩ := except_bind_ok.1 hc
    exact hloops c₁ (h.withDominators h₁) hc
  · simp only [if_neg hw] at hc
    exact hloops c h hc

end FreshFor

end Cache

/-! ## The shape decides -/

namespace Func.SameShape

variable {f g : Func}

lemma backEdges (h : SameShape f g) (dom : DomTree) : g.backEdges dom = f.backEdges dom := by
  have hids : ∀ f : Func, f.backEdges dom = f.blockIds.flatMap fun b =>
      ((f.succs b).filter fun s => dom.dominates s.index b.index).map (b, ·) := by
    intro f
    unfold Func.backEdges blockIds
    rw [List.flatMap_map]
    refine List.flatMap_congr fun e he => ?_
    rw [succs_of_block (mem_liveBlocks.1 he)]
  rw [hids, hids, blockIds_eq, blockIds_eq]
  simp only [h.blocks, h.capacity, h.succs]

lemma loopForest (h : SameShape f g) (dom : DomTree) : g.loopForest dom = f.loopForest dom := by
  have hstep : Loop.Gathering.step g dom = Loop.Gathering.step f dom := by
    funext s
    unfold Loop.Gathering.step
    simp only [h.preds]
  have hlatch : ∀ l latch, Loop.addLatch g dom l latch = Loop.addLatch f dom l latch := by
    intro l latch
    unfold Loop.addLatch Loop.gatherBound
    simp only [hstep, h.preds, h.capacity]
  have hedge : g.addBackEdge dom = f.addBackEdge dom := by
    funext loops e
    unfold Func.addBackEdge
    simp only [hlatch]
  have hpre : ∀ l : Loop, l.findPreheader g = l.findPreheader f := by
    intro l
    unfold Loop.findPreheader Loop.outsidePreds
    simp only [h.preds, h.succs]
  unfold Func.loopForest Func.naturalLoops
  simp only [h.backEdges, hedge, hpre, h.capacity]

end Func.SameShape

namespace Cache.FreshFor

variable {c : Cache} {f g : Func}

/-- Changes that keep the blocks and edges keep the analyses fresh. -/
lemma sameShape (h : c.FreshFor f) (hs : SameShape f g) : c.FreshFor g := by
  have hdom : g.dominators = f.dominators := by
    unfold Func.dominators
    rw [hs.cfg]
  refine ⟨?_, ?_⟩
  · intro t ht
    rw [hdom]
    exact h.dominators t ht
  · intro lf hlf
    obtain ⟨t, ht, rfl⟩ := h.loops lf hlf
    exact ⟨t, hdom ▸ ht, (hs.loopForest t).symm⟩

/-- Forgetting leaves nothing stale. -/
lemma keepOnly (h : c.FreshFor f) (kept : Analyses) : (c.keepOnly kept).FreshFor f := by
  unfold Cache.keepOnly
  refine ⟨?_, ?_⟩
  · intro t ht
    simp only at ht
    split at ht
    · exact h.dominators t ht
    · cases ht
  · intro lf hlf
    simp only at hlf
    split at hlf
    · exact h.loops lf hlf
    · cases hlf

lemma getDominators_eq (h : c.FreshFor f) (hg : f.cfg.Consistent) :
    c.getDominators f = .ok f.cfg.domTree := by
  have heq : f.dominators = .ok f.cfg.domTree := hg.dominators_eq
  unfold Cache.getDominators
  split
  · rename_i t ht
    rw [← h.dominators t ht, heq]
  · exact heq

lemma getLoops_eq (h : c.FreshFor f) (hg : f.cfg.Consistent) :
    c.getLoops f = .ok (f.loopForest f.cfg.domTree) := by
  unfold Cache.getLoops
  split
  · rename_i lf hlf
    obtain ⟨t, ht, rfl⟩ := h.loops lf hlf
    rw [show f.dominators = .ok f.cfg.domTree from hg.dominators_eq] at ht
    cases ht
    rfl
  · rw [h.getDominators_eq hg]
    rfl

lemma exists_withDominators (h : c.FreshFor f) (hg : f.cfg.Consistent) :
    ∃ c', c.withDominators f = .ok c' := by
  unfold Cache.withDominators
  rw [h.getDominators_eq hg]
  exact ⟨_, rfl⟩

lemma exists_withLoops (h : c.FreshFor f) (hg : f.cfg.Consistent) :
    ∃ c', c.withLoops f = .ok c' := by
  unfold Cache.withLoops
  split
  · exact ⟨c, rfl⟩
  · obtain ⟨c₁, h₁⟩ := h.exists_withDominators hg
    exact ⟨_, except_bind_ok.2 ⟨c₁, h₁,
      except_bind_ok.2 ⟨_, (h.withDominators h₁).getLoops_eq hg, rfl⟩⟩⟩

lemma exists_compute (h : c.FreshFor f) (hg : f.cfg.Consistent) (wanted : Analyses) :
    ∃ c', c.compute f wanted = .ok c' := by
  have hloops : ∀ c₁ : Cache, c₁.FreshFor f →
      ∃ c', (if wanted.loops then c₁.withLoops f else pure c₁) = .ok c' := by
    intro c₁ hf₁
    split
    · exact hf₁.exists_withLoops hg
    · exact ⟨c₁, rfl⟩
  unfold Cache.compute
  by_cases hw : (wanted.dominators || wanted.loops) = true
  · simp only [if_pos hw]
    obtain ⟨c₁, h₁⟩ := h.exists_withDominators hg
    obtain ⟨c', hc'⟩ := hloops c₁ (h.withDominators h₁)
    exact ⟨c', except_bind_ok.2 ⟨c₁, h₁, hc'⟩⟩
  · simp only [if_neg hw]
    exact hloops c h

end Cache.FreshFor

/-! ## Sessions -/

namespace Session

variable {s : Session}

/-- Analyses that are asked for are found, and change nothing else. -/
lemma compute_meets (hg : s.func.cfg.Consistent) (hc : s.cache.FreshFor s.func)
    (wanted : Analyses) (E : Error → Prop) :
    (Session.compute wanted).Meets s
      (fun _ s' => s'.func = s.func ∧ s'.cache.FreshFor s.func) E := by
  obtain ⟨c, hc'⟩ := hc.exists_compute hg wanted
  unfold Session.compute
  exact Work.Meets.get_bind (Work.Meets.ofExcept_bind hc'
    (Work.Meets.of_modify ⟨rfl, hc.compute hc'⟩))

/-- The loops that are asked for are those of the dominator tree. -/
lemma loops_meets (hg : s.func.cfg.Consistent) (hc : s.cache.FreshFor s.func)
    (E : Error → Prop) :
    Session.loops.Meets s (fun lf s' => lf = s.func.loopForest s.func.cfg.domTree ∧
      s'.func = s.func ∧ s'.cache.FreshFor s.func) E := by
  obtain ⟨c, hc'⟩ := hc.exists_withLoops hg
  have hfresh := hc.withLoops hc'
  unfold Session.loops
  refine Work.Meets.get_bind (Work.Meets.ofExcept_bind hc' (Work.Meets.modify_bind
    (Work.Meets.get_bind (Work.Meets.of_ofExcept ?_ ?_))))
  · intro lf hlf
    rw [show Cache.getLoops _ _ = _ from hfresh.getLoops_eq hg] at hlf
    cases hlf
    exact ⟨rfl, rfl, hfresh⟩
  · intro e he
    rw [show Cache.getLoops _ _ = _ from hfresh.getLoops_eq hg] at he
    cases he

end Session

end SsaBackend
