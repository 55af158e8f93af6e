import SsaBackend.Proofs.Hoist.Sound
import SsaBackend.Proofs.Loop.Nesting

/-!
# Walking down a loop

A walk down the dominator tree that enters only what is admitted never meets a node twice: a node
waits only once its parent was passed, and only below the root. So it ends before the bound on
its steps is felt, and has passed by then every node below the root that is connected to it by
admitted nodes (`DomTree.mem_preorderFrom`). The blocks of a loop are so connected to its header;
that is why hoisting meets all of them (`Hoist.mem_blocksOf_iff`), and each of them after the block
that immediately dominates it (`Func.loops_walked`).
-/

namespace SsaBackend

open Func SsaBackend.Digraph

namespace DomTree

variable {g : Digraph} {descend : Nat → Bool} {root : Nat} {s s' : Descent}

/-- What a walk down the tree of `g` keeps: nothing is met twice, all lies below the root, whatever
is met has its parent passed, and what was passed has its children met. -/
structure Descent.Orderly (g : Digraph) (descend : Nat → Bool) (root : Nat) (s : Descent) :
    Prop where
  once : (s.passed ++ s.stack).Nodup
  root_mem : root ∈ s.passed ++ s.stack
  reached : ∀ n ∈ s.passed ++ s.stack, g.Reached n
  below : ∀ n ∈ s.passed ++ s.stack, g.Dom root n
  parent : ∀ n ∈ s.passed ++ s.stack, n = root ∨ ∃ d ∈ s.passed, g.domTree.idom? n = some d
  children : ∀ n ∈ s.passed, ∀ c ∈ g.domTree.children n, descend c = true →
    c ∈ s.passed ++ s.stack

lemma Descent.orderly_start (descend : Nat → Bool) (hroot : g.Reached root) :
    Descent.Orderly g descend root ⟨[root], []⟩ := by
  refine ⟨List.nodup_singleton _, List.mem_singleton_self _, ?_, ?_, ?_, ?_⟩
  · intro n hn
    rw [List.mem_singleton.1 hn]
    exact hroot
  · intro n hn
    rw [List.mem_singleton.1 hn]
    exact Dominates.refl _
  · exact fun n hn => .inl (List.mem_singleton.1 hn)
  · exact fun n hn => absurd hn List.not_mem_nil

/-- What is met after a step: what was met before, and the children that are gone down to. -/
lemma perm_moved (passed rest kids : List Nat) (n : Nat) :
    ((n :: passed) ++ (kids ++ rest)).Perm (kids ++ (passed ++ n :: rest)) := by
  rw [← List.append_assoc]
  refine (List.perm_append_comm.append_right rest).trans ?_
  rw [List.append_assoc]
  exact List.Perm.append_left _ List.perm_middle.symm

/-- A child of a node that waits was not met before: its parent would have been passed. -/
lemma Descent.Orderly.child_new (hg : g.Consistent) (hs : s.Orderly g descend root) {n c : Nat}
    {rest : List Nat} (hstack : s.stack = n :: rest) (hc : g.domTree.idom? c = some n) :
    c ∉ s.passed ++ s.stack := by
  intro hmem
  have hn : n ∈ s.passed ++ s.stack := by
    rw [hstack]
    exact List.mem_append_right _ List.mem_cons_self
  obtain ⟨-, himm⟩ := (domTree_idom hg c n).1 hc
  rcases hs.parent c hmem with rfl | ⟨d, hd, hd'⟩
  · exact himm.1.1 (Dominates.antisymm himm.1.2 (hs.below n hn) (hs.reached n hn))
  · rw [hc] at hd'
    cases hd'
    refine (List.nodup_append.1 hs.once).2.2 n hd n ?_ rfl
    rw [hstack]
    exact List.mem_cons_self

lemma Descent.Orderly.step (hg : g.Consistent) (hs : s.Orderly g descend root)
    (h : s.step g.domTree descend = some s') : s'.Orderly g descend root := by
  unfold Descent.step at h
  split at h
  · cases h
  · rename_i n rest hstack
    cases h
    have hkids : ∀ c ∈ (g.domTree.children n).filter descend, g.domTree.idom? c = some n :=
      fun c hc => ((domTree_children hg n).2 c).1 (List.mem_filter.1 hc).1
    have hnew : ∀ c ∈ (g.domTree.children n).filter descend, c ∉ s.passed ++ n :: rest :=
      fun c hc => hstack ▸ hs.child_new hg hstack (hkids c hc)
    obtain ⟨honce, hroot, hreached, hbelow, hparent, hchildren⟩ := hs
    rw [hstack] at honce hroot hreached hbelow hparent hchildren
    have hn : n ∈ s.passed ++ n :: rest := List.mem_append_right _ List.mem_cons_self
    have hperm := perm_moved s.passed rest ((g.domTree.children n).filter descend) n
    have hmoved : ∀ x, x ∈ (n :: s.passed) ++ ((g.domTree.children n).filter descend ++ rest) ↔
        x ∈ s.passed ++ n :: rest ∨ x ∈ (g.domTree.children n).filter descend := by
      intro x
      rw [hperm.mem_iff, List.mem_append]
      exact or_comm
    refine ⟨?_, ?_, ?_, ?_, ?_, ?_⟩
    · refine hperm.nodup_iff.2 (List.nodup_append.2
        ⟨(domTree_children hg n).1.filter _, honce, ?_⟩)
      rintro c hc x hx rfl
      exact hnew c hc hx
    · exact (hmoved root).2 (.inl hroot)
    · intro x hx
      rcases (hmoved x).1 hx with hx | hx
      · exact hreached x hx
      · exact ((domTree_idom hg x n).1 (hkids x hx)).1
    · intro x hx
      rcases (hmoved x).1 hx with hx | hx
      · exact hbelow x hx
      · exact (hbelow n hn).trans ((domTree_idom hg x n).1 (hkids x hx)).2.1.2
    · intro x hx
      rcases (hmoved x).1 hx with hx | hx
      · exact (hparent x hx).imp_right fun ⟨d, hd, hd'⟩ => ⟨d, List.mem_cons_of_mem _ hd, hd'⟩
      · exact .inr ⟨n, List.mem_cons_self, hkids x hx⟩
    · intro x hx c hc hdesc
      refine (hmoved c).2 ?_
      rcases List.mem_cons.1 hx with rfl | hx
      · exact .inr (List.mem_filter.2 ⟨hc, hdesc⟩)
      · exact .inl (hchildren x hx c hc hdesc)

/-- No more is met than there are nodes. -/
lemma Descent.Orderly.length_le (hg : g.Consistent) (hs : s.Orderly g descend root) :
    s.passed.length + s.stack.length ≤ g.domTree.parents.size := by
  have hlt : s.passed ++ s.stack ⊆ List.range g.domTree.parents.size := by
    intro n hn
    have hreach := (domTree_isReachable hg n).2 (hs.reached n hn)
    rw [List.mem_range]
    by_contra hge
    unfold isReachable at hreach
    rw [Array.getElem?_eq_none (by omega)] at hreach
    cases hreach
  have hle := (hs.once.subperm hlt).length_le
  rwa [List.length_append, List.length_range] at hle

/-- When nothing waits, a node was passed if all from it up to the root is admitted. -/
lemma Descent.Orderly.mem_passed (hg : g.Consistent) (hs : s.Orderly g descend root)
    (hdone : s.stack = [])
    (hup : ∀ n d, descend n = true → n ≠ root → g.domTree.idom? n = some d → descend d = true)
    (bound : Nat) {n : Nat} (hn : descend n = true)
    (habove : g.domTree.isAbove root bound n = true) : n ∈ s.passed := by
  have hmet : ∀ x, x ∈ s.passed ++ s.stack → x ∈ s.passed := by
    intro x hx
    rwa [hdone, List.append_nil] at hx
  induction bound generalizing n with
  | zero => cases habove
  | succ bound ih =>
    rw [isAbove] at habove
    split at habove
    · rename_i he
      rw [he]
      exact hmet _ hs.root_mem
    · rename_i hne
      split at habove
      · rename_i d hd
        have hparent := ih (hup n d hn hne hd) habove
        exact hmet n (hs.children d hparent n (((domTree_children hg d).2 n).2 hd) hn)
      · cases habove

/-- A walk comes to its end: every step passes a node, and no more are met than there are. -/
lemma Descent.step_end (hg : g.Consistent) (descend : Nat → Bool) (hroot : g.Reached root) :
    Descent.step g.domTree descend (repeatUpTo (Descent.step g.domTree descend)
      g.domTree.parents.size ⟨[root], []⟩) = none := by
  refine repeatUpTo_done (Descent.Orderly g descend root)
    (fun s => g.domTree.parents.size - s.passed.length) (fun _ _ hs hstep => hs.step hg hstep)
    (fun s s' hs hstep => ?_) _ _ (Descent.orderly_start descend hroot) (Nat.sub_le ..)
  have hle := hs.length_le hg
  unfold Descent.step at hstep
  split at hstep
  · cases hstep
  · rename_i m rest hstack
    cases hstep
    rw [hstack] at hle
    simp only [List.length_cons] at hle ⊢
    omega

/-- A walk from a node passes whatever is admitted below it, if what is between is admitted too. -/
lemma mem_preorderFrom (hg : g.Consistent)
    (hup : ∀ n d, descend n = true → n ≠ root → g.domTree.idom? n = some d → descend d = true)
    {n : Nat} (hn : descend n = true) (hdom : g.domTree.dominates root n = true) :
    n ∈ g.domTree.preorderFrom root descend := by
  unfold dominates at hdom
  rw [Bool.and_eq_true, Bool.and_eq_true] at hdom
  obtain ⟨⟨hroot, -⟩, habove⟩ := hdom
  unfold preorderFrom
  rw [if_pos hroot, List.mem_reverse]
  have hreached := (domTree_isReachable hg root).1 hroot
  have hend := repeatUpTo_induct _
    (fun _ _ (hs : Descent.Orderly g descend root _) hstep => hs.step hg hstep)
    g.domTree.parents.size _ (Descent.orderly_start descend hreached)
  refine hend.mem_passed hg ?_ hup _ hn habove
  have hdone := Descent.step_end hg descend hreached
  unfold Descent.step at hdone
  split at hdone
  · assumption
  · cases hdone

/-- Every node that was passed, but for the root, was passed after its parent. -/
def Descent.Descended (t : DomTree) (root : Nat) (s : Descent) : Prop :=
  ∀ later n earlier, s.passed = later ++ n :: earlier →
    n = root ∨ ∃ d ∈ earlier, t.idom? n = some d

lemma Descent.Descended.step (hs : s.Orderly g descend root)
    (h : s.Descended g.domTree root) (hstep : s.step g.domTree descend = some s') :
    s'.Descended g.domTree root := by
  unfold Descent.step at hstep
  split at hstep
  · cases hstep
  · rename_i m rest hstack
    cases hstep
    intro later n earlier hsplit
    rcases later with _ | ⟨x, later⟩
    · cases hsplit
      refine hs.parent _ (List.mem_append_right _ ?_)
      rw [hstack]
      exact List.mem_cons_self
    · rw [List.cons_append] at hsplit
      exact h later n earlier (List.cons.inj hsplit).2

/-- A walk down the tree meets nothing twice, and every node after its parent. -/
lemma preorderFrom_descends (hg : g.Consistent) (root : Nat) (descend : Nat → Bool) :
    (g.domTree.preorderFrom root descend).Nodup ∧
      ∀ earlier n later, g.domTree.preorderFrom root descend = earlier ++ n :: later →
        n = root ∨ ∃ d ∈ earlier, g.domTree.idom? n = some d := by
  unfold preorderFrom
  split
  · rename_i hroot
    have hstart : Descent.Orderly g descend root ⟨[root], []⟩ ∧
        Descent.Descended g.domTree root ⟨[root], []⟩ :=
      ⟨Descent.orderly_start descend ((domTree_isReachable hg root).1 hroot),
        fun later n earlier h => by cases later <;> cases h⟩
    obtain ⟨horderly, hdescended⟩ := repeatUpTo_induct
      (fun s => Descent.Orderly g descend root s ∧ Descent.Descended g.domTree root s)
      (fun s s' hs hstep => ⟨hs.1.step hg hstep, hs.2.step hs.1 hstep⟩)
      g.domTree.parents.size _ hstart
    refine ⟨List.nodup_reverse.2 (List.nodup_append.1 horderly.once).1, ?_⟩
    intro earlier n later hsplit
    have hpassed := congrArg List.reverse hsplit
    rw [List.reverse_reverse, List.reverse_append, List.reverse_cons, List.append_assoc,
      List.singleton_append] at hpassed
    obtain h | ⟨d, hd, hparent⟩ := hdescended _ _ _ hpassed
    · exact .inl h
    · exact .inr ⟨d, List.mem_reverse.1 hd, hparent⟩
  · exact ⟨List.nodup_nil, fun earlier n later h => by cases earlier <;> cases h⟩

/-- If anything is met, it is met on a walk that comes to rest. -/
lemma rests_preorderFrom (hg : g.Consistent) {n : Nat}
    (hn : n ∈ g.domTree.preorderFrom root descend) :
    ∃ s, Rests (Descent.step g.domTree descend) ⟨[root], []⟩ s ∧
      g.domTree.preorderFrom root descend = s.passed.reverse := by
  unfold preorderFrom at hn ⊢
  split at hn
  · rename_i hroot
    have hdone := Descent.step_end hg descend ((domTree_isReachable hg root).1 hroot)
    exact ⟨_, rests_repeatUpTo hdone, if_pos hroot⟩
  · cases hn

/-- If anything is met, the root is met first. -/
lemma head?_preorderFrom (hg : g.Consistent) {n : Nat}
    (hn : n ∈ g.domTree.preorderFrom root descend) :
    (g.domTree.preorderFrom root descend).head? = some root := by
  cases horder : g.domTree.preorderFrom root descend with
  | nil =>
    rw [horder] at hn
    cases hn
  | cons m later =>
    -- nothing was met before it that could be its parent
    rcases (preorderFrom_descends hg root descend).2 [] m later horder with rfl | ⟨d, hd, -⟩
    · rfl
    · cases hd

/-- What lies between the root and a node was met before the node. -/
lemma mem_earlier_of_dom (hg : g.Consistent) {d n : Nat} {earlier later : List Nat}
    (h : g.domTree.preorderFrom root descend = earlier ++ n :: later) (hroot : g.Dom root d)
    (hdom : g.Dom d n) (hne : d ≠ n) : d ∈ earlier := by
  induction hlen : earlier.length using Nat.strongRecOn generalizing n earlier later with
  | ind len ih =>
    subst hlen
    rcases (preorderFrom_descends hg root descend).2 earlier n later h with
      rfl | ⟨e, he, hparent⟩
    · by_cases hreach : g.Reached d
      · exact absurd (Dominates.antisymm hdom hroot hreach) hne
      · -- the root is reached, or nothing is met below it
        exfalso
        refine hreach (hdom.reaches ?_)
        unfold preorderFrom at h
        split at h
        · rename_i hr
          exact (domTree_isReachable hg _).1 hr
        · cases earlier <;> cases h
    · obtain ⟨-, himm⟩ := (domTree_idom hg n e).1 hparent
      have hde := himm.2 d ⟨hne, hdom⟩
      by_cases he' : d = e
      · exact he' ▸ he
      · obtain ⟨u, v, rfl⟩ := List.append_of_mem he
        rw [List.append_assoc, List.cons_append] at h
        have hlt : u.length < (u ++ e :: v).length := by
          rw [List.length_append, List.length_cons]
          omega
        exact List.mem_append_left _ (ih u.length hlt h hde he' rfl)

end DomTree

/-- Down from the header, hoisting meets the blocks of the loop and no others. -/
lemma Hoist.mem_blocksOf_iff {f : Func} (hf : f.EdgesAgree) {l : Loop} (hl : l.Whole f)
    {b : BlockId} : b ∈ blocksOf f.cfg.domTree l ↔ b ∈ l.body := by
  refine ⟨mem_blocksOf hl.header_mem, fun hb => List.mem_map.2 ⟨b.index, ?_, rfl⟩⟩
  have hg := hf.consistent
  have hcontains : ∀ n, l.contains ⟨n⟩ = true ↔ (⟨n⟩ : BlockId) ∈ l.body := by
    intro n
    unfold Loop.contains
    rw [List.contains_iff_mem]
  refine DomTree.mem_preorderFrom hg (fun n d hn hne hd => ?_) ((hcontains _).2 hb)
    ((domTree_dominates hg _ _).2 ⟨hl.reached hl.header_mem, hl.reached hb, hl.above hb⟩)
  have hmem := (hcontains n).1 hn
  obtain ⟨-, himm⟩ := (domTree_idom hg n d).1 hd
  refine (hcontains d).2 (hl.mem_of_between hmem himm.1.2 ?_)
  exact himm.2 _ ⟨fun he => hne he.symm, hl.above hmem⟩

/-! ## Walking down the loops of a function -/

/-- The list has the blocks of the loop, each once: the header first, and every other block after the
one that immediately dominates it. -/
structure Loop.WalkedAs (f : Func) (dom : DomTree) (l : Loop) (order : List BlockId) : Prop where
  once : order.Nodup
  blocks : ∀ b, b ∈ order ↔ b ∈ l.body
  header : order.head? = some l.header
  descends : ∀ earlier b later, order = earlier ++ b :: later → b ≠ l.header →
    ∃ d ∈ earlier, dom.idom? b.index = some d.index ∧ f.cfg.IsImmediate d.index b.index

namespace Func

variable {f : Func}

/-- Down the dominator tree from the header of a loop, the walk that enters blocks of the loop only
comes to rest and misses none of them. -/
theorem loops_walked (hv : f.verify = .ok ()) :
    ∃ dom, f.dominators = .ok dom ∧ ∀ l ∈ (f.loopForest dom).loops,
      (∃ s, Rests (DomTree.Descent.step dom fun n => l.contains ⟨n⟩) ⟨[l.header.index], []⟩ s ∧
        (dom.preorderFrom l.header.index fun n => l.contains ⟨n⟩) = s.passed.reverse) ∧
      l.WalkedAs f dom ((dom.preorderFrom l.header.index fun n => l.contains ⟨n⟩).map .mk) := by
  have hf := (verified_of_verify hv).edgesAgree
  have hg := hf.consistent
  refine ⟨f.cfg.domTree, hg.dominators_eq, fun l hl => ?_⟩
  have hwhole := (family_loopForest hf).1.whole l hl
  have hmem : ∀ b, b ∈ Hoist.blocksOf f.cfg.domTree l ↔ b ∈ l.body :=
    fun b => Hoist.mem_blocksOf_iff hf hwhole
  obtain ⟨honce, hparent⟩ := DomTree.preorderFrom_descends hg l.header.index fun n => l.contains ⟨n⟩
  -- the header at least is met
  obtain ⟨n, hn, -⟩ := List.mem_map.1 ((hmem l.header).2 hwhole.header_mem)
  refine ⟨DomTree.rests_preorderFrom hg hn, honce.map fun _ _ he => BlockId.mk.inj he, hmem, ?_, ?_⟩
  · rw [List.head?_map, DomTree.head?_preorderFrom hg hn]
    rfl
  · intro earlier b later hsplit hne
    obtain ⟨nodes, rest, hnodes, rfl, hrest⟩ := List.map_eq_append_iff.1 hsplit
    obtain ⟨n, after, rfl, rfl, -⟩ := List.map_eq_cons_iff.1 hrest
    rcases hparent nodes n after hnodes with he | ⟨d, hd, hidom⟩
    · exact absurd (congrArg BlockId.mk he) hne
    · exact ⟨⟨d⟩, List.mem_map_of_mem hd, hidom, ((domTree_idom hg n d).1 hidom).2⟩

/-- A loop with two blocks that lead into each other and are both entered from the header. Below one
of them the loop is left for two more blocks. -/
def eddy : Func where
  name := "eddy"
  numArgs := 2
  blocks := #[
    some { terminator := some (.jump ⟨1⟩) },
    some { preds := [⟨0⟩, ⟨5⟩], terminator := some (.branch (.arg 0) ⟨2⟩ ⟨3⟩) },
    some { preds := [⟨1⟩, ⟨3⟩], terminator := some (.branch (.arg 1) ⟨3⟩ ⟨4⟩) },
    some { preds := [⟨1⟩, ⟨2⟩], terminator := some (.branch (.arg 0) ⟨2⟩ ⟨5⟩) },
    some { preds := [⟨2⟩], terminator := some (.jump ⟨6⟩) },
    some { preds := [⟨3⟩], terminator := some (.jump ⟨1⟩) },
    some { preds := [⟨4⟩], terminator := some (.ret none) }]
  insts := #[]

/-- The blocks behind the way out are passed over, and with them nothing of the loop. -/
theorem loops_walked_eddy : eddy.verify = .ok () ∧ ∃ dom, eddy.dominators = .ok dom ∧
    (eddy.loopForest dom).loops.map (fun l => dom.preorderFrom l.header.index fun n =>
      l.contains ⟨n⟩) = [[1, 2, 3, 5]] ∧
    ∀ l ∈ (eddy.loopForest dom).loops,
      l.WalkedAs eddy dom ((dom.preorderFrom l.header.index fun n => l.contains ⟨n⟩).map .mk) := by
  have hv : eddy.verify = .ok () := by rfl
  obtain ⟨dom, hdom, hwalked⟩ := loops_walked hv
  have htree : dom = eddy.cfg.domTree :=
    Except.ok.inj (hdom.symm.trans (verified_of_verify hv).consistent.dominators_eq)
  subst htree
  exact ⟨hv, _, hdom, by decide +kernel, fun l hl => (hwalked l hl).2⟩

end Func

end SsaBackend
