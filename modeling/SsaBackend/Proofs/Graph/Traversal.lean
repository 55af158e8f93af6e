import SsaBackend.Proofs.Graph.Reachability
import SsaBackend.Proofs.Graph.Reducible

/-!
# Traversals are exact and ordered

Three searches go over a graph: one that marks the nodes it meets, one that enters and leaves them,
and the numbering that dominators are computed from. They find the same nodes, those that can be
reached.

The order in which nodes are left is that of the edges as far as there is one. A node is left when
all it leads to has been entered; whatever of that is not left yet is left later, and leads to the
node (`Walk.Heeding`). So in reverse postorder a node comes before those it leads to, unless they
lead back to it (`Digraph.idxOf_lt_of_edge`).

Main statement: `Digraph.traversals_exact`. A graph is looked at from any of its nodes, which needs
no more of it than that its edges stay among its nodes (`Digraph.Closed.rootedAt`).
-/

namespace SsaBackend

namespace Digraph

/-- The node of a visit. -/
def Visit.node : Visit → Nat
  | .enter n => n
  | .leave n => n

namespace Walk

variable {g : Digraph} {start : Nat} {s s' : Walk}

/-- A traversal heeds the edges. What waits on the stack can be reached from whatever is to be left
after it; a node is not left before the entering of what it leads to; and what a node that was left
leads to was left earlier, or leads back to the node. -/
structure Heeding (g : Digraph) (s : Walk) : Prop where
  hangs : s.stack.Pairwise fun above below =>
    ∀ m, below = .leave m → Reaches g.Edge m above.node
  waits : ∀ m n, .leave m ∈ s.stack → g.Edge m n →
    n ∈ s.opened ∨ [.enter n, .leave m].Sublist s.stack
  left : ∀ m n, m ∈ s.done → g.Edge m n → [m, n].Sublist s.done ∨ Reaches g.Edge n m

/-- A pair of visits that is not the top of the stack with something below lies below the top. -/
lemma sublist_of_ne {v w x : Visit} {rest : List Visit} (h : [v, w].Sublist (x :: rest))
    (hne : v ≠ x) : [v, w].Sublist rest := by
  cases h with
  | cons _ h => exact h
  | cons_cons _ h => exact absurd rfl hne

section

variable {n : Nat} {rest : List Visit} (h : Heeding g s)

include h

/-- What a node that is to be left leads to was entered, or its entering is above the leaving; and
if it is not the top, it is below it. -/
lemma Heeding.waits_below {v : Visit} {m k : Nat} (hstack : s.stack = v :: rest)
    (hm : .leave m ∈ rest) (hedge : g.Edge m k) (hne : .enter k ≠ v) :
    k ∈ s.opened ∨ [.enter k, .leave m].Sublist rest := by
  refine (h.waits m k (hstack ▸ List.mem_cons_of_mem _ hm) hedge).imp_right fun hsub => ?_
  rw [hstack] at hsub
  exact sublist_of_ne hsub hne

lemma Heeding.leave (hs : Sound g start s) (hstack : s.stack = .leave n :: rest) :
    Heeding g { s with stack := rest, done := n :: s.done } := by
  have hopened : s.opened = n :: (rest.filterMap Visit.left? ++ s.done) := by
    unfold opened
    rw [hstack]
    rfl
  have hmem : ∀ m, m ∈ s.opened ↔ m ∈ opened { s with stack := rest, done := n :: s.done } := by
    intro m
    rw [hopened]
    exact List.perm_middle.symm.mem_iff
  have hhangs := List.pairwise_cons.1 (hstack ▸ h.hangs)
  refine ⟨hhangs.2, ?_, ?_⟩
  · intro m k hm hedge
    rw [← hmem]
    exact h.waits_below hstack hm hedge (by simp)
  · intro m k hm hedge
    rcases List.mem_cons.1 hm with rfl | hm
    · -- the entering of what it leads to can not be above it any more
      have hk : k ∈ s.opened := by
        refine (h.waits m k (hstack ▸ List.mem_cons_self) hedge).resolve_right fun hsub => ?_
        rw [hstack] at hsub
        have hagain : .leave m ∈ rest :=
          (sublist_of_ne hsub (by simp)).subset (List.mem_cons_of_mem _ List.mem_cons_self)
        have honce := hs.once
        rw [hopened, List.nodup_cons] at honce
        exact honce.1 (List.mem_append_left _ (List.mem_filterMap.2 ⟨_, hagain, rfl⟩))
      rw [hopened, List.mem_cons, List.mem_append] at hk
      rcases hk with rfl | hk | hk
      · exact .inr .init
      · obtain ⟨v, hv, hleft⟩ := List.mem_filterMap.1 hk
        cases v with
        | enter _ => cases hleft
        | leave j =>
          cases hleft
          exact .inr (hhangs.1 _ hv _ rfl)
      · exact .inl ((List.singleton_sublist.2 hk).cons_cons m)
    · exact (h.left m k hm hedge).imp_left fun hsub => hsub.cons n

lemma Heeding.skip (hs : Sound g start s) (hstack : s.stack = .enter n :: rest)
    (hold : s.entered.bit n = true) : Heeding g { s with stack := rest } := by
  have hopened : s.opened = opened { s with stack := rest } := by
    unfold opened
    rw [hstack]
    rfl
  have hhangs := List.pairwise_cons.1 (hstack ▸ h.hangs)
  refine ⟨hhangs.2, ?_, h.left⟩
  intro m k hm hedge
  rw [← hopened]
  by_cases hkn : k = n
  · exact .inl (hkn ▸ (hs.entered n).1 hold)
  · exact h.waits_below hstack hm hedge (by simpa using hkn)

lemma Heeding.enter (hs : Sound g start s) (hstack : s.stack = .enter n :: rest)
    (hn : n < g.size) : Heeding g (s.enter g n rest) := by
  have hopened := opened_enter (g := g) hstack
  have hrest : rest.Sublist (s.enter g n rest).stack :=
    (List.sublist_cons_self _ rest).trans (List.sublist_append_right _ _)
  have hhangs := List.pairwise_cons.1 (hstack ▸ h.hangs)
  refine ⟨?_, ?_, h.left⟩
  · refine List.pairwise_append.2 ⟨?_, List.pairwise_cons.2 hhangs, ?_⟩
    · rw [List.pairwise_map]
      exact List.pairwise_of_forall fun _ _ _ hb => by cases hb
    · intro a ha b hb m hm
      obtain ⟨k, hk, rfl⟩ := List.mem_map.1 ha
      have hedge : g.Edge n k := (List.mem_filter.1 hk).1
      rcases List.mem_cons.1 hb with hb | hb
      · cases hb.symm.trans hm
        exact Reaches.init.step hedge
      · exact (hhangs.1 b hb m hm).step hedge
  · intro m k hm hedge
    rw [hopened, List.mem_cons]
    -- what the stack leaves is the node itself, or was to be left before
    have hcases : m = n ∨ .leave m ∈ rest := by
      rcases List.mem_append.1 hm with hm | hm
      · obtain ⟨j, -, hj⟩ := List.mem_map.1 hm
        cases hj
      · simpa using hm
    rcases hcases with rfl | hm
    · -- what the node leads to was entered before, or is entered next
      cases hbit : (s.entered.insert m).bit k with
      | true =>
        rw [hs.inRange.bit_insert hn, Bool.or_eq_true, decide_eq_true_eq] at hbit
        exact .inl (hbit.elim (fun hk => .inr ((hs.entered k).1 hk)) fun hk => .inl hk.symm)
      | false =>
        have hfresh : k ∈ s.fresh g m := by
          refine List.mem_filter.2 ⟨hedge, ?_⟩
          rw [(hs.inRange.insert m).contains, hbit]
          rfl
        refine .inr ((List.singleton_sublist.2 (List.mem_map_of_mem hfresh)).append ?_)
        exact List.singleton_sublist.2 List.mem_cons_self
    · by_cases hkn : k = n
      · exact .inl (.inl hkn)
      · exact (h.waits_below hstack hm hedge (by simpa using hkn)).imp .inr (·.trans hrest)

end

lemma Heeding.step (hg : g.Consistent) (hstart : start < g.size) (h : Heeding g s)
    (hs : Sound g start s) (hstep : Walk.step g s = some s') : Heeding g s' := by
  unfold Walk.step at hstep
  split at hstep
  · cases hstep
  · rename_i n rest hstack
    cases hstep
    exact h.leave hs hstack
  · rename_i n rest hstack
    have hn : n < g.size := by
      have := hs.found n (.inr (hstack ▸ List.mem_cons_self))
      exact this.induct (P := (· < g.size)) hstart fun a b _ ha hab => hg.succ_lt a ha b hab
    split at hstep
    · cases hstep
      exact h.enter hs hstack hn
    · rename_i hold
      cases hstep
      refine h.skip hs hstack ?_
      rw [hs.inRange.contains] at hold
      simpa [hn] using hold

end Walk

variable {g : Digraph} {start : Nat}

/-- In reverse postorder a node comes before those it leads to, unless they lead back to it. -/
lemma idxOf_lt_of_edge (hg : g.Consistent) (hstart : start < g.size) {m n : Nat}
    (hm : Reaches g.Edge start m) (hedge : g.Edge m n) (hback : ¬ Reaches g.Edge n m) :
    (g.reversePostorder start).idxOf m < (g.reversePostorder start).idxOf n := by
  obtain ⟨hnodup, hmem⟩ := reversePostorder_lists hg hstart
  obtain ⟨s, -, ⟨-, hheeding⟩, -, horder⟩ := Walk.exists_end hg hstart
    (fun s => Walk.Sound g start s ∧ Walk.Heeding g s)
    ⟨(Walk.sound_start g start).1, List.pairwise_singleton .., by simp, by simp⟩
    fun _ _ h hs => ⟨(h.1.step hg hstart hs).1, h.2.step hg hstart h.1 hs⟩
  rw [← hmem, horder] at hm
  have hsub := (hheeding.left m n hm hedge).resolve_right hback
  exact idxOf_lt_of_sublist hnodup (horder ▸ hsub)

/-- Reverse postorder begins with the node it starts from: every other has one in front of it. -/
lemma head?_reversePostorder (hg : g.Consistent) :
    (g.reversePostorder g.entry).head? = some g.entry := by
  obtain ⟨hnodup, hmem⟩ := reversePostorder_lists hg hg.entry_lt
  have hentry : g.entry ∈ g.reversePostorder g.entry := (hmem _).2 .init
  cases hl : g.reversePostorder g.entry with
  | nil =>
    rw [hl] at hentry
    cases hentry
  | cons n l =>
    have hn : g.Reached n := (hmem n).1 (hl ▸ List.mem_cons_self)
    by_contra hne
    obtain ⟨m, -, -, hlt⟩ := exists_pred_before hg hn fun he => hne (by rw [he, List.head?_cons])
    unfold rank at hlt
    rw [hl, List.idxOf_cons_self] at hlt
    omega

/-! ## Looking from another node -/

/-- The edges of a graph stay among its nodes. -/
def Closed (g : Digraph) : Prop := ∀ m < g.size, ∀ n ∈ g.succs m, n < g.size

/-- The predecessor lists name the nodes that lead to a node. -/
def Reversed (g : Digraph) (preds : Nat → List Nat) : Prop :=
  ∀ m < g.size, ∀ n < g.size, m ∈ preds n ↔ n ∈ g.succs m

/-- The nodes and edges of a graph, with another entry and other lists of predecessors. -/
def rootedAt (g : Digraph) (start : Nat) (preds : Nat → List Nat) : Digraph :=
  { g with entry := start, preds }

/-- The predecessors of a node in ascending order. -/
def sources (g : Digraph) (n : Nat) : List Nat :=
  (List.range g.size).filter fun m => (g.succs m).contains n

lemma reversed_sources (g : Digraph) : g.Reversed g.sources := by
  intro m hm n _
  unfold sources
  rw [List.mem_filter, List.mem_range, List.contains_iff_mem]
  exact and_iff_right hm

lemma Closed.rootedAt (hg : g.Closed) (hstart : start < g.size) {preds : Nat → List Nat}
    (hpreds : g.Reversed preds) : (g.rootedAt start preds).Consistent :=
  ⟨hstart, hg, hpreds⟩

/-- Traversals are exact and ordered. In a graph whose edges stay among its nodes, the searches from
any node come to rest. Postorder lists what that node reaches, each once, and reverse postorder is
the same backwards. It begins with the start; a node comes before those it leads to, unless they lead back to it; and a
node comes after those that strictly dominate it. The search for what can be reached finds the same
nodes, and so does the computation of dominators with the start as the entry. -/
theorem traversals_exact (g : Digraph) (hg : g.Closed) {start : Nat} (hstart : start < g.size) :
    (∃ s, Rests (Walk.step g) ⟨BitSet.empty g.size, [.enter start], []⟩ s ∧
      g.reversePostorder start = s.done) ∧
    (∃ s, Rests (Reach.step g) (Reach.meet ⟨BitSet.empty g.size, []⟩ start) s ∧
      g.reachable start = s.met) ∧
    ((g.postorder start).Nodup ∧ ∀ n, n ∈ g.postorder start ↔ Reaches g.Edge start n) ∧
    g.reversePostorder start = (g.postorder start).reverse ∧
    (g.reversePostorder start).head? = some start ∧
    (∀ m n, Reaches g.Edge start m → g.Edge m n → ¬ Reaches g.Edge n m →
      (g.reversePostorder start).idxOf m < (g.reversePostorder start).idxOf n) ∧
    (∀ d n, Reaches g.Edge start n → StrictlyDominates g.Edge start d n →
      (g.reversePostorder start).idxOf d < (g.reversePostorder start).idxOf n) ∧
    (∀ n, (g.reachable start).contains n = true ↔ Reaches g.Edge start n) ∧
    ∀ preds, g.Reversed preds → ∃ t, (g.rootedAt start preds).dominators = .ok t ∧
      ∀ n, t.isReachable n = (g.reachable start).contains n := by
  -- the searches do not look at the entry and at the predecessors
  have hrooted := hg.rootedAt hstart g.reversed_sources
  have hlists : (g.reversePostorder start).Nodup ∧
      ∀ n, n ∈ g.reversePostorder start ↔ Reaches g.Edge start n :=
    reversePostorder_lists hrooted hstart
  have hsearch : ∀ n, (g.reachable start).contains n = true ↔ Reaches g.Edge start n :=
    contains_reachable hrooted hstart
  have hdone : Walk.step (g.rootedAt start g.sources) _ = none := Walk.step_end hrooted hstart
  refine ⟨⟨_, rests_repeatUpTo hdone, rfl⟩, ⟨_, rests_repeatUpTo (Reach.step_end hstart), rfl⟩,
    ⟨?_, ?_⟩, ?_, ?_, ?_, ?_, hsearch, ?_⟩
  · exact List.nodup_reverse.2 hlists.1
  · intro n
    unfold postorder
    rw [List.mem_reverse, hlists.2]
  · exact (List.reverse_reverse _).symm
  · exact head?_reversePostorder hrooted
  · intro m n hm hedge hback
    exact idxOf_lt_of_edge hrooted hstart hm hedge hback
  · intro d n hn hdom
    exact rank_lt_of_dom hrooted hn hdom.2 hdom.1
  · intro preds hpreds
    have hcons := hg.rootedAt hstart hpreds
    refine ⟨_, hcons.dominators_eq, fun n => Bool.eq_iff_iff.2 ?_⟩
    exact (domTree_isReachable hcons n).trans (hsearch n).symm

/-- Two loops that are entered at two nodes each, a repeated edge, a loop of one node and a node
out of reach; seen from a node other than the entry. -/
theorem traversals_of_tangle :
    let g := ofEdges 6
      [(0, 1), (1, 2), (1, 3), (2, 3), (3, 2), (1, 2), (2, 4), (4, 4), (3, 1), (5, 4)] 0
    g.Closed ∧ 1 < g.size ∧ g.reversePostorder 1 = [1, 2, 4, 3] ∧
      (∀ m n, Reaches g.Edge 1 m → g.Edge m n → ¬ Reaches g.Edge n m →
        ([1, 2, 4, 3] : List Nat).idxOf m < [1, 2, 4, 3].idxOf n) ∧
      (∀ n, n ∈ [3, 4, 2, 1] ↔ Reaches g.Edge 1 n) ∧
      g.Reversed g.preds ∧ ∃ t, (g.rootedAt 1 g.preds).dominators = .ok t ∧
        ∀ n, t.isReachable n = (g.reachable 1).contains n := by
  intro g
  have hg : g.Closed := by
    unfold Closed
    decide
  have hpreds : g.Reversed g.preds := by
    unfold Reversed
    decide
  have horder : g.reversePostorder 1 = [1, 2, 4, 3] := by decide
  obtain ⟨-, -, ⟨-, hmem⟩, -, -, hedges, -, -, hdominators⟩ :=
    traversals_exact g hg (show 1 < g.size by decide)
  rw [horder] at hedges
  have hpost : g.postorder 1 = [3, 4, 2, 1] := by
    unfold postorder
    rw [horder]
    rfl
  rw [hpost] at hmem
  exact ⟨hg, by decide, horder, hedges, hmem, hpreds, hdominators g.preds hpreds⟩

end Digraph

end SsaBackend
