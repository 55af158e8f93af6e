import SsaBackend.Proofs.Graph.Dominators
import SsaBackend.Proofs.Graph.Order

/-!
# Reducible graphs

In reverse postorder every node but the first has a predecessor that comes earlier
(`Digraph.exists_pred_before`), so a node comes after those that dominate it
(`Digraph.rank_lt_of_dom`). A graph is reducible if the edges that lead back in the order lead to
nodes that dominate their sources (`Digraph.Reducible`).

On such a graph a value that is only handed on needs no merging. Suppose that every node has the
value of all its predecessors, except where values merge, and that a merge is never idle: besides
its own value it meets two others (`Digraph.Flows`). Then nothing merges at all, and every value is
the one of the entry (`Digraph.Flows.eq_entry`).
-/

namespace SsaBackend

namespace Digraph

/-! ## Predecessors in the order -/

namespace Walk

variable {g : Digraph} {start : Nat} {s s' : Walk}

/-- The nodes entered so far in the order in which they will come: those to be left last come
first. -/
def line (s : Walk) : List Nat := (s.stack.filterMap Visit.left?).reverse ++ s.done

/-- Below the entering of a node waits the leaving of one that leads to it. -/
def Hung (g : Digraph) (start : Nat) : List Visit → Prop
  | [] => True
  | .leave _ :: rest => Hung g start rest
  | .enter n :: rest =>
    (n = start ∨ ∃ m, g.Edge m n ∧ .leave m ∈ rest) ∧ Hung g start rest

/-- A node is entered from another that comes before it. -/
structure Ranked (g : Digraph) (start : Nat) (s : Walk) : Prop where
  hung : Hung g start s.stack
  listed : ∀ n ∈ s.line, n = start ∨ ∃ m, g.Edge m n ∧ [m, n].Sublist s.line

lemma hung_fresh {n : Nat} {rest : List Visit} (h : Hung g start rest) (l : List Nat)
    (hl : ∀ m ∈ l, g.Edge n m) : Hung g start (l.map .enter ++ .leave n :: rest) := by
  induction l with
  | nil => exact h
  | cons m l ih =>
    refine ⟨.inr ⟨n, hl m List.mem_cons_self, ?_⟩, ih fun k hk => hl k (List.mem_cons_of_mem _ hk)⟩
    exact List.mem_append_right _ List.mem_cons_self

/-- Entering a node puts it between those that are left later and those that were left. -/
lemma line_enter {n : Nat} {rest : List Visit} (g : Digraph) (s : Walk) :
    (s.enter g n rest).line = (rest.filterMap Visit.left?).reverse ++ n :: s.done := by
  unfold Walk.enter line
  rw [List.filterMap_append, filterMap_left_enter]
  simp [Visit.left?]

lemma Ranked.enter {n : Nat} {rest : List Visit} (h : Ranked g start s)
    (hstack : s.stack = .enter n :: rest) : Ranked g start (s.enter g n rest) := by
  obtain ⟨hn, hrest⟩ : (n = start ∨ ∃ m, g.Edge m n ∧ .leave m ∈ rest) ∧ Hung g start rest := by
    have hhung := h.hung
    rw [hstack] at hhung
    exact hhung
  have hline : s.line = (rest.filterMap Visit.left?).reverse ++ s.done := by
    unfold line
    rw [hstack]
    rfl
  refine ⟨hung_fresh hrest _ fun m hm => (List.mem_filter.1 hm).1, ?_⟩
  rw [line_enter]
  have hgrown : s.line.Sublist ((rest.filterMap Visit.left?).reverse ++ n :: s.done) := by
    rw [hline]
    exact (List.sublist_cons_self n s.done).append_left _
  intro k hk
  rw [List.mem_append, List.mem_cons] at hk
  have hcases : k = n ∨ k ∈ s.line := by
    rw [hline, List.mem_append]
    tauto
  rcases hcases with rfl | hk
  · -- what it was entered from is still to be left
    refine hn.imp_right ?_
    rintro ⟨m, hedge, hm⟩
    have hmem : m ∈ (rest.filterMap Visit.left?).reverse :=
      List.mem_reverse.2 (List.mem_filterMap.2 ⟨_, hm, rfl⟩)
    have hfirst : [m].Sublist _ := List.singleton_sublist.2 hmem
    refine ⟨m, hedge, hfirst.append ?_⟩
    exact List.singleton_sublist.2 List.mem_cons_self
  · refine (h.listed k hk).imp_right ?_
    rintro ⟨m, hedge, hsub⟩
    exact ⟨m, hedge, hsub.trans hgrown⟩

lemma Ranked.step (h : Ranked g start s) (hs : Walk.step g s = some s') : Ranked g start s' := by
  unfold Walk.step at hs
  split at hs
  · cases hs
  · -- leaving a node does not change the order
    rename_i n rest hstack
    cases hs
    have hline : Walk.line { s with stack := rest, done := n :: s.done } = s.line := by
      unfold line
      rw [hstack]
      simp [Visit.left?]
    refine ⟨?_, hline ▸ h.listed⟩
    have hhung := h.hung
    rw [hstack] at hhung
    exact hhung
  · rename_i n rest hstack
    split at hs
    · cases hs
      exact h.enter hstack
    · cases hs
      have hline : Walk.line { s with stack := rest } = s.line := by
        unfold line
        rw [hstack]
        rfl
      refine ⟨?_, hline ▸ h.listed⟩
      have hhung := h.hung
      rw [hstack] at hhung
      exact hhung.2

end Walk

variable {g : Digraph}

/-- The place of a node in reverse postorder from the entry. -/
def rank (g : Digraph) (n : Nat) : Nat := (g.reversePostorder g.entry).idxOf n

/-- In a list without repetitions the place of a member is before that of one that follows. -/
lemma idxOf_lt_of_sublist {l : List Nat} (hl : l.Nodup) {m n : Nat} (h : [m, n].Sublist l) :
    l.idxOf m < l.idxOf n := by
  obtain ⟨l₁, l₂, rfl, hm₁, hn₂⟩ := List.cons_sublist_iff.1 h
  have hn₁ : n ∉ l₁ := fun hn₁ =>
    (List.nodup_append.1 hl).2.2 n hn₁ n (List.singleton_sublist.1 hn₂) rfl
  rw [List.idxOf_append_of_mem hm₁, List.idxOf_append_of_notMem hn₁]
  exact Nat.lt_add_right _ (List.idxOf_lt_length_of_mem hm₁)

/-- A node that is reached, other than the entry, has a predecessor that comes earlier. -/
lemma exists_pred_before (hg : g.Consistent) {n : Nat} (hn : g.Reached n) (hne : n ≠ g.entry) :
    ∃ m, g.Edge m n ∧ g.Reached m ∧ g.rank m < g.rank n := by
  obtain ⟨hnodup, hmem⟩ := reversePostorder_lists hg hg.entry_lt
  obtain ⟨s, -, hranked, hnil, horder⟩ := Walk.exists_end hg hg.entry_lt (Walk.Ranked g g.entry)
    ⟨⟨.inl rfl, trivial⟩, fun _ hk => by cases hk⟩ fun _ _ h hs => h.step hs
  have hline : s.line = g.reversePostorder g.entry := by
    unfold Walk.line
    rw [hnil, horder]
    rfl
  have hlisted := hranked.listed n (by rw [hline]; exact (hmem n).2 hn)
  rw [hline] at hlisted
  obtain ⟨m, hedge, hsub⟩ := hlisted.resolve_left hne
  have hm : m ∈ g.reversePostorder g.entry := hsub.subset List.mem_cons_self
  exact ⟨m, hedge, (hmem m).1 hm, idxOf_lt_of_sublist hnodup hsub⟩

/-- A node comes after those that dominate it. -/
lemma rank_lt_of_dom (hg : g.Consistent) {c n : Nat} (hn : g.Reached n) (hdom : g.Dom c n)
    (hne : c ≠ n) : g.rank c < g.rank n := by
  induction hk : g.rank n using Nat.strongRecOn generalizing n with
  | _ k ih =>
    have hentry : n ≠ g.entry := by
      rintro rfl
      exact hne hdom.eq_start
    obtain ⟨m, hedge, hm, hlt⟩ := exists_pred_before hg hn hentry
    by_cases hcm : c = m
    · subst hcm
      omega
    · have := ih (g.rank m) (by omega) hm (hdom.of_edge hne hedge) hcm rfl
      omega

/-! ## Values that are handed on -/

/-- Every edge that does not lead on in the order leads to a node that dominates its source. -/
def Reducible (g : Digraph) : Prop :=
  ∀ m n, g.Reached m → g.Edge m n → g.rank n ≤ g.rank m → g.Dom n m

/-- Whether a graph is reducible can be read from the dominator tree. -/
lemma reducible_iff (hg : g.Consistent) : g.Reducible ↔
    ∀ m < g.size, g.domTree.isReachable m = true → ∀ n ∈ g.succs m, g.rank n ≤ g.rank m →
      g.domTree.dominates n m = true := by
  constructor
  · intro h m _ hm n hedge hback
    have hreached := (domTree_isReachable hg m).1 hm
    exact (domTree_dominates hg n m).2
      ⟨hreached.step hedge, hreached, h m n hreached hedge hback⟩
  · intro h m n hm hedge hback
    have hdom := h m (hg.reached_lt hm) ((domTree_isReachable hg m).2 hm) n hedge hback
    exact ((domTree_dominates hg n m).1 hdom).2.2

/-- Nodes have the values of their predecessors unless these merge there, and where they merge
two of them differ from the outcome. -/
structure Flows {α : Type} (g : Digraph) (val : Nat → Option α) (merges : Nat → Prop) : Prop where
  passes : ∀ n v, g.Reached n → n ≠ g.entry → ¬ merges n → val n = some v → ∀ m, g.Edge m n →
    val m = some v
  differs : ∀ n, g.Reached n → merges n → ∃ v, val n = some v ∧
    ∀ w, ∃ m u, g.Reached m ∧ g.Edge m n ∧ val m = some u ∧ u ≠ v ∧ u ≠ w

namespace Flows

variable {α : Type} {val : Nat → Option α} {merges : Nat → Prop} {c n : Nat} {v : α}

/-- Up to a place in the order before which nothing merges below `c`, all values below `c` are the
value of `c`. -/
lemma eq_above (h : g.Flows val merges) (hg : g.Consistent) {k : Nat}
    (hnone : ∀ d, g.Reached d → g.Dom c d → c ≠ d → g.rank d < k → ¬ merges d)
    (hn : g.Reached n) (hdom : g.Dom c n) (hlt : g.rank n < k) (hv : val n = some v) :
    val c = some v := by
  induction hr : g.rank n using Nat.strongRecOn generalizing n with
  | _ r ih =>
    by_cases hcn : c = n
    · rw [hcn]
      exact hv
    · have hentry : n ≠ g.entry := by
        rintro rfl
        exact hcn hdom.eq_start
      obtain ⟨m, hedge, hm, hbefore⟩ := exists_pred_before hg hn hentry
      have hvm := h.passes n v hn hentry (hnone n hn hdom hcn hlt) hv m hedge
      exact ih (g.rank m) (by omega) hm (hdom.of_edge hcn hedge) (by omega) hvm rfl

/-- On a reducible graph nothing merges below any node. -/
lemma not_merges (h : g.Flows val merges) (hg : g.Consistent) (hred : g.Reducible)
    (hn : g.Reached n) (hdom : g.Dom c n) (hne : c ≠ n) : ¬ merges n := by
  have hbound : ∀ {d}, g.Reached d → g.rank d < (g.reversePostorder g.entry).length := by
    intro d hd
    exact List.idxOf_lt_length_of_mem (((reversePostorder_lists hg hg.entry_lt).2 d).2 hd)
  -- from the last node in the order to the first, and for each of them downwards
  induction hc : (g.reversePostorder g.entry).length - g.rank c using Nat.strongRecOn
    generalizing c n with
  | _ j ihc =>
    induction hk : g.rank n using Nat.strongRecOn generalizing n with
    | _ k ihn =>
      intro hmerges
      have habove : ∀ d, g.Reached d → g.Dom c d → c ≠ d → g.rank d < k → ¬ merges d :=
        fun d hd hcd hne hlt => ihn (g.rank d) hlt hd hcd hne rfl
      have hbelow : ∀ d, g.Reached d → g.Dom n d → n ≠ d → ¬ merges d := by
        intro d hd hnd hne'
        have := rank_lt_of_dom hg hn hdom hne
        have := hbound hn
        exact ihc _ (by omega) hd hnd hne' rfl
      obtain ⟨v, hv, hdiffers⟩ := h.differs n hn hmerges
      obtain ⟨m, u, hm, hedge, hu, huv, huc⟩ := hdiffers ((val c).getD v)
      have hcm := hdom.of_edge hne hedge
      by_cases hlt : g.rank m < k
      · -- from before, only the value of `c` can come
        have hcu := h.eq_above hg habove hm hcm hlt hu
        rw [hcu] at huc
        exact huc rfl
      · -- from behind, only the value that the merge has itself
        have hnm := hred m n hm hedge (by omega)
        have hnu := h.eq_above hg (k := g.rank m + 1) (fun d hd hnd hne' _ => hbelow d hd hnd hne')
          hm hnm (Nat.lt_succ_self _) hu
        rw [hnu] at hv
        exact huv (Option.some.inj hv)

/-- On a reducible graph all values are that of the entry. -/
lemma eq_entry (h : g.Flows val merges) (hg : g.Consistent) (hred : g.Reducible)
    (hn : g.Reached n) (hv : val n = some v) : val g.entry = some v :=
  h.eq_above hg (k := g.rank n + 1)
    (fun _ hd hcd hne _ => h.not_merges hg hred hd hcd hne) hn (.of_start n) (Nat.lt_succ_self _) hv

end Flows

end Digraph

end SsaBackend
