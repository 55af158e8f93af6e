import SsaBackend.Proofs.Checked.Access
import SsaBackend.Proofs.Graph.Forest

/-!
# The depth-first search, with every table looked at

The search that numbers the nodes fills three tables: the number of each node, the node with each
number, and the node from which each node was pushed last. Places that were not filled yet are
empty, and an empty place is no node. `SpanTables.step?` refuses to look past the end of a table.
The search never gets there (`spanTables?_ok`), and ends with the tables of the spanning tree.
-/

namespace SsaBackend

namespace Digraph

/-- The tables of a depth-first search. -/
structure SpanTables where
  stack : List Nat
  number : Array Nat
  /-- The node with each number, counted from 0. -/
  vertex : Array (Option Nat)
  parent : Array (Option Nat)
  /-- How many nodes have a number. -/
  count : Nat

namespace SpanTables

/-- Nothing has been filled. -/
def start (g : Digraph) : SpanTables :=
  ⟨[g.entry], Array.replicate g.size 0, Array.replicate g.size none, Array.replicate g.size none, 0⟩

/-- Pushes a successor of `n` that has no number yet. -/
def push? (n : Nat) (s : SpanTables) (succ : Nat) : Except Error SpanTables := do
  if (← load? s.number succ) = 0 then
    return { s with stack := succ :: s.stack, parent := ← store? s.parent succ (some n) }
  else return s

/-- Numbers the node on top of the stack unless it has a number, and pushes its successors. -/
def step? (g : Digraph) (s : SpanTables) : Except Error (Option SpanTables) := do
  match s.stack with
  | [] => return none
  | n :: rest =>
    if (← load? s.number n) = 0 then
      let number ← store? s.number n (s.count + 1)
      let vertex ← store? s.vertex s.count (some n)
      some <$> (g.succs n).reverse.foldlM (push? n)
        { s with stack := rest, number, vertex, count := s.count + 1 }
    else return some { s with stack := rest }

end SpanTables

/-- The tables at the end of the search. -/
def spanTables? (g : Digraph) : Except Error SpanTables :=
  repeatToEnd? (SpanTables.step? g) (1 + g.edgeCount + 1) (.start g)

namespace SpanTables

variable {g : Digraph} {s : SpanWalk} {c : SpanTables}

/-- The tables hold what the search knows. Every node on the stack or with a number, the entry
apart, knows who pushed it. -/
structure Mirrors (g : Digraph) (s : SpanWalk) (c : SpanTables) : Prop where
  stack : c.stack = s.stack
  number : c.number = s.number
  count : c.count = s.found.length
  vertex_size : c.vertex.size = g.size
  vertex : ∀ k n, s.found.reverse[k]? = some n → c.vertex.getD k none = some n
  parent_size : c.parent.size = g.size
  parent : ∀ n, n ≠ g.entry → n ∈ s.stack ∨ 0 < s.numberOf n →
    c.parent.getD n none = some (s.parentOf n)

/-- What the search keeps to: its tables have a place for each node, nodes on the stack are nodes
of the graph, and the numbers are given in order. -/
structure InOrder (g : Digraph) (s : SpanWalk) : Prop where
  number_size : s.number.size = g.size
  parent_size : s.parent.size = g.size
  stack : ∀ n ∈ s.stack, n < g.size
  order : ∀ k n, s.found.reverse[k]? = some n ↔ s.numberOf n = k + 1

/-- The search is about to begin, or goes on between two nodes. -/
def Underway (g : Digraph) (s : SpanWalk) : Prop :=
  s = SpanWalk.start g ∨ ∃ pushed, SpanWalk.Inv g none s pushed

lemma Underway.inOrder (hg : g.Consistent) (h : Underway g s) : InOrder g s := by
  rcases h with rfl | ⟨pushed, h⟩
  · refine ⟨by simp [SpanWalk.start], by simp [SpanWalk.start], fun n hn => ?_, fun k n => ?_⟩
    · rw [List.mem_singleton.1 hn]
      exact hg.entry_lt
    · rw [SpanWalk.numberOf_start]
      simp [SpanWalk.start]
  · refine ⟨h.number_size, h.parent_size, fun n hn => ?_, h.order⟩
    rw [h.stack] at hn
    obtain ⟨e, he, rfl⟩ := List.mem_map.1 hn
    exact (h.pushes e he).1

lemma Underway.step (hg : g.Consistent) (h : Underway g s) {s' : SpanWalk}
    (hs : SpanWalk.step g s = some s') : Underway g s' := by
  rcases h with rfl | ⟨pushed, h⟩
  · exact .inr (SpanWalk.inv_first hg hs).1
  · exact .inr (h.step hg hs)

lemma mirrors_start (g : Digraph) : Mirrors g (SpanWalk.start g) (start g) := by
  refine ⟨rfl, rfl, rfl, by simp [start], by simp [SpanWalk.start], by simp [start], ?_⟩
  rintro n hne (hn | hn)
  · exact absurd (List.mem_singleton.1 hn) hne
  · rw [SpanWalk.numberOf_start] at hn
    cases hn

/-- Fewer nodes have a number than there are nodes, if one has none. -/
lemma InOrder.found_lt (h : InOrder g s) {n : Nat} (hn : n < g.size) (h0 : s.numberOf n = 0) :
    s.found.length < g.size := by
  have hnodup : (n :: s.found.reverse).Nodup := by
    refine List.nodup_cons.2 ⟨fun hmem => ?_, ?_⟩
    · obtain ⟨k, hk⟩ := List.mem_iff_getElem?.1 hmem
      rw [h.order, h0] at hk
      cases hk
    · rw [List.nodup_iff_getElem?_ne_getElem?]
      intro i j hij hj heq
      have hm := List.getElem?_eq_getElem hj
      have h1 := (h.order j _).1 hm
      have h2 := (h.order i _).1 (heq.trans hm)
      omega
  have hsub : n :: s.found.reverse ⊆ List.range g.size := by
    intro m hm
    rw [List.mem_range]
    rcases List.mem_cons.1 hm with rfl | hm
    · exact hn
    · -- a node past the end of the table would have no number
      obtain ⟨k, hk⟩ := List.mem_iff_getElem?.1 hm
      have hnum : s.number.getD m 0 = k + 1 := (h.order k m).1 hk
      rw [← h.number_size]
      exact lt_size_of_getD_ne (by rw [hnum]; exact Nat.succ_ne_zero k)
  have hlen := (hnodup.subperm hsub).length_le
  rw [List.length_range, List.length_cons, List.length_reverse] at hlen
  exact hlen

/-- Pushing a node of the graph. -/
lemma Mirrors.push (h : Mirrors g s c) (hnum : s.number.size = g.size)
    (hpar : s.parent.size = g.size) {n succ : Nat} (hsucc : succ < g.size) :
    ∃ c', push? n c succ = .ok c' ∧ Mirrors g (SpanWalk.push n s succ) c' := by
  have hload : load? c.number succ = .ok (s.numberOf succ) := by
    rw [h.number]
    exact load?_ok (by omega) 0
  unfold push?
  rw [hload, ok_bind]
  by_cases h0 : s.numberOf succ = 0
  · have hpush : SpanWalk.push n s succ =
        { s with stack := succ :: s.stack, parent := s.parent.setIfInBounds succ n } := by
      rw [SpanWalk.push, if_pos (by simp [h0, hnum, hsucc])]
    rw [if_pos h0, store?_ok (by rw [h.parent_size]; exact hsucc), ok_bind, hpush]
    refine ⟨_, rfl, ?_, h.number, h.count, h.vertex_size, h.vertex, ?_, ?_⟩
    · show succ :: c.stack = succ :: s.stack
      rw [h.stack]
    · simpa using h.parent_size
    · intro m hm hmem
      show (c.parent.setIfInBounds succ (some n)).getD m none =
        some ((s.parent.setIfInBounds succ n).getD m m)
      rw [getD_setIfInBounds, getD_setIfInBounds, h.parent_size, hpar]
      by_cases hsm : succ = m
      · rw [if_pos ⟨hsm, hsm ▸ hsucc⟩, if_pos ⟨hsm, hsm ▸ hsucc⟩]
      · rw [if_neg fun hc => hsm hc.1, if_neg fun hc => hsm hc.1]
        refine h.parent m hm (hmem.imp_left fun hin => ?_)
        exact (List.mem_cons.1 hin).resolve_left fun he => hsm he.symm
  · have hpush : SpanWalk.push n s succ = s := by
      rw [SpanWalk.push, if_neg (by simp [h0])]
    rw [if_neg h0, hpush]
    exact ⟨c, rfl, h⟩

/-- Numbering the node on top of the stack. -/
lemma Mirrors.visit (h : Mirrors g s c) (hk : InOrder g s) {n : Nat} {rest : List Nat}
    (hstack : s.stack = n :: rest) (h0 : s.numberOf n = 0) :
    ∃ number vertex, store? c.number n (c.count + 1) = .ok number ∧
      store? c.vertex c.count (some n) = .ok vertex ∧
      Mirrors g (s.visit n rest)
        { c with stack := rest, number, vertex, count := c.count + 1 } := by
  have hn : n < g.size := hk.stack n (hstack ▸ List.mem_cons_self)
  have hfound := hk.found_lt hn h0
  have hin : n < s.number.size := by rw [hk.number_size]; exact hn
  refine ⟨_, _, store?_ok (by rw [h.number]; exact hin) _,
    store?_ok (by rw [h.vertex_size, h.count]; exact hfound) _,
    rfl, ?_, ?_, ?_, ?_, h.parent_size, ?_⟩
  · show c.number.setIfInBounds n (c.count + 1) = s.number.setIfInBounds n (s.found.length + 1)
    rw [h.number, h.count]
  · show c.count + 1 = (n :: s.found).length
    rw [h.count]
    rfl
  · simpa using h.vertex_size
  · -- `n` gets the next number, and the numbers given before stay
    intro k m hm
    show (c.vertex.setIfInBounds c.count (some n)).getD k none = some m
    have hm : (n :: s.found).reverse[k]? = some m := hm
    rw [List.reverse_cons, List.getElem?_append, List.length_reverse] at hm
    rw [getD_setIfInBounds, h.vertex_size, h.count]
    by_cases hk : k < s.found.length
    · rw [if_pos hk] at hm
      rw [if_neg (by omega)]
      exact h.vertex k m hm
    · rw [if_neg hk, List.getElem?_singleton] at hm
      split at hm
      · rw [if_pos (by omega)]
        exact hm
      · cases hm
  · -- `n` is off the stack, but it has a number now
    intro m hm hmem
    refine h.parent m hm ?_
    rcases hmem with hmem | hmem
    · exact .inl (hstack ▸ List.mem_cons_of_mem _ hmem)
    · rw [SpanWalk.numberOf_visit hin] at hmem
      split at hmem
      · rename_i he
        exact .inl (hstack ▸ he ▸ List.mem_cons_self)
      · exact .inr hmem

/-- Pushing nodes of the graph, which leaves the sizes alone. -/
lemma Mirrors.foldl_push (h : Mirrors g s c) (hnum : s.number.size = g.size)
    (hpar : s.parent.size = g.size) (n : Nat) {l : List Nat} (hl : ∀ w ∈ l, w < g.size) :
    ∃ c', l.foldlM (push? n) c = .ok c' ∧ Mirrors g (l.foldl (SpanWalk.push n) s) c' := by
  induction l generalizing s c with
  | nil => exact ⟨c, rfl, h⟩
  | cons w rest ih =>
    obtain ⟨c₁, hc₁, h₁⟩ := h.push hnum hpar (n := n) (hl w List.mem_cons_self)
    obtain ⟨hnumber, -, hparent, -, -⟩ := SpanWalk.foldl_push n [w] s
      (fun v hv => by rw [hpar]; exact hl v (List.mem_singleton.1 hv ▸ List.mem_cons_self))
      (hnum.trans hpar.symm)
    obtain ⟨c', hc', h'⟩ := ih h₁ ((congrArg Array.size hnumber).trans hnum)
      (hparent.trans hpar) fun v hv => hl v (List.mem_cons_of_mem _ hv)
    refine ⟨c', ?_, h'⟩
    rw [List.foldlM_cons, hc₁, ok_bind, hc']

/-- A step is not refused, and keeps company with the one that runs. -/
lemma Mirrors.step (hg : g.Consistent) (h : Mirrors g s c) (hk : InOrder g s) :
    (SpanWalk.step g s = none → step? g c = .ok none) ∧
    ∀ s', SpanWalk.step g s = some s' → ∃ c', step? g c = .ok (some c') ∧ Mirrors g s' c' := by
  refine ⟨fun hnone => ?_, fun s' hsome => ?_⟩
  · have hempty : s.stack = [] := by
      unfold SpanWalk.step at hnone
      split at hnone
      · assumption
      · split at hnone <;> cases hnone
    unfold step?
    rw [h.stack, hempty]
    rfl
  · obtain ⟨n, rest, hstack, hcase⟩ := SpanWalk.step_eq hsome
    have hn : n < g.size := hk.stack n (hstack ▸ List.mem_cons_self)
    have hload : load? c.number n = .ok (s.numberOf n) := by
      rw [h.number]
      exact load?_ok (by rw [hk.number_size]; exact hn) 0
    unfold step?
    rw [h.stack, hstack]
    dsimp only
    rw [hload, ok_bind]
    rcases hcase with ⟨h0, rfl⟩ | ⟨h0, rfl⟩
    · obtain ⟨number, vertex, hnumber, hvertex, hvisit⟩ := h.visit hk hstack h0
      rw [if_pos h0, hnumber, ok_bind, hvertex, ok_bind]
      have hnum : (s.visit n rest).number.size = g.size := by
        simpa [SpanWalk.visit] using hk.number_size
      obtain ⟨c', hc', hmirrors⟩ := hvisit.foldl_push hnum hk.parent_size n
        fun w hw => hg.succ_lt n hn w (List.mem_reverse.1 hw)
      exact ⟨c', by rw [hc']; rfl, hmirrors⟩
    · rw [if_neg h0]
      refine ⟨_, rfl, rfl, h.number, h.count, h.vertex_size, h.vertex, h.parent_size, ?_⟩
      intro m hm hmem
      exact h.parent m hm (hmem.imp_left fun hin => hstack ▸ List.mem_cons_of_mem _ hin)

/-- The tables describe a spanning tree: what is in them is what the tree says. -/
structure Describes (g : Digraph) (t : SpanTree) (c : SpanTables) : Prop where
  number : c.number = t.number
  number_size : t.number.size = g.size
  count : c.count = t.order.length
  count_le : t.order.length ≤ c.vertex.size
  vertex : ∀ (k n : Nat), t.order[k]? = some n → c.vertex[k]? = some (some n)
  parent : ∀ n, 1 < t.numberOf n → load? c.parent n = .ok (some (t.parentOf n))

/-- At the end of the search, what it knows is a tree. -/
lemma Mirrors.describes (h : Mirrors g s c) (hend : SpanWalk.Inv g none s []) :
    Describes g ⟨s.number, s.found.reverse, s.parent⟩ c := by
  have hvertex : ∀ k n : Nat, s.found.reverse[k]? = some n → c.vertex[k]? = some (some n) := by
    intro k n hk
    have hget := h.vertex k n hk
    have hlt := lt_size_of_getD_ne (hget ▸ Option.some_ne_none n)
    rw [Array.getElem?_eq_getElem hlt]
    simpa [Array.getD, hlt] using hget
  refine ⟨h.number, hend.number_size, h.count.trans List.length_reverse.symm, ?_, hvertex, ?_⟩
  · show s.found.reverse.length ≤ c.vertex.size
    by_contra hlt
    have hlast : s.found.reverse.length - 1 < s.found.reverse.length := by omega
    obtain ⟨hin, -⟩ := Array.getElem?_eq_some_iff.1 (hvertex _ _ (List.getElem?_eq_getElem hlast))
    omega
  · intro n hn
    have hn : 1 < s.numberOf n := hn
    have hne : n ≠ g.entry := by
      rintro rfl
      rw [hend.entry] at hn
      omega
    have hget := h.parent n hne (.inr (by omega))
    rw [load?_ok (lt_size_of_getD_ne (hget ▸ Option.some_ne_none _)) none, hget]
    rfl

end SpanTables

open SpanTables in
/-- The search is never refused, and its tables describe the spanning tree. -/
lemma spanTables?_ok {g : Digraph} (hg : g.Consistent) :
    ∃ c, g.spanTables? = .ok c ∧ Describes g g.spanTree c := by
  obtain ⟨s, hend, hs⟩ := exists_search_end g hg
  have hdone : SpanWalk.step g s = none := by
    unfold SpanWalk.step
    rw [hend.stack]
    rfl
  have hrun : ∃ c, g.spanTables? = .ok c ∧ Mirrors g s c ∧ Underway g s := by
    rw [hs] at hdone ⊢
    refine repeatToEnd?_ok (fun s c => Mirrors g s c ∧ Underway g s) ?_ ?_
      ⟨mirrors_start g, .inl rfl⟩ hdone
    · rintro s c ⟨hm, hs⟩ hnone
      exact (hm.step hg (hs.inOrder hg)).1 hnone
    · rintro s c s' ⟨hm, hs⟩ hsome
      obtain ⟨c', hc', hm'⟩ := (hm.step hg (hs.inOrder hg)).2 s' hsome
      exact ⟨c', hc', hm', hs.step hg hsome⟩
  obtain ⟨c, hc, hm, -⟩ := hrun
  have htree : g.spanTree = ⟨s.number, s.found.reverse, s.parent⟩ := by
    rw [hs]
    rfl
  exact ⟨c, hc, htree ▸ hm.describes hend⟩

end Digraph

end SsaBackend
