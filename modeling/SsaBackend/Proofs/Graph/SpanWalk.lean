import SsaBackend.NatMap
import SsaBackend.Proofs.Graph.SpanTree
import SsaBackend.Proofs.Tables

/-!
# The search finds a depth-first spanning tree

The search keeps a stack on which a node can wait several times, once for every node it was
pushed from. The invariant `SpanWalk.Inv` remembers who pushed what: from the top of the stack
to its bottom the pushers go up the tree, starting at the node numbered last. So a node that
is numbered at last gets a parent that is below everybody who pushed it before.

Main statement: `spans_spanTree`.
-/

namespace SsaBackend

namespace Digraph

/-- The shape of a graph: its entry is one of its nodes, its edges stay among them, and the
predecessors of a node are the nodes it is a successor of. -/
structure Consistent (g : Digraph) : Prop where
  entry_lt : g.entry < g.size
  succ_lt : ∀ m < g.size, ∀ n ∈ g.succs m, n < g.size
  pred_iff : ∀ m < g.size, ∀ n < g.size, m ∈ g.preds n ↔ n ∈ g.succs m

/-- What the entry leads to is inside the graph. -/
lemma Consistent.reached_lt {g : Digraph} (hg : g.Consistent) {n : Nat} (h : g.Reached n) :
    n < g.size :=
  h.induct (P := (· < g.size)) hg.entry_lt fun a b _ ha hab => hg.succ_lt a ha b hab

namespace SpanWalk

/-- The parent of a node as far as it is known. -/
def parentOf (s : SpanWalk) (n : Nat) : Nat := s.parent.getD n n

/-- What holds between two steps of the search, with `pushed` the nodes on the stack and who
pushed them. The successors of the node `fresh` have not been pushed yet. -/
structure Inv (g : Digraph) (fresh : Option Nat) (s : SpanWalk) (pushed : List (Nat × Nat)) :
    Prop where
  number_size : s.number.size = g.size
  parent_size : s.parent.size = g.size
  stack : s.stack = pushed.map (·.1)
  order : ∀ k n, s.found.reverse[k]? = some n ↔ s.numberOf n = k + 1
  entry : s.numberOf g.entry = 1
  parent : ∀ n, 1 < s.numberOf n →
    0 < s.numberOf (s.parentOf n) ∧ s.numberOf (s.parentOf n) < s.numberOf n ∧
      g.Edge (s.parentOf n) n
  previous : ∀ m n, 0 < s.numberOf m → s.numberOf n = s.numberOf m + 1 →
    Anc s.numberOf s.parentOf (s.parentOf n) m
  /-- Everything on the stack was pushed over an edge from a numbered node. -/
  pushes : ∀ e ∈ pushed, e.1 < g.size ∧ 0 < s.numberOf e.2 ∧ g.Edge e.2 e.1
  /-- A node without a number has as parent who pushed it last. -/
  latest : ∀ n q, s.numberOf n = 0 → pushed.lookup n = some q → s.parentOf n = q
  /-- Further down the stack the pushers are further up the tree. -/
  chain : pushed.Pairwise fun above below => Anc s.numberOf s.parentOf below.2 above.2
  /-- The pushers are above the node numbered last. -/
  last : ∀ e ∈ pushed, ∀ m, s.numberOf m = s.found.length →
    Anc s.numberOf s.parentOf e.2 m
  /-- An edge from a numbered node leads down the tree, or back, or waits on the stack. -/
  edges : ∀ v w, 0 < s.numberOf v → some v ≠ fresh → g.Edge v w →
    (0 < s.numberOf w ∧ (s.numberOf v < s.numberOf w → Anc s.numberOf s.parentOf v w)) ∨
      (s.numberOf w = 0 ∧ (w, v) ∈ pushed)

/-! ## The numbers given so far -/

/-- The numbers given so far are those up to the number of nodes found. -/
lemma order_le {s : SpanWalk} (h : ∀ k n, s.found.reverse[k]? = some n ↔ s.numberOf n = k + 1)
    (n : Nat) : s.numberOf n ≤ s.found.length := by
  by_contra hc
  have hk := (h (s.numberOf n - 1) n).2 (by omega)
  have := (List.getElem?_eq_some_iff.1 hk).1
  rw [List.length_reverse] at this
  omega

/-- Two nodes with one number are one node. -/
lemma order_inj {s : SpanWalk} (h : ∀ k n, s.found.reverse[k]? = some n ↔ s.numberOf n = k + 1)
    {m n : Nat} (hm : 0 < s.numberOf m) (he : s.numberOf m = s.numberOf n) : m = n := by
  have hk := (h (s.numberOf m - 1) m).2 (by omega)
  rw [(h (s.numberOf m - 1) n).2 (by omega)] at hk
  exact (Option.some.inj hk).symm

/-! ## Pushing -/

/-- Of nodes all pushed by `n`, each was pushed by `n`. -/
lemma lookup_map_pair (n v : Nat) (l : List Nat) :
    (l.map (·, n)).lookup v = if v ∈ l then some n else none := by
  induction l with
  | nil => rfl
  | cons w l ih =>
    rw [List.map_cons, NatMap.lookup_pair, ih]
    by_cases hvw : v = w
    · simp [hvw]
    · simp [hvw]

/-- What pushing a node does to each part of the state. -/
lemma push_parts (n : Nat) {w : Nat} {s : SpanWalk} (hw : w < s.parent.size)
    (hsize : s.number.size = s.parent.size) :
    (push n s w).number = s.number ∧ (push n s w).found = s.found ∧
      (push n s w).parent.size = s.parent.size ∧
      (push n s w).stack = [w].filter (s.numberOf · = 0) ++ s.stack ∧
      ∀ v, (push n s w).parentOf v =
        if v = w ∧ s.numberOf w = 0 then n else s.parentOf v := by
  by_cases h0 : s.numberOf w = 0
  · have hpush : push n s w =
        { s with stack := w :: s.stack, parent := s.parent.setIfInBounds w n } := by
      rw [push, if_pos (by simp [h0, hsize, hw])]
    rw [hpush]
    refine ⟨rfl, rfl, by simp, by simp [h0], fun v => ?_⟩
    show (s.parent.setIfInBounds w n).getD v v = _
    rw [getD_setIfInBounds]
    by_cases hwv : w = v
    · rw [if_pos ⟨hwv, hwv ▸ hw⟩, if_pos ⟨hwv.symm, h0⟩]
    · rw [if_neg fun hc => hwv hc.1, if_neg fun hc => hwv hc.1.symm]
      rfl
  · have hpush : push n s w = s := by
      rw [push, if_neg (by simp [h0])]
    rw [hpush]
    exact ⟨rfl, rfl, rfl, by simp [h0], fun v => (if_neg fun hc => h0 hc.2).symm⟩

/-- What pushing a list of successors of `n` does to each part of the state. -/
lemma foldl_push (n : Nat) (l : List Nat) (s : SpanWalk)
    (hl : ∀ w ∈ l, w < s.parent.size) (hsize : s.number.size = s.parent.size) :
    (l.foldl (push n) s).number = s.number ∧ (l.foldl (push n) s).found = s.found ∧
      (l.foldl (push n) s).parent.size = s.parent.size ∧
      (l.foldl (push n) s).stack = (l.filter (s.numberOf · = 0)).reverse ++ s.stack ∧
      ∀ w, (l.foldl (push n) s).parentOf w =
        if w ∈ l ∧ s.numberOf w = 0 then n else s.parentOf w := by
  induction l generalizing s with
  | nil => simp
  | cons w l ih =>
    obtain ⟨hnumber, hfound, hparent, hstack, hpar⟩ := push_parts n (hl w List.mem_cons_self) hsize
    have hnum : ∀ v, (push n s w).numberOf v = s.numberOf v := by
      intro v
      rw [numberOf, hnumber]
      rfl
    obtain ⟨h1, h2, h3, h4, h5⟩ := ih (push n s w)
      (fun v hv => hparent ▸ hl v (List.mem_cons_of_mem _ hv)) (by rw [hnumber, hparent, hsize])
    simp only [hnum] at h4 h5
    rw [List.foldl_cons]
    refine ⟨h1.trans hnumber, h2.trans hfound, h3.trans hparent, ?_, fun v => ?_⟩
    · rw [h4, hstack, List.filter_cons, List.filter_cons]
      split <;> simp
    · rw [h5 v, hpar]
      by_cases hvw : v = w
      · subst hvw
        by_cases h0 : s.numberOf v = 0 <;> simp [h0]
      · simp [hvw]

/-- What `n` pushes are its successors without a number. -/
lemma mem_pushes {g : Digraph} {n : Nat} {s : SpanWalk} {e : Nat × Nat} :
    e ∈ ((g.succs n).filter (s.numberOf · = 0)).map (·, n) ↔
      e.2 = n ∧ g.Edge n e.1 ∧ s.numberOf e.1 = 0 := by
  obtain ⟨w, v⟩ := e
  simp only [List.mem_map, List.mem_filter, decide_eq_true_eq, Prod.mk.injEq, Edge]
  constructor
  · rintro ⟨w', ⟨hw', h0⟩, rfl, rfl⟩
    exact ⟨rfl, hw', h0⟩
  · rintro ⟨rfl, hw, h0⟩
    exact ⟨w, ⟨hw, h0⟩, rfl, rfl⟩

/-- Who pushed a node without a number last, once the successors of `n` are pushed. -/
lemma lookup_pushes {g : Digraph} {n v : Nat} {s : SpanWalk} (pushed : List (Nat × Nat))
    (hv : s.numberOf v = 0) :
    (((g.succs n).filter (s.numberOf · = 0)).map (·, n) ++ pushed).lookup v =
      if v ∈ g.succs n then some n else pushed.lookup v := by
  rw [List.lookup_append, lookup_map_pair]
  by_cases hvn : v ∈ g.succs n
  · rw [if_pos (List.mem_filter.2 ⟨hvn, by simp [hv]⟩), if_pos hvn, Option.some_or]
  · rw [if_neg fun hc => hvn (List.mem_filter.1 hc).1, if_neg hvn, Option.none_or]

/-- Pushing the successors of the node numbered last completes a step. -/
lemma Inv.push_succs {g : Digraph} (hg : g.Consistent) {n : Nat} {s : SpanWalk}
    {pushed : List (Nat × Nat)} (h : Inv g (some n) s pushed)
    (hn : s.numberOf n = s.found.length) (hpos : 0 < s.numberOf n) (hlt : n < g.size) :
    Inv g none ((g.succs n).reverse.foldl (push n) s)
      (((g.succs n).filter (s.numberOf · = 0)).map (·, n) ++ pushed) := by
  have hin : ∀ w ∈ (g.succs n).reverse, w < s.parent.size := by
    intro w hw
    rw [h.parent_size]
    exact hg.succ_lt n hlt w (List.mem_reverse.1 hw)
  obtain ⟨h1, h2, h3, h4, h5⟩ :=
    foldl_push n (g.succs n).reverse s hin (by rw [h.number_size, h.parent_size])
  set s' := (g.succs n).reverse.foldl (push n) s
  have hnum : s'.numberOf = s.numberOf := by
    funext v
    rw [numberOf, h1]
    rfl
  have hpar : ∀ v, 0 < s.numberOf v → s'.parentOf v = s.parentOf v := by
    intro v hv
    rw [h5 v, if_neg (fun hc => by omega)]
  -- ancestors of numbered nodes are as before
  have hanc : ∀ {a b : Nat}, Anc s.numberOf s.parentOf a b → Anc s.numberOf s'.parentOf a b := by
    intro a b hab
    exact hab.congr fun v hv => ⟨rfl, hpar v (by omega)⟩
  constructor
  case number_size => rw [h1, h.number_size]
  case parent_size => rw [h3, h.parent_size]
  case stack =>
    -- the successors lie on top of the stack, in their order
    rw [h4, h.stack, List.map_append, List.map_map, ← List.filter_reverse, List.reverse_reverse]
    show _ = List.map id _ ++ _
    rw [List.map_id]
  case order =>
    rw [h2, hnum]
    exact h.order
  case entry =>
    rw [hnum]
    exact h.entry
  case parent =>
    intro v hv
    rw [hnum] at hv ⊢
    rw [hpar v (by omega)]
    exact h.parent v hv
  case previous =>
    intro m v hm hv
    rw [hnum] at hm hv ⊢
    rw [hpar v (by omega)]
    exact hanc (h.previous m v hm hv)
  case pushes =>
    -- what was pushed just now was pushed over an edge from `n`
    intro e he
    rw [hnum]
    rcases List.mem_append.1 he with he | he
    · obtain ⟨he2, hedge, _⟩ := mem_pushes.1 he
      rw [he2]
      exact ⟨hg.succ_lt n hlt e.1 hedge, hpos, hedge⟩
    · exact h.pushes e he
  case latest =>
    -- what was pushed just now comes first, and has `n` as its parent
    intro v q hv hq
    rw [hnum] at hv
    rw [lookup_pushes pushed hv] at hq
    rw [h5 v]
    split at hq
    · rename_i hvn
      rw [if_pos ⟨List.mem_reverse.2 hvn, hv⟩]
      exact Option.some.inj hq
    · rename_i hvn
      rw [if_neg (fun hc => hvn (List.mem_reverse.1 hc.1))]
      exact h.latest v q hv hq
  case chain =>
    -- everybody who pushed before is above the node numbered last, which is `n`
    rw [hnum]
    refine List.pairwise_append.2 ⟨?_, h.chain.imp hanc, ?_⟩
    · refine List.pairwise_iff_forall_sublist.2 fun {e e'} hsub => ?_
      rw [(mem_pushes.1 (hsub.subset (by simp))).1, (mem_pushes.1 (hsub.subset (by simp))).1]
      exact .refl
    · intro e he e' he'
      rw [(mem_pushes.1 he).1]
      exact hanc (h.last e' he' n hn)
  case last =>
    intro e he m hm
    rw [hnum] at hm ⊢
    rw [h2] at hm
    rcases List.mem_append.1 he with he | he
    · rw [(mem_pushes.1 he).1, order_inj h.order hpos (hn.trans hm.symm)]
      exact .refl
    · exact hanc (h.last e he m hm)
  case edges =>
    -- the edges from `n` wait from now on
    intro v w hv _ he
    rw [hnum] at hv ⊢
    by_cases hvn : v = n
    · subst hvn
      by_cases hw : s.numberOf w = 0
      · exact Or.inr ⟨hw, List.mem_append_left _ (mem_pushes.2 ⟨rfl, he, hw⟩)⟩
      · -- no number is larger than that of `v`
        have hle := order_le h.order w
        exact Or.inl ⟨by omega, fun hlt => by omega⟩
    · rcases h.edges v w hv (fun hc => hvn (Option.some.inj hc)) he with ⟨hw, hdown⟩ | ⟨hw, hmem⟩
      · exact Or.inl ⟨hw, fun hlt => hanc (hdown hlt)⟩
      · exact Or.inr ⟨hw, List.mem_append_right _ hmem⟩

/-! ## Numbering -/

/-- The state once the node on top of the stack is numbered. -/
def visit (s : SpanWalk) (n : Nat) (rest : List Nat) : SpanWalk :=
  { s with
    stack := rest
    number := s.number.setIfInBounds n (s.found.length + 1)
    found := n :: s.found }

lemma numberOf_visit {s : SpanWalk} {n : Nat} (hn : n < s.number.size) (rest : List Nat)
    (v : Nat) :
    (s.visit n rest).numberOf v = if n = v then s.found.length + 1 else s.numberOf v := by
  show (s.number.setIfInBounds n (s.found.length + 1)).getD v 0 = _
  rw [getD_setIfInBounds]
  by_cases hnv : n = v
  · rw [if_pos ⟨hnv, hnv ▸ hn⟩, if_pos hnv]
  · rw [if_neg (fun hc => hnv hc.1), if_neg hnv]
    rfl

lemma numberOf_visit_self {s : SpanWalk} {n : Nat} (hn : n < s.number.size) (rest : List Nat) :
    (s.visit n rest).numberOf n = s.found.length + 1 := by
  rw [numberOf_visit hn, if_pos rfl]

lemma numberOf_visit_ne {s : SpanWalk} {n v : Nat} (hn : n < s.number.size) (rest : List Nat)
    (hv : n ≠ v) : (s.visit n rest).numberOf v = s.numberOf v := by
  rw [numberOf_visit hn, if_neg hv]

/-- Nodes keep their numbers when a node without one is numbered. -/
lemma numberOf_visit_old {s : SpanWalk} {n v : Nat} (hn : n < s.number.size)
    (h0 : s.numberOf n = 0) (rest : List Nat) (hv : s.numberOf v ≠ 0) :
    (s.visit n rest).numberOf v = s.numberOf v := by
  refine numberOf_visit_ne hn rest ?_
  rintro rfl
  exact hv h0

/-- Numbering a node without a number keeps the nodes in the order of their numbers. -/
lemma order_visit {s : SpanWalk} (h : ∀ k n, s.found.reverse[k]? = some n ↔ s.numberOf n = k + 1)
    {n : Nat} (hn : n < s.number.size) (h0 : s.numberOf n = 0) (rest : List Nat) (k v : Nat) :
    (s.visit n rest).found.reverse[k]? = some v ↔ (s.visit n rest).numberOf v = k + 1 := by
  rw [numberOf_visit hn]
  show (n :: s.found).reverse[k]? = some v ↔ _
  rw [List.reverse_cons, List.getElem?_append]
  have hle := order_le h v
  by_cases hk : k < s.found.reverse.length
  · rw [if_pos hk, h k v]
    rw [List.length_reverse] at hk
    by_cases hnv : n = v
    · subst hnv
      rw [if_pos rfl]
      omega
    · rw [if_neg hnv]
  · rw [if_neg hk]
    rw [List.length_reverse] at hk ⊢
    by_cases hnv : n = v
    · subst hnv
      rw [if_pos rfl]
      by_cases hk' : k = s.found.length
      · simp [hk']
      · have : k - s.found.length ≠ 0 := by omega
        simp [this]
        omega
    · rw [if_neg hnv]
      constructor
      · intro hc
        have hone := List.mem_of_getElem? hc
        exact absurd (List.mem_singleton.1 hone).symm hnv
      · intro hc
        omega

/-- Ancestors stay when a node without a number is numbered. -/
lemma anc_visit {s : SpanWalk} {n : Nat} (hn : n < s.number.size) (h0 : s.numberOf n = 0)
    (rest : List Nat) {a b : Nat} (h : Anc s.numberOf s.parentOf a b) :
    Anc (s.visit n rest).numberOf s.parentOf a b :=
  h.congr fun _ hv => ⟨numberOf_visit_old hn h0 rest hv, rfl⟩

/-- The first step numbers the entry. -/
lemma inv_visit_entry {g : Digraph} (hg : g.Consistent) :
    Inv g (some g.entry)
      (visit ⟨[g.entry], Array.replicate g.size 0, [], Array.range g.size⟩ g.entry []) [] := by
  set s : SpanWalk := ⟨[g.entry], Array.replicate g.size 0, [], Array.range g.size⟩ with hs
  have hlt : g.entry < s.number.size := by simpa [hs] using hg.entry_lt
  have hnum0 : ∀ v, s.numberOf v = 0 := fun v => getD_replicate g.size v 0
  have horder : ∀ k n, s.found.reverse[k]? = some n ↔ s.numberOf n = k + 1 := by
    intro k n
    rw [hnum0]
    simp [hs]
  have hnum : ∀ v, (s.visit g.entry []).numberOf v = if g.entry = v then 1 else 0 := by
    intro v
    rw [numberOf_visit hlt, hnum0]
    rfl
  have hone : ∀ v, (s.visit g.entry []).numberOf v ≤ 1 := by
    intro v
    rw [hnum]
    split <;> omega
  refine ⟨by simp [visit, hs], by simp [visit, hs], rfl,
    order_visit horder hlt (hnum0 _) [], by rw [hnum, if_pos rfl], ?_, ?_, by simp, by simp,
    List.Pairwise.nil, by simp, ?_⟩
  · intro n hn
    have := hone n
    omega
  · intro m n hm hn
    have := hone n
    omega
  · intro v w hv hne _
    rw [hnum] at hv
    by_cases he : g.entry = v
    · exact absurd (congrArg some he.symm) hne
    · rw [if_neg he] at hv
      omega

/-- When the node on top of the stack is numbered, whoever pushed it last is above it, and so is
everybody else who pushed something before. -/
lemma Inv.anc_pushers {g : Digraph} {n q : Nat} {s : SpanWalk} {pushed : List (Nat × Nat)}
    (h : Inv g none s ((n, q) :: pushed)) (hn : n < s.number.size) (h0 : s.numberOf n = 0) :
    Anc (s.visit n (pushed.map (·.1))).numberOf s.parentOf q n ∧
      ∀ e ∈ pushed, Anc (s.visit n (pushed.map (·.1))).numberOf s.parentOf e.2 n := by
  have hparent : s.parentOf n = q := h.latest n q h0 (by rw [NatMap.lookup_pair, if_pos rfl])
  have hqn : Anc (s.visit n (pushed.map (·.1))).numberOf s.parentOf q n := by
    refine .up ?_ (hparent ▸ .refl)
    have hqpos : 0 < s.numberOf q := (h.pushes (n, q) List.mem_cons_self).2.1
    have hql := order_le h.order q
    rw [numberOf_visit_self hn]
    omega
  -- everybody further down the stack is above whoever pushed the node
  refine ⟨hqn, fun e he => ?_⟩
  exact (anc_visit hn h0 _ ((List.pairwise_cons.1 h.chain).1 e he)).trans hqn

/-- An edge that waited for the node on top of the stack leads down the tree once that is
numbered; the others are as they were. -/
lemma Inv.edges_visit {g : Digraph} {n q : Nat} {s : SpanWalk} {pushed : List (Nat × Nat)}
    (h : Inv g none s ((n, q) :: pushed)) (hn : n < s.number.size) (h0 : s.numberOf n = 0)
    {v w : Nat} (hv : 0 < s.numberOf v) (he : g.Edge v w) :
    let s' := s.visit n (pushed.map (·.1))
    (0 < s'.numberOf w ∧ (s.numberOf v < s'.numberOf w → Anc s'.numberOf s.parentOf v w)) ∨
      (s'.numberOf w = 0 ∧ (w, v) ∈ pushed) := by
  intro s'
  obtain ⟨hqn, hpushers⟩ := h.anc_pushers hn h0
  rcases h.edges v w hv (by simp) he with ⟨hw, hdown⟩ | ⟨hw, hmem⟩
  · rw [numberOf_visit_old hn h0 _ (by omega)]
    exact Or.inl ⟨hw, fun hlt => anc_visit hn h0 _ (hdown hlt)⟩
  · by_cases hwn : n = w
    · subst hwn
      rw [numberOf_visit_self hn]
      refine Or.inl ⟨by omega, fun _ => ?_⟩
      rcases List.mem_cons.1 hmem with heq | hmem
      · rw [(Prod.mk.inj heq).2]
        exact hqn
      · exact hpushers _ hmem
    · rw [numberOf_visit_ne hn _ hwn]
      rcases List.mem_cons.1 hmem with heq | hmem
      · exact absurd (Prod.mk.inj heq).1.symm hwn
      · exact Or.inr ⟨hw, hmem⟩

/-- Numbering the node on top of the stack: whoever pushed it last becomes its parent, and is
below everybody else who pushed it. -/
lemma Inv.visit_next {g : Digraph} {n q : Nat} {s : SpanWalk} {pushed : List (Nat × Nat)}
    (h : Inv g none s ((n, q) :: pushed)) (h0 : s.numberOf n = 0) :
    Inv g (some n) (s.visit n (pushed.map (·.1))) pushed := by
  obtain ⟨hlt, hqpos, hedge⟩ : n < g.size ∧ 0 < s.numberOf q ∧ g.Edge q n :=
    h.pushes (n, q) List.mem_cons_self
  have hin : n < s.number.size := by rw [h.number_size]; exact hlt
  have hparent : s.parentOf n = q := h.latest n q h0 (by rw [NatMap.lookup_pair, if_pos rfl])
  have hself := numberOf_visit_self hin (pushed.map (·.1))
  have hother : ∀ v, n ≠ v → (s.visit n (pushed.map (·.1))).numberOf v = s.numberOf v :=
    fun v => numberOf_visit_ne hin _
  have hold : ∀ v, s.numberOf v ≠ 0 → (s.visit n (pushed.map (·.1))).numberOf v = s.numberOf v :=
    fun v => numberOf_visit_old hin h0 _
  have hanc : ∀ {a b : Nat}, Anc s.numberOf s.parentOf a b →
      Anc (s.visit n (pushed.map (·.1))).numberOf s.parentOf a b := anc_visit hin h0 _
  have hle : ∀ v, s.numberOf v ≤ s.found.length := order_le h.order
  set s' := s.visit n (pushed.map (·.1))
  have hpar : s'.parentOf = s.parentOf := rfl
  constructor
  case number_size => simpa [s', visit] using h.number_size
  case parent_size => exact h.parent_size
  case stack => rfl
  case order => exact order_visit h.order hin h0 _
  case entry =>
    rw [hold _ (by rw [h.entry]; omega)]
    exact h.entry
  case parent =>
    intro v hv
    rw [hpar]
    -- the new node hangs below whoever pushed it last
    by_cases hvn : n = v
    · subst hvn
      have hql := hle q
      rw [hparent, hold q (by omega), hself]
      exact ⟨hqpos, by omega, hedge⟩
    · rw [hother v hvn] at hv ⊢
      obtain ⟨h1, h2, h3⟩ := h.parent v hv
      rw [hold _ (by omega)]
      exact ⟨h1, h2, h3⟩
  case previous =>
    intro m v hm hv
    rw [hpar]
    have hml := hle m
    have hvl := hle v
    -- no node is numbered after the new one
    have hmn : n ≠ m := by
      rintro rfl
      rw [hself, numberOf_visit hin] at hv
      split at hv <;> omega
    rw [hother m hmn] at hm hv
    by_cases hvn : n = v
    · -- the node numbered just before is below all pushers
      subst hvn
      rw [hself] at hv
      rw [hparent]
      exact hanc (h.last (n, q) List.mem_cons_self m (by omega))
    · rw [hother v hvn] at hv
      exact hanc (h.previous m v hm hv)
  case pushes =>
    intro e he
    obtain ⟨h1, h2, h3⟩ := h.pushes e (List.mem_cons_of_mem _ he)
    rw [hold _ (by omega)]
    exact ⟨h1, h2, h3⟩
  case latest =>
    intro v p hv hp
    have hvn : n ≠ v := by
      rintro rfl
      rw [hself] at hv
      omega
    rw [hother v hvn] at hv
    refine h.latest v p hv ?_
    rw [NatMap.lookup_pair, if_neg (fun hc => hvn hc.symm)]
    exact hp
  case chain => exact (List.pairwise_cons.1 h.chain).2.imp hanc
  case last =>
    intro e he m hm
    -- the new node is the one numbered last
    have hmn : n = m := by
      by_contra hc
      rw [hother m hc] at hm
      have hml := hle m
      have : s'.found.length = s.found.length + 1 := rfl
      omega
    rw [← hmn]
    exact (h.anc_pushers hin h0).2 e he
  case edges =>
    intro v w hv hne he
    have hvn : n ≠ v := fun hc => hne (congrArg some hc.symm)
    rw [hother v hvn] at hv ⊢
    exact h.edges_visit hin h0 hv he

/-- A node on top of the stack that has a number already is passed over. -/
lemma Inv.skip {g : Digraph} {n q : Nat} {s : SpanWalk} {pushed : List (Nat × Nat)}
    (h : Inv g none s ((n, q) :: pushed)) (h0 : s.numberOf n ≠ 0) :
    Inv g none { s with stack := pushed.map (·.1) } pushed := by
  refine ⟨h.number_size, h.parent_size, rfl, h.order, h.entry, h.parent, h.previous,
    fun e he => h.pushes e (List.mem_cons_of_mem _ he), ?_, (List.pairwise_cons.1 h.chain).2,
    fun e he => h.last e (List.mem_cons_of_mem _ he), ?_⟩
  · intro v p hv hp
    refine h.latest v p hv ?_
    rw [NatMap.lookup_pair, if_neg]
    · exact hp
    · rintro rfl
      exact h0 hv
  · intro v w hv hne he
    rcases h.edges v w hv hne he with hw | ⟨hw, hmem⟩
    · exact Or.inl hw
    · rcases List.mem_cons.1 hmem with heq | hmem
      · exact absurd ((Prod.mk.inj heq).1 ▸ hw) h0
      · exact Or.inr ⟨hw, hmem⟩

/-! ## The whole search -/

/-- What one step does, in the words of the invariant. -/
lemma step_eq {g : Digraph} {s s' : SpanWalk} (h : step g s = some s') :
    ∃ n rest, s.stack = n :: rest ∧
      ((s.numberOf n = 0 ∧ s' = (g.succs n).reverse.foldl (push n) (s.visit n rest)) ∨
        (s.numberOf n ≠ 0 ∧ s' = { s with stack := rest })) := by
  unfold step at h
  split at h
  · cases h
  · rename_i n rest hstack
    refine ⟨n, rest, hstack, ?_⟩
    split at h
    · rename_i h0
      exact Or.inl ⟨h0, (Option.some.inj h).symm⟩
    · rename_i h0
      exact Or.inr ⟨h0, (Option.some.inj h).symm⟩

/-- A step keeps the invariant. -/
lemma Inv.step {g : Digraph} (hg : g.Consistent) {s s' : SpanWalk} {pushed : List (Nat × Nat)}
    (h : Inv g none s pushed) (hs : SpanWalk.step g s = some s') :
    ∃ pushed', Inv g none s' pushed' := by
  obtain ⟨n, rest, hstack, hcase⟩ := step_eq hs
  rw [h.stack] at hstack
  cases pushed with
  | nil => cases hstack
  | cons e pushed =>
    obtain ⟨m, q⟩ := e
    obtain ⟨rfl, rfl⟩ := List.cons.inj hstack
    rcases hcase with ⟨h0, rfl⟩ | ⟨h0, rfl⟩
    · have hlt : m < g.size := (h.pushes (m, q) List.mem_cons_self).1
      have hnum := numberOf_visit (s := s) (by rw [h.number_size]; exact hlt)
        (pushed.map (·.1)) m
      rw [if_pos rfl] at hnum
      exact ⟨_, (h.visit_next h0).push_succs hg (by rw [hnum]; rfl)
        (by show 0 < numberOf _ m; rw [hnum]; omega) hlt⟩
    · exact ⟨_, h.skip h0⟩

/-- The edges of a node that are still to be looked at. -/
def openEdges (g : Digraph) (s : SpanWalk) (n : Nat) : Nat :=
  if s.numberOf n = 0 then (g.succs n).length else 0

/-- The nodes on the stack and the edges still to be looked at: every step lowers it. -/
def toDo (g : Digraph) (s : SpanWalk) : Nat :=
  s.stack.length + total ((List.range g.size).map (openEdges g s))

/-- Numbering a node and pushing its successors. -/
lemma toDo_visit {g : Digraph} (hg : g.Consistent) {s : SpanWalk} {n : Nat} (rest : List Nat)
    (hnum : s.number.size = g.size) (hpar : s.parent.size = g.size) (hlt : n < g.size)
    (h0 : s.numberOf n = 0) :
    toDo g ((g.succs n).reverse.foldl (push n) (s.visit n rest)) ≤
      rest.length + total ((List.range g.size).map (openEdges g s)) := by
  have hin : ∀ w ∈ (g.succs n).reverse, w < (s.visit n rest).parent.size := by
    intro w hw
    show w < s.parent.size
    rw [hpar]
    exact hg.succ_lt n hlt w (List.mem_reverse.1 hw)
  obtain ⟨h1, -, -, h4, -⟩ := foldl_push n (g.succs n).reverse (s.visit n rest) hin
    (by simp [visit, hnum, hpar])
  set s' := (g.succs n).reverse.foldl (push n) (s.visit n rest)
  have hnum' : ∀ v, s'.numberOf v = if n = v then s.found.length + 1 else s.numberOf v := by
    intro v
    rw [numberOf, h1]
    exact numberOf_visit (by rw [hnum]; exact hlt) rest v
  -- the edges of `n` move from one part of the measure to the other
  have hsum := total_map_change (f := openEdges g s) (g := openEdges g s')
    (l := List.range g.size) (a := n) List.nodup_range (List.mem_range.2 hlt) (by
      intro v _ hv
      have hsame : s'.numberOf v = s.numberOf v := by
        rw [hnum', if_neg (fun hc => hv hc.symm)]
      rw [openEdges, openEdges, hsame])
  have hn : openEdges g s n = (g.succs n).length := by rw [openEdges, if_pos h0]
  have hn' : openEdges g s' n = 0 := by
    rw [openEdges, hnum', if_pos rfl, if_neg (by omega)]
  have hlen : s'.stack.length ≤ (g.succs n).length + rest.length := by
    have hfilter := List.length_filter_le
      (fun w => decide ((s.visit n rest).numberOf w = 0)) (g.succs n).reverse
    rw [List.length_reverse] at hfilter
    rw [h4, List.length_append, List.length_reverse]
    exact Nat.add_le_add_right hfilter _
  rw [toDo]
  omega

lemma toDo_step {g : Digraph} (hg : g.Consistent) {s s' : SpanWalk} {pushed : List (Nat × Nat)}
    (h : Inv g none s pushed) (hs : SpanWalk.step g s = some s') : toDo g s' < toDo g s := by
  obtain ⟨n, rest, hstack, hcase⟩ := step_eq hs
  have hlen : s.stack.length = rest.length + 1 := by rw [hstack]; rfl
  rcases hcase with ⟨h0, rfl⟩ | ⟨_, rfl⟩
  · have hmem : n ∈ pushed.map (·.1) := by
      rw [← h.stack, hstack]
      exact List.mem_cons_self
    obtain ⟨e, he, rfl⟩ := List.mem_map.1 hmem
    have hle := toDo_visit hg rest h.number_size h.parent_size (h.pushes e he).1 h0
    have hdef : toDo g s =
        s.stack.length + total ((List.range g.size).map (openEdges g s)) := rfl
    omega
  · show rest.length + _ < s.stack.length + _
    have : openEdges g { s with stack := rest } = openEdges g s := rfl
    rw [this]
    omega

/-- The search before its first step. -/
def start (g : Digraph) : SpanWalk :=
  ⟨[g.entry], Array.replicate g.size 0, [], Array.range g.size⟩

lemma numberOf_start (g : Digraph) (v : Nat) : (start g).numberOf v = 0 := getD_replicate g.size v 0

lemma step_start (g : Digraph) : SpanWalk.step g (start g) =
    some ((g.succs g.entry).reverse.foldl (push g.entry) ((start g).visit g.entry [])) := by
  show (if (start g).numberOf g.entry = 0 then _ else _) = _
  rw [if_pos (numberOf_start g _)]
  rfl

/-- The first step numbers the entry and pushes its successors. -/
lemma inv_first {g : Digraph} (hg : g.Consistent) {s : SpanWalk}
    (hs : SpanWalk.step g (start g) = some s) :
    (∃ pushed, Inv g none s pushed) ∧ toDo g s ≤ g.edgeCount := by
  rw [step_start] at hs
  cases hs
  have hone : ((start g).visit g.entry []).numberOf g.entry = 1 := by
    rw [numberOf_visit (by simpa [start] using hg.entry_lt), if_pos rfl]
    rfl
  refine ⟨⟨_, (inv_visit_entry hg).push_succs hg hone ?_ hg.entry_lt⟩, ?_⟩
  · show 0 < ((start g).visit g.entry []).numberOf g.entry
    rw [hone]
    exact Nat.one_pos
  · have hle := toDo_visit hg [] (s := start g) (by simp [start]) (by simp [start]) hg.entry_lt
      (numberOf_start g _)
    have hall : openEdges g (start g) = fun n => (g.succs n).length := by
      funext n
      rw [openEdges, if_pos (numberOf_start g n)]
    rw [hall, List.length_nil, Nat.zero_add] at hle
    exact hle

end SpanWalk

open SpanWalk in
/-- The search ends with an empty stack, and with the invariant. -/
lemma exists_search_end (g : Digraph) (hg : g.Consistent) :
    ∃ s, Inv g none s [] ∧ s = repeatUpTo (SpanWalk.step g) (1 + g.edgeCount) (start g) := by
  have hinv₁ := inv_first hg (step_start g)
  set s₁ := (g.succs g.entry).reverse.foldl (push g.entry) ((start g).visit g.entry [])
  have hrun : repeatUpTo (SpanWalk.step g) (1 + g.edgeCount) (start g) =
      repeatUpTo (SpanWalk.step g) g.edgeCount s₁ := by
    rw [Nat.add_comm, repeatUpTo, step_start g]
  set s := repeatUpTo (SpanWalk.step g) g.edgeCount s₁ with hs
  have hkeep : ∀ s s', (∃ pushed, Inv g none s pushed) → SpanWalk.step g s = some s' →
      ∃ pushed, Inv g none s' pushed := by
    intro s s' h hstep
    obtain ⟨_, h⟩ := h
    exact h.step hg hstep
  have hless : ∀ s s', (∃ pushed, Inv g none s pushed) → SpanWalk.step g s = some s' →
      toDo g s' < toDo g s := by
    intro s s' h hstep
    obtain ⟨_, h⟩ := h
    exact toDo_step hg h hstep
  obtain ⟨pushed, hinv⟩ : ∃ pushed, Inv g none s pushed :=
    repeatUpTo_induct _ hkeep _ _ hinv₁.1
  have hdone : SpanWalk.step g s = none :=
    repeatUpTo_done _ (toDo g) hkeep hless _ _ hinv₁.1 hinv₁.2
  refine ⟨s, ?_, hrun.symm⟩
  have hempty : s.stack = [] := by
    unfold SpanWalk.step at hdone
    split at hdone
    · assumption
    · split at hdone <;> cases hdone
  rw [hinv.stack, List.map_eq_nil_iff] at hempty
  rw [← hempty]
  exact hinv

open SpanWalk in
/-- The search comes to rest. -/
lemma rests_spanWalk {g : Digraph} (hg : g.Consistent) :
    Rests (SpanWalk.step g) (start g)
      (repeatUpTo (SpanWalk.step g) (1 + g.edgeCount) (start g)) := by
  obtain ⟨s, h, hs⟩ := exists_search_end g hg
  refine rests_repeatUpTo ?_
  rw [← hs, SpanWalk.step, show s.stack = [] from h.stack]

/-- The search finds a depth-first spanning tree. -/
theorem spans_spanTree (g : Digraph) (hg : g.Consistent) : g.Spans g.spanTree := by
  obtain ⟨s, h, hs⟩ := exists_search_end g hg
  have heq : g.spanTree = ⟨s.number, s.found.reverse, s.parent⟩ := by
    rw [hs]
    rfl
  have hnum : g.spanTree.numberOf = s.numberOf := by rw [heq]; rfl
  have hpar : g.spanTree.parentOf = s.parentOf := by rw [heq]; rfl
  -- nothing waits on the stack any more
  have hedges : ∀ v w, 0 < s.numberOf v → g.Edge v w →
      0 < s.numberOf w ∧ (s.numberOf v < s.numberOf w → Anc s.numberOf s.parentOf v w) := by
    intro v w hv he
    rcases h.edges v w hv (by simp) he with hw | ⟨_, hmem⟩
    · exact hw
    · cases hmem
  have hreach : ∀ n, 0 < s.numberOf n → g.Reached n := by
    intro n hn
    -- parents have smaller numbers, so the way back ends at the entry
    induction hk : s.numberOf n using Nat.strongRecOn generalizing n with
    | _ k ih =>
      by_cases h1 : 1 < s.numberOf n
      · obtain ⟨hp, hlt, he⟩ := h.parent n h1
        exact (ih _ (by omega) _ hp rfl).step he
      · have hentry : s.numberOf n = s.numberOf g.entry := by
          rw [h.entry]
          omega
        rw [SpanWalk.order_inj h.order hn hentry]
        exact Reaches.init
  refine ⟨?_, ?_, ?_, ?_, ?_, ?_⟩
  · intro n
    rw [hnum]
    refine ⟨hreach n, fun hn => ?_⟩
    exact hn.induct (P := (0 < s.numberOf ·)) (by rw [h.entry]; omega)
      fun a b _ ha hab => (hedges a b ha hab).1
  · rw [hnum]
    exact h.entry
  · rw [hnum, heq]
    exact h.order
  · rw [hnum, hpar]
    exact h.parent
  · intro v w hv he
    rw [hnum] at hv ⊢
    rw [hpar]
    exact (hedges v w hv he).2
  · rw [hnum, hpar]
    exact h.previous

end Digraph

end SsaBackend
