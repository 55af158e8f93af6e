import Mathlib.Data.List.Nodup
import Mathlib.Data.List.Perm.Subperm
import SsaBackend.Proofs.Graph.Semidominator
import SsaBackend.Proofs.Graph.SpanWalk

/-!
# The forest of nodes already dealt with

Nodes are dealt with from the last number to the first, and a node that has been dealt with
is linked to its parent. `Linked` says what the tables of the forest then mean: the next node
towards the root may skip some of the tree, and the best node stands for everything that is
skipped. Shortening a way keeps that (`Linked.shortcut`), and once the way from a node is as
short as can be, its best node has the least semidominator of all the linked nodes above it
(`Linked.compress`).
-/

namespace SsaBackend

namespace Digraph

variable {g : Digraph} {t : SpanTree}

/-- No node stands in the order twice. -/
lemma Spans.order_nodup (h : g.Spans t) : t.order.Nodup := by
  rw [List.nodup_iff_getElem?_ne_getElem?]
  intro i j hij hj heq
  have hm := List.getElem?_eq_getElem hj
  have h1 := (h.order j _).1 hm
  have h2 := (h.order i _).1 (heq.trans hm)
  omega

/-- No number is larger than the graph. -/
lemma Spans.number_le_size (h : g.Spans t) (hg : g.Consistent) (n : Nat) :
    t.numberOf n ≤ g.size := by
  have hsub : t.order ⊆ List.range g.size := by
    intro m hm
    obtain ⟨k, hk⟩ := List.mem_iff_getElem?.1 hm
    have hnum := (h.order k m).1 hk
    exact List.mem_range.2 (hg.reached_lt ((h.numbered m).1 (by omega)))
  have hlen := (h.order_nodup.subperm hsub).length_le
  rw [List.length_range] at hlen
  by_contra hc
  have hk := (h.order (t.numberOf n - 1) n).2 (by omega)
  have := (List.getElem?_eq_some_iff.1 hk).1
  omega

namespace SemiForest

/-- The tables have a place for every node. -/
structure Sized (g : Digraph) (s : SemiForest) : Prop where
  semi : s.semi.size = g.size
  ancestor : s.ancestor.size = g.size
  best : s.best.size = g.size
  bucket : s.bucket.size = g.size
  idom : s.idom.size = g.size

/-- What the forest means when the nodes numbered above `i` are linked. The other nodes are
roots, and stand for themselves. -/
structure Linked (t : SpanTree) (i : Nat) (s : SemiForest) : Prop where
  root : ∀ v, 0 < t.numberOf v → t.numberOf v ≤ i → s.ancestorOf v = none ∧ s.bestOf v = v
  /-- A linked node knows a node above it, all that is skipped between the two is linked, and
  its best node is one of these with the least semidominator. -/
  node : ∀ v, i < t.numberOf v → ∃ a, s.ancestorOf v = some a ∧
    Anc t.numberOf t.parentOf a v ∧ a ≠ v ∧
    (∀ u, Anc t.numberOf t.parentOf u v → t.numberOf a < t.numberOf u → i < t.numberOf u) ∧
    Anc t.numberOf t.parentOf (s.bestOf v) v ∧ t.numberOf a < t.numberOf (s.bestOf v) ∧
    ∀ u, Anc t.numberOf t.parentOf u v → t.numberOf a < t.numberOf u →
      s.semiNumber t (s.bestOf v) ≤ s.semiNumber t u

/-- Two states that differ in their forest only. -/
structure SameTables (s s' : SemiForest) : Prop where
  semi : s'.semi = s.semi
  bucket : s'.bucket = s.bucket
  idom : s'.idom = s.idom

lemma SameTables.refl (s : SemiForest) : SameTables s s := ⟨rfl, rfl, rfl⟩

lemma SameTables.trans {s s' s'' : SemiForest} (h : SameTables s s') (h' : SameTables s' s'') :
    SameTables s s'' :=
  ⟨h'.semi.trans h.semi, h'.bucket.trans h.bucket, h'.idom.trans h.idom⟩

lemma SameTables.semiOf {s s' : SemiForest} (h : SameTables s s') (n : Nat) :
    s'.semiOf n = s.semiOf n := by
  unfold SemiForest.semiOf
  rw [h.semi]

/-! ## Shortening one step -/

lemma shortcut_same (t : SpanTree) (s : SemiForest) (n : Nat) : SameTables s (s.shortcut t n) := by
  unfold shortcut
  split <;> exact ⟨rfl, rfl, rfl⟩

lemma shortcut_sized {s : SemiForest} (h : Sized g s) (t : SpanTree) (n : Nat) :
    Sized g (s.shortcut t n) := by
  unfold shortcut
  split
  · exact h
  · refine ⟨h.semi, ?_, ?_, h.bucket, h.idom⟩
    · simpa using h.ancestor
    · show (if _ then _ else _ : Array Nat).size = _
      split
      · simpa using h.best
      · exact h.best

/-- Only the node itself is changed. -/
lemma shortcut_ne (t : SpanTree) (s : SemiForest) {n v : Nat} (hv : n ≠ v) :
    (s.shortcut t n).ancestorOf v = s.ancestorOf v ∧ (s.shortcut t n).bestOf v = s.bestOf v := by
  unfold shortcut
  split
  · exact ⟨rfl, rfl⟩
  · rename_i a ha
    constructor
    · show (s.ancestor.setIfInBounds n (s.ancestorOf a)).getD v none = _
      rw [getD_setIfInBounds, if_neg (fun hc => hv hc.1)]
      rfl
    · show (if _ then _ else _ : Array Nat).getD v v = _
      split
      · rw [getD_setIfInBounds, if_neg (fun hc => hv hc.1)]
        rfl
      · rfl

/-- The node skips its ancestor, and takes over the better of the two best nodes. -/
lemma shortcut_self {s : SemiForest} (hs : Sized g s) (t : SpanTree) {n a : Nat}
    (hn : n < g.size) (ha : s.ancestorOf n = some a) :
    (s.shortcut t n).ancestorOf n = s.ancestorOf a ∧
      (s.shortcut t n).bestOf n =
        if s.semiNumber t (s.bestOf a) < s.semiNumber t (s.bestOf n) then s.bestOf a
        else s.bestOf n := by
  unfold shortcut
  rw [ha]
  constructor
  · show (s.ancestor.setIfInBounds n (s.ancestorOf a)).getD n none = _
    rw [getD_setIfInBounds, if_pos ⟨rfl, by rw [hs.ancestor]; exact hn⟩]
  · show (if _ then _ else _ : Array Nat).getD n n = _
    split
    · rw [getD_setIfInBounds, if_pos ⟨rfl, by rw [hs.best]; exact hn⟩]
    · rfl

lemma semiNumber_congr {s s' : SemiForest} (h : SameTables s s') (t : SpanTree) (n : Nat) :
    s'.semiNumber t n = s.semiNumber t n := by
  unfold semiNumber
  rw [h.semiOf]

/-- Letting a node skip a linked ancestor keeps the meaning of the forest. -/
lemma Linked.shortcut (hg : g.Consistent) (h : g.Spans t) {i n a : Nat} {s : SemiForest}
    (hs : Sized g s) (hl : Linked t i s) (hn : i < t.numberOf n) (ha : s.ancestorOf n = some a)
    (hia : i < t.numberOf a) : Linked t i (s.shortcut t n) := by
  have hnpos : 0 < t.numberOf n := by omega
  have hlt : n < g.size := hg.reached_lt ((h.numbered n).1 hnpos)
  have hsemi := semiNumber_congr (shortcut_same t s n) t
  obtain ⟨hanc, hbest⟩ := shortcut_self hs t hlt ha
  constructor
  · intro v hv hvi
    have hne : n ≠ v := by
      rintro rfl
      omega
    obtain ⟨h1, h2⟩ := shortcut_ne t s hne
    rw [h1, h2]
    exact hl.root v hv hvi
  · intro v hv
    simp only [hsemi]
    by_cases hne : n = v
    · subst hne
      obtain ⟨a', ha', hna, hne', hlink, hb, hab, hmin⟩ := hl.node n hn
      rw [ha] at ha'
      obtain rfl : a = a' := Option.some.inj ha'
      obtain ⟨b, hb', hba, hbne, hblink, hbb, hbab, hbmin⟩ := hl.node a hia
      have hlta : t.numberOf b < t.numberOf a := h.anc_lt hba (by omega) hbne
      have hltn : t.numberOf a < t.numberOf n := h.anc_lt hna hnpos hne'
      -- what lies between `b` and the node is below `a`, or above it
      have hsplit : ∀ u, Anc t.numberOf t.parentOf u n → t.numberOf b < t.numberOf u →
          t.numberOf a < t.numberOf u ∨ Anc t.numberOf t.parentOf u a := by
        intro u hu _
        rcases Nat.lt_or_ge (t.numberOf a) (t.numberOf u) with hlt' | hge
        · exact Or.inl hlt'
        · exact Or.inr (h.anc_of_le hu hna hnpos hge)
      refine ⟨b, by rw [hanc, hb'], hba.trans hna, ?_, ?_, ?_⟩
      · rintro rfl
        omega
      · intro u hu hbu
        rcases hsplit u hu hbu with hau | hua
        · exact hlink u hu hau
        · exact hblink u hua hbu
      · rw [hbest]
        split
        · rename_i hbetter
          refine ⟨hbb.trans hna, hbab, ?_⟩
          intro u hu hbu
          rcases hsplit u hu hbu with hau | hua
          · have := hmin u hu hau
            omega
          · exact hbmin u hua hbu
        · rename_i hbetter
          refine ⟨hb, by omega, ?_⟩
          intro u hu hbu
          rcases hsplit u hu hbu with hau | hua
          · exact hmin u hu hau
          · have := hbmin u hua hbu
            omega
    · obtain ⟨h1, h2⟩ := shortcut_ne t s hne
      rw [h1, h2]
      exact hl.node v hv

/-! ## Shortening a whole way -/

/-- After shortening the way from `v`, bottom last, the next node from `v` is a root. Nodes
numbered after `v` have not been touched. -/
lemma Linked.foldr_shortcut (hg : g.Consistent) (h : g.Spans t) {i : Nat} {s : SemiForest}
    (hs : Sized g s) (hl : Linked t i s) (bound v : Nat) (hv : 0 < t.numberOf v)
    (hb : t.numberOf v ≤ bound) :
    let s' := (s.pathFrom bound v).foldr (fun m s => s.shortcut t m) s
    Sized g s' ∧ Linked t i s' ∧ SameTables s s' ∧
      (∀ a, s'.ancestorOf v = some a → t.numberOf a ≤ i) ∧
      ∀ n, t.numberOf v < t.numberOf n → s'.ancestorOf n = s.ancestorOf n := by
  induction bound generalizing v with
  | zero => omega
  | succ bound ih =>
    rw [pathFrom]
    cases hav : s.ancestorOf v with
    | none =>
      refine ⟨hs, hl, .refl s, ?_, fun _ _ => rfl⟩
      intro a ha
      rw [List.foldr_nil, hav] at ha
      cases ha
    | some a =>
      -- a node with an ancestor is linked
      have hlinked : ∀ x y, 0 < t.numberOf x → s.ancestorOf x = some y → i < t.numberOf x := by
        intro x y hx hxy
        by_contra hc
        rw [(hl.root x hx (by omega)).1] at hxy
        cases hxy
      have hvi := hlinked v a hv hav
      obtain ⟨a', ha', hanc, hne, -⟩ := hl.node v hvi
      rw [hav] at ha'
      obtain rfl : a = a' := Option.some.inj ha'
      have hapos := (h.anc_le hanc hv).1
      have halt := h.anc_lt hanc hv hne
      dsimp only
      cases haa : s.ancestorOf a with
      | none =>
        refine ⟨hs, hl, .refl s, ?_, fun _ _ => rfl⟩
        intro b hb'
        rw [if_neg (by simp), List.foldr_nil, hav] at hb'
        obtain rfl : a = b := Option.some.inj hb'
        by_contra hc
        obtain ⟨c, hc', -⟩ := hl.node a (by omega)
        rw [haa] at hc'
        cases hc'
      | some b =>
        have hai := hlinked a b hapos haa
        obtain ⟨hs', hl', hsame, hroot, hold⟩ := ih a hapos (by omega)
        rw [if_pos (by simp), List.foldr_cons]
        set s' := (s.pathFrom bound a).foldr (fun m s => s.shortcut t m) s
        have hav' : s'.ancestorOf v = some a := by rw [hold v halt, hav]
        refine ⟨shortcut_sized hs' t v, hl'.shortcut hg h hs' hvi hav' hai,
          hsame.trans (shortcut_same t s' v), ?_, ?_⟩
        · intro c hc
          have hlt : v < g.size := hg.reached_lt ((h.numbered v).1 hv)
          rw [(shortcut_self hs' t hlt hav').1] at hc
          exact hroot c hc
        · intro n hn
          have hvn : v ≠ n := by
            rintro rfl
            omega
          rw [(shortcut_ne t s' hvn).1]
          exact hold n (by omega)

/-- Once the way from a node is shortened, its best node has the least semidominator of the
linked nodes above it; a root is its own best node. -/
lemma Linked.compress (hg : g.Consistent) (h : g.Spans t) {i : Nat} {s : SemiForest}
    (hs : Sized g s) (hl : Linked t i s) {v : Nat} (hv : 0 < t.numberOf v) :
    Sized g (s.compress t v) ∧ Linked t i (s.compress t v) ∧ SameTables s (s.compress t v) ∧
      (t.numberOf v ≤ i → (s.compress t v).bestOf v = v) ∧
      (i < t.numberOf v →
        Anc t.numberOf t.parentOf ((s.compress t v).bestOf v) v ∧
        i < t.numberOf ((s.compress t v).bestOf v) ∧
        ∀ u, Anc t.numberOf t.parentOf u v → i < t.numberOf u →
          s.semiNumber t ((s.compress t v).bestOf v) ≤ s.semiNumber t u) := by
  have hbound : t.numberOf v ≤ s.ancestor.size := by
    rw [hs.ancestor]
    exact h.number_le_size hg v
  obtain ⟨hs', hl', hsame, hroot, -⟩ := hl.foldr_shortcut hg h hs _ v hv hbound
  refine ⟨hs', hl', hsame, fun hvi => (hl'.root v hv hvi).2, fun hvi => ?_⟩
  obtain ⟨a, ha, -, -, hlink, hb, hab, hmin⟩ := hl'.node v hvi
  have hai := hroot a ha
  refine ⟨hb, hlink _ hb hab, fun u hu hiu => ?_⟩
  have hle := hmin u hu (by omega)
  simp only [semiNumber_congr hsame t] at hle
  exact hle

end SemiForest

end Digraph

end SsaBackend
