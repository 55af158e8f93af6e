import Mathlib.Tactic.Common
import SsaBackend.Graph.Dominators
import SsaBackend.Proofs.Routes

/-!
# Depth-first spanning trees

What makes a numbering with parents a depth-first spanning tree of a graph (`Spans`), and
what follows from it. Two facts carry everything else: an edge to a larger number leads down
the tree, and the parent of a node lies above the node numbered just before it. The second
one says that the numbers of a subtree have no gaps (`Spans.anc_of_between`), so that of two
nodes above a third the one with the smaller number is above the other (`Spans.anc_of_le`).
-/

namespace SsaBackend

namespace Digraph

/-- An edge of the graph. -/
def Edge (g : Digraph) (m n : Nat) : Prop := n ∈ g.succs m

/-- Whether the entry leads to a node. -/
abbrev Reached (g : Digraph) (n : Nat) : Prop := Reaches g.Edge g.entry n

/-- Whether every path from the entry to `n` passes `d`. -/
abbrev Dom (g : Digraph) (d n : Nat) : Prop := Dominates g.Edge g.entry d n

/-- `a` is `n`, or is met on the way from `n` over parents to the node numbered 1. -/
inductive Anc (num parent : Nat → Nat) (a : Nat) : Nat → Prop
  | refl : Anc num parent a a
  | up {n : Nat} (hn : 1 < num n) (h : Anc num parent a (parent n)) : Anc num parent a n

lemma Anc.trans {num parent : Nat → Nat} {a b c : Nat} (hab : Anc num parent a b)
    (hbc : Anc num parent b c) : Anc num parent a c := by
  induction hbc with
  | refl => exact hab
  | up hn _ ih => exact .up hn ih

/-- Ancestors do not change with the parents of nodes that have no number yet. -/
lemma Anc.congr {num parent num' parent' : Nat → Nat}
    (hn : ∀ n, num n ≠ 0 → num' n = num n ∧ parent' n = parent n) {a b : Nat}
    (h : Anc num parent a b) : Anc num' parent' a b := by
  induction h with
  | refl => exact .refl
  | @up n h1 _ ih =>
    obtain ⟨e1, e2⟩ := hn n (by omega)
    exact .up (by omega) (e2 ▸ ih)

/-- A depth-first spanning tree of what the entry reaches. -/
structure Spans (g : Digraph) (t : SpanTree) : Prop where
  /-- The numbered nodes are those the entry reaches. -/
  numbered : ∀ n, 0 < t.numberOf n ↔ g.Reached n
  entry : t.numberOf g.entry = 1
  /-- The nodes stand in the order of their numbers. -/
  order : ∀ k n, t.order[k]? = some n ↔ t.numberOf n = k + 1
  /-- A tree edge is an edge to a larger number. -/
  parent : ∀ n, 1 < t.numberOf n →
    0 < t.numberOf (t.parentOf n) ∧ t.numberOf (t.parentOf n) < t.numberOf n ∧
      g.Edge (t.parentOf n) n
  /-- Edges to a larger number lead down the tree. -/
  forward : ∀ v w, 0 < t.numberOf v → g.Edge v w → t.numberOf v < t.numberOf w →
    Anc t.numberOf t.parentOf v w
  /-- The parent of a node is above the node numbered just before it. -/
  previous : ∀ m n, 0 < t.numberOf m → t.numberOf n = t.numberOf m + 1 →
    Anc t.numberOf t.parentOf (t.parentOf n) m

namespace Spans

variable {g : Digraph} {t : SpanTree}

/-! ## Numbers -/

/-- Two nodes with one number are one node. -/
lemma eq_of_number (h : g.Spans t) {m n : Nat} (hm : 0 < t.numberOf m)
    (he : t.numberOf m = t.numberOf n) : m = n := by
  have h1 := (h.order (t.numberOf m - 1) m).2 (by omega)
  have h2 := (h.order (t.numberOf m - 1) n).2 (by omega)
  rw [h1] at h2
  exact Option.some.inj h2

/-- Only the entry has the number 1. -/
lemma eq_entry (h : g.Spans t) {n : Nat} (hn : t.numberOf n = 1) : n = g.entry :=
  h.eq_of_number (by omega) (by rw [hn, h.entry])

/-- Every number below that of a node is the number of a node. -/
lemma exists_number (h : g.Spans t) {n k : Nat} (hk : 0 < k) (hkn : k ≤ t.numberOf n) :
    ∃ m, t.numberOf m = k := by
  have h1 := (h.order (t.numberOf n - 1) n).2 (by omega)
  have hlen : t.numberOf n - 1 < t.order.length := (List.getElem?_eq_some_iff.1 h1).1
  have hlt : k - 1 < t.order.length := by omega
  refine ⟨t.order[k - 1], ?_⟩
  have h2 := (h.order (k - 1) t.order[k - 1]).1 (List.getElem?_eq_getElem hlt)
  omega

/-- An edge from a numbered node leads to a numbered one. -/
lemma pos_of_edge (h : g.Spans t) {v w : Nat} (hv : 0 < t.numberOf v) (he : g.Edge v w) :
    0 < t.numberOf w :=
  (h.numbered w).2 (((h.numbered v).1 hv).step he)

/-! ## Ancestors -/

/-- An ancestor has a number, and none larger. -/
lemma anc_le (h : g.Spans t) {a n : Nat} (ha : Anc t.numberOf t.parentOf a n)
    (hn : 0 < t.numberOf n) : 0 < t.numberOf a ∧ t.numberOf a ≤ t.numberOf n := by
  induction ha with
  | refl => exact ⟨hn, Nat.le_refl _⟩
  | @up n h1 _ ih =>
    obtain ⟨hp, hlt, _⟩ := h.parent n h1
    obtain ⟨hpos, hle⟩ := ih hp
    exact ⟨hpos, by omega⟩

/-- A proper ancestor has a smaller number. -/
lemma anc_lt (h : g.Spans t) {a n : Nat} (ha : Anc t.numberOf t.parentOf a n)
    (hn : 0 < t.numberOf n) (hne : a ≠ n) : t.numberOf a < t.numberOf n := by
  obtain ⟨hpos, hle⟩ := h.anc_le ha hn
  rcases Nat.lt_or_eq_of_le hle with hlt | heq
  · exact hlt
  · exact absurd (h.eq_of_number hpos heq) hne

/-- A subtree has no gaps: what is numbered between a node and one below it is below it. -/
lemma anc_of_between (h : g.Spans t) {a b c : Nat} (hac : Anc t.numberOf t.parentOf a c)
    (hc : 0 < t.numberOf c) (hab : t.numberOf a ≤ t.numberOf b)
    (hbc : t.numberOf b ≤ t.numberOf c) : Anc t.numberOf t.parentOf a b := by
  -- induction on the distance from `b` to `c`: go to the node numbered just before `c`
  induction hk : t.numberOf c - t.numberOf b generalizing c with
  | zero =>
    have heq : t.numberOf b = t.numberOf c := by omega
    rw [h.eq_of_number (by omega) heq]
    exact hac
  | succ k ih =>
    have hpos := (h.anc_le hac hc).1
    obtain ⟨m, hm⟩ := h.exists_number (n := c) (k := t.numberOf c - 1) (by omega) (by omega)
    cases hac with
    | refl => omega
    | up h1 hp =>
      have hprev := h.previous m c (by omega) (by omega)
      exact ih (hp.trans hprev) (by omega) (by omega) (by omega)

/-- Of two nodes above a third, the one with the smaller number is above the other. -/
lemma anc_of_le (h : g.Spans t) {a b n : Nat} (ha : Anc t.numberOf t.parentOf a n)
    (hb : Anc t.numberOf t.parentOf b n) (hn : 0 < t.numberOf n)
    (hab : t.numberOf a ≤ t.numberOf b) : Anc t.numberOf t.parentOf a b :=
  h.anc_of_between ha hn hab (h.anc_le hb hn).2

/-! ## Dominators and the tree -/

/-- The dominators of a node lie above it in the tree. -/
lemma anc_of_dom (h : g.Spans t) {d n : Nat} (hn : 0 < t.numberOf n) (hd : g.Dom d n) :
    Anc t.numberOf t.parentOf d n := by
  induction hk : t.numberOf n using Nat.strongRecOn generalizing n with
  | _ k ih =>
    by_cases hne : d = n
    · rw [hne]
      exact .refl
    · by_cases h1 : 1 < t.numberOf n
      · obtain ⟨hp, hlt, he⟩ := h.parent n h1
        exact .up h1 (ih _ (by omega) hp (hd.of_edge hne he) rfl)
      · rw [h.eq_entry (n := n) (by omega)] at hd hne
        exact absurd hd.eq_start hne

/-- A dominator of a node below `a` that is numbered before `a` dominates `a`: otherwise a
path around it to `a` could go on down the tree. -/
lemma dom_of_anc (h : g.Spans t) {z a n : Nat} (ha : Anc t.numberOf t.parentOf a n)
    (hn : 0 < t.numberOf n) (hz : t.numberOf z < t.numberOf a) (hd : g.Dom z n) :
    g.Dom z a := by
  induction ha with
  | refl => exact hd
  | @up n h1 hp ih =>
    obtain ⟨hpos, hlt, he⟩ := h.parent n h1
    have hle := (h.anc_le hp hpos).2
    have hne : z ≠ n := by
      rintro rfl
      omega
    exact ih hpos (hd.of_edge hne he)

end Spans

end Digraph

end SsaBackend
