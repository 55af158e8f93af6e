import SsaBackend.Proofs.BitSet
import SsaBackend.Proofs.Graph.Process
import SsaBackend.Proofs.Graph.Reachability

/-!
# The dominator tree is the tree of immediate dominators

The passes of the algorithm put together. The first one leaves for every node its immediate
dominator or an earlier node with the same one; the second one, from the first node to the
last, replaces the latter by the former. What the tree answers is then read off: dominance is
met on the way up, and children are the nodes immediately dominated.

Main statement: `dominators_computes_dominance`.
-/

namespace SsaBackend

namespace Digraph

variable {g : Digraph} {t : SpanTree}

namespace SemiForest

/-! ## From the last node to the first -/

lemma progress_init (hg : g.Consistent) (h : g.Spans t) (σ : Nat → Nat) :
    Progress g t σ g.size (.init g.size) := by
  have hle := h.number_le_size hg
  have hidom : ∀ v, (SemiForest.init g.size).idomOf v = none := fun v =>
    getD_replicate g.size v none
  have hwait : ∀ b, (SemiForest.init g.size).waitingAt b = [] := fun b =>
    getD_replicate g.size b []
  refine ⟨by constructor <;> simp [init], ⟨?_, ?_⟩, ?_, ?_, ?_, ?_, ?_⟩
  · exact fun v _ _ => ⟨getD_replicate g.size v none, getD_range g.size v⟩
  · intro v hv
    have := hle v
    omega
  · intro u hu
    have := hle u
    omega
  · exact fun u _ _ => getD_range g.size u
  · intro b v hv
    rw [hwait] at hv
    cases hv
  · intro v hv
    have := hle v
    omega
  · intro v d hd
    rw [hidom] at hd
    cases hd

/-- Numbers that no node has make no difference. -/
lemma Progress.of_le {σ : Nat → Nat} {i j : Nat} {s : SemiForest} (hp : Progress g t σ i s)
    (hij : j ≤ i) (hle : ∀ v, t.numberOf v ≤ j) : Progress g t σ j s := by
  refine ⟨hp.sized, ⟨?_, ?_⟩, ?_, ?_, ?_, ?_, hp.sound⟩
  · exact fun v hv hvj => hp.linked.root v hv (by omega)
  · intro v hv
    have := hle v
    omega
  · intro u hu
    have := hle u
    omega
  · exact fun u hu huj => hp.earlier u hu (by omega)
  · intro b v hv
    have h1 := (hp.waits b v hv).1
    have h2 := hle v
    omega
  · intro v hv
    have := hle v
    omega

/-- Dealing with nodes that are numbered from `i` downwards. -/
lemma Progress.foldl_process (hg : g.Consistent) (h : g.Spans t) {σ : Nat → Nat}
    (hσ : ∀ w, 1 < t.numberOf w → g.IsSemi t (σ w) w) (l : List Nat) {i : Nat} {s : SemiForest}
    (hl : ∀ k w, l[k]? = some w → 1 < t.numberOf w ∧ t.numberOf w + k = i)
    (hp : Progress g t σ i s) :
    Progress g t σ (i - l.length) (l.foldl (SemiForest.process g t) s) := by
  induction l generalizing i s with
  | nil => exact hp
  | cons w l ih =>
    obtain ⟨hw, hwi⟩ := hl 0 w rfl
    rw [List.foldl_cons, List.length_cons, show i - (l.length + 1) = (i - 1) - l.length by omega]
    refine ih ?_ ?_
    · intro k v hk
      obtain ⟨h1, h2⟩ := hl (k + 1) v hk
      exact ⟨h1, by omega⟩
    · have hi : i = t.numberOf w := by omega
      subst hi
      exact hp.process hg h hσ hw

/-! ## From the first node to the last -/

/-- What is known once the nodes numbered up to `j` have been settled. -/
structure Settled (g : Digraph) (t : SpanTree) (σ : Nat → Nat) (j : Nat) (s : SemiForest) :
    Prop where
  size : s.idom.size = g.size
  semi : ∀ v, 1 < t.numberOf v → s.semiOf v = σ v
  /-- Nodes out of reach, and the entry, have no entry in the table. -/
  absent : ∀ v, t.numberOf v ≤ 1 → s.idomOf v = none
  found : ∀ v, 1 < t.numberOf v → ∃ d, s.idomOf v = some d ∧
    (t.numberOf v ≤ j → g.IsImmediate d v) ∧ (j < t.numberOf v → Settles g t σ v d)

/-- When all nodes have been dealt with, nobody waits any more. -/
lemma Progress.settled (h : g.Spans t) {σ : Nat → Nat}
    (hσ : ∀ w, 1 < t.numberOf w → g.IsSemi t (σ w) w) {s : SemiForest}
    (hp : Progress g t σ 1 s) : Settled g t σ 1 s := by
  refine ⟨hp.sized.idom, hp.later, ?_, ?_⟩
  · intro v hv
    cases hd : s.idomOf v with
    | none => rfl
    | some d =>
      have := (hp.sound v d hd).1
      omega
  · intro v hv
    rcases hp.known v hv with hwait | hsome
    · -- the child of the semidominator above `v` has been dealt with
      obtain ⟨-, -, hway⟩ := hp.waits _ v hwait
      obtain ⟨hlt, hanc⟩ := h.semi_lt (hσ v hv) hv
      obtain ⟨x, hx, hxv, hxp⟩ := hanc.exists_child (by
        intro hc
        rw [hc] at hlt
        omega)
      have := hway x hx hxv hxp
      omega
    · obtain ⟨d, hd⟩ := Option.isSome_iff_exists.1 hsome
      exact ⟨d, hd, fun hle => by omega, fun _ => hp.sound v d hd⟩

/-- Settling the next node: the one it refers to was settled before. -/
lemma Settled.settle (hg : g.Consistent) (h : g.Spans t) {σ : Nat → Nat} {w : Nat}
    {s : SemiForest} (hw : 1 < t.numberOf w) (hs : Settled g t σ (t.numberOf w - 1) s) :
    Settled g t σ (t.numberOf w) (s.settle w) := by
  obtain ⟨d, hd, -, hset⟩ := hs.found w hw
  obtain ⟨-, hset⟩ := hset (by omega)
  have hlt : w < s.idom.size := by
    rw [hs.size]
    exact hg.reached_lt ((h.numbered w).1 (by omega))
  -- a node other than `w` is settled afterwards if it was before
  have hothers : ∀ s' : SemiForest, (∀ v, v ≠ w → s'.idomOf v = s.idomOf v) → ∀ v,
      v ≠ w → 1 < t.numberOf v → ∃ d, s'.idomOf v = some d ∧
        (t.numberOf v ≤ t.numberOf w → g.IsImmediate d v) ∧
        (t.numberOf w < t.numberOf v → Settles g t σ v d) := by
    intro s' hs' v hv hv1
    obtain ⟨e, he, h1, h2⟩ := hs.found v hv1
    refine ⟨e, (hs' v hv).trans he, fun hle => h1 ?_, fun hlt => h2 (by omega)⟩
    have hneq : t.numberOf v ≠ t.numberOf w := fun hc => hv (h.eq_of_number (by omega) hc)
    omega
  have hdw : s.idom.getD w none = some d := hd
  unfold SemiForest.settle
  rw [hdw]
  dsimp only
  rw [hs.semi w hw]
  split
  · rename_i heq
    refine ⟨hs.size, hs.semi, hs.absent, fun v hv => ?_⟩
    by_cases hvw : v = w
    · subst hvw
      rcases hset with ⟨-, himm⟩ | ⟨hne, -⟩
      · exact ⟨d, hd, fun _ => himm, fun hc => by omega⟩
      · exact absurd heq hne
    · exact hothers s (fun _ _ => rfl) v hvw hv
  · rename_i hne
    have hself : (s.idom.setIfInBounds w (s.idom.getD d none)).getD w none = s.idomOf d := by
      rw [getD_setIfInBounds, if_pos ⟨rfl, hlt⟩]
      rfl
    have hother : ∀ v, v ≠ w →
        (s.idom.setIfInBounds w (s.idom.getD d none)).getD v none = s.idomOf v := by
      intro v hv
      rw [getD_setIfInBounds, if_neg (fun hc => hv hc.1.symm)]
      rfl
    refine ⟨by simpa using hs.size, hs.semi, ?_, fun v hv => ?_⟩
    · intro v hv
      have hvw : v ≠ w := by
        rintro rfl
        omega
      exact (hother v hvw).trans (hs.absent v hv)
    · by_cases hvw : v = w
      · subst hvw
        rcases hset with ⟨heq, -⟩ | ⟨-, hd1, hdlt, himm⟩
        · exact absurd heq hne
        · obtain ⟨e, he, hde, -⟩ := hs.found d hd1
          exact ⟨e, hself.trans he, fun _ => himm e (hde (by omega)), fun hc => by omega⟩
      · exact hothers { s with idom := s.idom.setIfInBounds w (s.idom.getD d none) } hother v hvw hv

/-- Settling one node after another. -/
lemma Settled.foldl_settle (hg : g.Consistent) (h : g.Spans t) {σ : Nat → Nat} (l : List Nat)
    {j : Nat} {s : SemiForest}
    (hl : ∀ k w, l[k]? = some w → 1 < t.numberOf w ∧ t.numberOf w = j + k + 1)
    (hs : Settled g t σ j s) : Settled g t σ (j + l.length) (l.foldl SemiForest.settle s) := by
  induction l generalizing j s with
  | nil => exact hs
  | cons w l ih =>
    obtain ⟨hw, hwj⟩ := hl 0 w rfl
    rw [List.foldl_cons, List.length_cons, show j + (l.length + 1) = (j + 1) + l.length by omega]
    refine ih ?_ ?_
    · intro k v hk
      obtain ⟨h1, h2⟩ := hl (k + 1) v hk
      exact ⟨h1, by omega⟩
    · have hj : j = t.numberOf w - 1 := by omega
      subst hj
      rw [show t.numberOf w - 1 + 1 = t.numberOf w by omega]
      exact hs.settle hg h hw

end SemiForest

/-! ## The table of immediate dominators -/

/-- A node that is reached has one immediate dominator. -/
lemma IsImmediate.unique {d e v : Nat} (hd : g.IsImmediate d v) (he : g.IsImmediate e v)
    (hv : g.Reached v) : d = e := by
  have hed := hd.2 e he.1
  have hde := he.2 d hd.1
  exact hde.antisymm hed (hd.1.2.reaches hv)

lemma Spans.number_le_length (h : g.Spans t) (v : Nat) : t.numberOf v ≤ t.order.length := by
  by_contra hc
  have hk := (h.order (t.numberOf v - 1) v).2 (by omega)
  have := (List.getElem?_eq_some_iff.1 hk).1
  omega

section

variable (h : g.Spans t)

include h

lemma Spans.length_pos : 0 < t.order.length := by
  have := h.number_le_length g.entry
  have := h.entry
  omega

lemma Spans.length_le_size (hg : g.Consistent) : t.order.length ≤ g.size := by
  have hpos := h.length_pos
  have hk := List.getElem?_eq_getElem (show t.order.length - 1 < t.order.length by omega)
  have := (h.order _ _).1 hk
  have := h.number_le_size hg (t.order[t.order.length - 1])
  omega

/-- The inner nodes stand in the order of their numbers, which begin with 2. -/
lemma Spans.inner (k w : Nat) (hk : (t.order.drop 1)[k]? = some w) :
    1 < t.numberOf w ∧ t.numberOf w = 1 + k + 1 := by
  rw [List.getElem?_drop] at hk
  have := (h.order (1 + k) w).1 hk
  omega

lemma Spans.inner_reverse (k w : Nat) (hk : (t.order.drop 1).reverse[k]? = some w) :
    1 < t.numberOf w ∧ t.numberOf w + k = t.order.length := by
  have hlt := (List.getElem?_eq_some_iff.1 hk).1
  rw [List.length_reverse] at hlt
  rw [List.getElem?_reverse hlt] at hk
  have := h.inner _ w hk
  have hlen : (t.order.drop 1).length = t.order.length - 1 := List.length_drop
  omega

open SemiForest in
/-- The pass from the last node to the first deals with all nodes. -/
lemma Spans.dealt (hg : g.Consistent) {σ : Nat → Nat}
    (hσ : ∀ w, 1 < t.numberOf w → g.IsSemi t (σ w) w) :
    Progress g t σ t.order.length (.init g.size) ∧
      Progress g t σ 1
        ((t.order.drop 1).reverse.foldl (SemiForest.process g t) (.init g.size)) := by
  have hpos := h.length_pos
  have hstart := (progress_init hg h σ).of_le (h.length_le_size hg) h.number_le_length
  have hend := hstart.foldl_process hg h hσ (t.order.drop 1).reverse h.inner_reverse
  rw [List.length_reverse, List.length_drop,
    show t.order.length - (t.order.length - 1) = 1 by omega] at hend
  exact ⟨hstart, hend⟩

open SemiForest in
/-- The pass back settles every node. -/
lemma Spans.settled (hg : g.Consistent) :
    ∃ σ, Settled g t σ t.order.length ((t.order.drop 1).foldl settle
      ((t.order.drop 1).reverse.foldl (SemiForest.process g t) (.init g.size))) := by
  obtain ⟨σ, hσ⟩ := h.exists_semi
  have hpos := h.length_pos
  have hsettled := ((h.dealt hg hσ).2.settled h hσ).foldl_settle hg h (t.order.drop 1) h.inner
  rw [List.length_drop, show 1 + (t.order.length - 1) = t.order.length by omega] at hsettled
  exact ⟨σ, hsettled⟩

end

/-- The entry is its own, every other node the entry reaches has its immediate dominator, and
nothing else is in the table. -/
lemma Spans.immediateDominators (hg : g.Consistent) (h : g.Spans t) :
    (g.immediateDominators t).size = g.size ∧
      (∀ v, g.Reached v → ((g.immediateDominators t).getD v none).isSome) ∧
      ∀ v d, (g.immediateDominators t).getD v none = some d ↔
        (v = g.entry ∧ d = g.entry) ∨ (v ≠ g.entry ∧ g.Reached v ∧ g.IsImmediate d v) := by
  obtain ⟨σ, hsettled⟩ := h.settled hg
  set s := (t.order.drop 1).foldl SemiForest.settle
    ((t.order.drop 1).reverse.foldl (SemiForest.process g t) (.init g.size)) with hsdef
  have hdef : g.immediateDominators t = s.idom.setIfInBounds g.entry (some g.entry) := rfl
  -- the table is the one of the search, with the entry written over
  have hentry : ∀ v, v = g.entry → (g.immediateDominators t).getD v none = some g.entry := by
    rintro v rfl
    rw [hdef, getD_setIfInBounds, if_pos ⟨rfl, by rw [hsettled.size]; exact hg.entry_lt⟩]
  have hinside : ∀ v, v ≠ g.entry → (g.immediateDominators t).getD v none = s.idomOf v := by
    intro v hv
    rw [hdef, getD_setIfInBounds, if_neg (fun hc => hv hc.1.symm)]
    rfl
  refine ⟨by rw [hdef]; simpa using hsettled.size, fun v hv => ?_, fun v d => ?_⟩
  · by_cases hve : v = g.entry
    · rw [hentry v hve]
      rfl
    · have hone : t.numberOf v ≠ 1 := fun hc => hve (h.eq_entry hc)
      have hvpos := (h.numbered v).2 hv
      obtain ⟨d, hd, -⟩ := hsettled.found v (by omega)
      rw [hinside v hve, hd]
      rfl
  by_cases hv : v = g.entry
  · rw [hentry v hv]
    constructor
    · intro heq
      exact Or.inl ⟨hv, (Option.some.inj heq).symm⟩
    · rintro (⟨-, rfl⟩ | ⟨hne, -⟩)
      · rfl
      · exact absurd hv hne
  · rw [hinside v hv]
    have hone : t.numberOf v ≠ 1 := fun hc => hv (h.eq_entry hc)
    by_cases hv1 : 1 < t.numberOf v
    · obtain ⟨e, he, himm, -⟩ := hsettled.found v hv1
      have himm := himm (h.number_le_length v)
      have hreach := (h.numbered v).1 (by omega)
      rw [he]
      constructor
      · intro heq
        rw [← Option.some.inj heq]
        exact Or.inr ⟨hv, hreach, himm⟩
      · rintro (⟨hc, -⟩ | ⟨-, -, hd⟩)
        · exact absurd hc hv
        · rw [himm.unique hd hreach]
    · -- without a number there is no way to the node, and nothing in the table
      rw [hsettled.absent v (by omega)]
      constructor
      · intro hc
        cases hc
      · rintro (⟨hc, -⟩ | ⟨-, hreach, -⟩)
        · exact absurd hc hv
        · have := (h.numbered v).2 hreach
          omega

/-! ## The tree -/

lemma size_foldl_addKid (entry : Nat) (idom : Array (Option Nat)) (l : List Nat)
    (kids : Array (List Nat)) : (l.foldl (addKid entry idom) kids).size = kids.size := by
  induction l generalizing kids with
  | nil => rfl
  | cons c l ih =>
    rw [List.foldl_cons, ih]
    unfold addKid
    split
    · rfl
    · split
      · exact Array.size_modify
      · rfl

/-- Listing the nodes of `l` with their immediate dominators appends to each list of children
the nodes of `l` that belong there. -/
lemma foldl_addKid (entry : Nat) (idom : Array (Option Nat)) (l : List Nat)
    (kids : Array (List Nat)) (n : Nat) (hn : n < kids.size) :
    (l.foldl (addKid entry idom) kids).getD n [] =
      kids.getD n [] ++ l.filter fun c => decide (c ≠ entry ∧ idom.getD c none = some n) := by
  induction l generalizing kids with
  | nil => simp
  | cons c l ih =>
    have hsize : (addKid entry idom kids c).size = kids.size :=
      size_foldl_addKid entry idom [c] kids
    rw [List.foldl_cons, ih _ (by rw [hsize]; exact hn), List.filter_cons]
    unfold addKid
    by_cases hc : c = entry
    · simp [hc]
    · rw [if_neg hc]
      cases hd : idom.getD c none with
      | none => simp
      | some d =>
        dsimp only
        rw [getD_modify]
        by_cases hdn : d = n
        · rw [if_pos ⟨hdn, hn⟩, if_pos (by simp [hc, hdn])]
          simp
        · rw [if_neg (fun hce => hdn hce.1), if_neg (by simp [hdn])]

/-- The numbers of immediate dominators are smaller. -/
lemma Spans.immediate_lt (h : g.Spans t) {d n : Nat} (hn : 0 < t.numberOf n)
    (hd : g.IsImmediate d n) : t.numberOf d < t.numberOf n :=
  h.anc_lt (h.anc_of_dom hn hd.1.2) hn hd.1.1

section Tree

variable {g : Digraph}

lemma join_eq_getD {α : Type} (a : Array (Option α)) (i : Nat) : a[i]?.join = a.getD i none := by
  rw [Array.getD_eq_getD_getElem?]
  cases a[i]? <;> rfl

/-- The parent of a node in the tree. -/
lemma domTree_parents (hg : g.Consistent) (n d : Nat) :
    g.domTree.parents[n]?.join = some d ↔
      (n = g.entry ∧ d = g.entry) ∨ (n ≠ g.entry ∧ g.Reached n ∧ g.IsImmediate d n) := by
  rw [join_eq_getD]
  exact ((spans_spanTree g hg).immediateDominators hg).2.2 n d

/-- The tree knows what the entry reaches. -/
lemma domTree_isReachable (hg : g.Consistent) (n : Nat) :
    g.domTree.isReachable n = true ↔ g.Reached n := by
  constructor
  · intro h
    obtain ⟨d, hd⟩ := Option.isSome_iff_exists.1 h
    rcases (domTree_parents hg n d).1 hd with ⟨rfl, -⟩ | ⟨-, hn, -⟩
    · exact Reaches.init
    · exact hn
  · intro hn
    rw [DomTree.isReachable, join_eq_getD]
    exact ((spans_spanTree g hg).immediateDominators hg).2.1 n hn

/-- The tree knows the immediate dominators. -/
lemma domTree_idom (hg : g.Consistent) (n d : Nat) :
    g.domTree.idom? n = some d ↔ g.Reached n ∧ g.IsImmediate d n := by
  show (if n = g.entry then none else g.domTree.parents[n]?.join) = some d ↔ _
  by_cases hn : n = g.entry
  · rw [if_pos hn]
    constructor
    · intro hc
      cases hc
    · rintro ⟨-, hd⟩
      rw [hn] at hd
      exact absurd hd.1.2.eq_start hd.1.1
  · rw [if_neg hn, domTree_parents hg]
    simp [hn]

/-- On the way up from a node one meets its dominators. -/
lemma domTree_isAbove (hg : g.Consistent) (a bound n : Nat) (hn : g.Reached n)
    (hb : g.spanTree.numberOf n ≤ bound) :
    g.domTree.isAbove a bound n = true ↔ g.Dom a n := by
  have hs := spans_spanTree g hg
  induction bound generalizing n with
  | zero =>
    have := (hs.numbered n).2 hn
    omega
  | succ bound ih =>
    rw [DomTree.isAbove]
    by_cases hna : n = a
    · rw [if_pos hna, hna]
      exact ⟨fun _ => Dominates.refl a, fun _ => rfl⟩
    · rw [if_neg hna]
      cases hd : g.domTree.idom? n with
      | none =>
        -- only the entry has no immediate dominator
        have hentry : n = g.entry := by
          by_contra hne
          obtain ⟨d, hsome⟩ := Option.isSome_iff_exists.1 ((domTree_isReachable hg n).2 hn)
          have hidom : g.domTree.idom? n = some d := by
            show (if n = g.entry then none else _) = _
            rw [if_neg hne]
            exact hsome
          rw [hd] at hidom
          cases hidom
        constructor
        · intro hc
          cases hc
        · intro hdom
          rw [hentry] at hdom hna
          exact absurd hdom.eq_start (fun hc => hna hc.symm)
      | some d =>
        obtain ⟨-, himm⟩ := (domTree_idom hg n d).1 hd
        have hlt := hs.immediate_lt ((hs.numbered n).2 hn) himm
        refine (ih d (himm.1.2.reaches hn) (by omega)).trans ⟨fun h => h.trans himm.1.2, ?_⟩
        exact fun h => himm.2 a ⟨fun hc => hna hc.symm, h⟩

/-- The tree answers questions of dominance. -/
lemma domTree_dominates (hg : g.Consistent) (a b : Nat) :
    g.domTree.dominates a b = true ↔ g.Reached a ∧ g.Reached b ∧ g.Dom a b := by
  have hs := spans_spanTree g hg
  rw [DomTree.dominates, Bool.and_eq_true, Bool.and_eq_true, domTree_isReachable hg,
    domTree_isReachable hg, and_assoc]
  refine and_congr_right fun _ => and_congr_right fun hb => ?_
  refine domTree_isAbove hg a _ b hb ?_
  show _ ≤ (g.immediateDominators g.spanTree).size
  rw [(hs.immediateDominators hg).1]
  exact hs.number_le_size hg b

/-- The children of a node are those it immediately dominates, each once. -/
lemma domTree_children (hg : g.Consistent) (n : Nat) :
    (g.domTree.children n).Nodup ∧
      ∀ c, c ∈ g.domTree.children n ↔ g.domTree.idom? c = some n := by
  have hs := spans_spanTree g hg
  have hchildren : n < g.size → g.domTree.children n = g.spanTree.order.filter fun c =>
      decide (c ≠ g.entry ∧ (g.immediateDominators g.spanTree).getD c none = some n) := by
    intro hn
    refine (foldl_addKid g.entry (g.immediateDominators g.spanTree) g.spanTree.order
      (Array.replicate g.size []) n (by simpa using hn)).trans ?_
    rw [getD_replicate, List.nil_append]
  have hidom : ∀ c, g.domTree.idom? c = some n ↔
      c ≠ g.entry ∧ (g.immediateDominators g.spanTree).getD c none = some n := by
    intro c
    show (if c = g.entry then none else g.domTree.parents[c]?.join) = some n ↔ _
    by_cases hc : c = g.entry
    · simp [hc]
    · rw [if_neg hc, join_eq_getD]
      simp only [ne_eq, hc, not_false_eq_true, true_and]
      rfl
  by_cases hn : n < g.size
  · rw [hchildren hn]
    refine ⟨(hs.order_nodup).filter _, fun c => ?_⟩
    rw [List.mem_filter, decide_eq_true_eq, ← hidom]
    refine ⟨fun h => h.2, fun h => ⟨?_, h⟩⟩
    have hpos := (hs.numbered c).2 ((domTree_idom hg c n).1 h).1
    exact List.mem_of_getElem? ((hs.order (g.spanTree.numberOf c - 1) c).2 (by omega))
  · -- nothing outside the graph dominates anything
    have hempty : g.domTree.children n = [] := by
      show Array.getD _ n [] = []
      rw [Array.getD_eq_getD_getElem?, Array.getElem?_eq_none]
      · rfl
      · show (g.spanTree.order.foldl _ (Array.replicate g.size [])).size ≤ n
        rw [size_foldl_addKid]
        simpa using hn
    rw [hempty]
    refine ⟨List.nodup_nil, fun c => ?_⟩
    constructor
    · intro hc
      cases hc
    · intro hc
      obtain ⟨hreach, himm⟩ := (domTree_idom hg c n).1 hc
      exact absurd (hg.reached_lt (himm.1.2.reaches hreach)) hn

end Tree

/-! ## Staying inside the graph -/

/-- A search lists only nodes of the graph. -/
lemma lt_of_mem_reachable (g : Digraph) (start n : Nat) (h : n ∈ (g.reachable start).toList) :
    n < g.size := by
  have hmeet : ∀ (s : Reach) (m : Nat), s.met.Valid ∧ s.met.capacity = g.size →
      (s.meet m).met.Valid ∧ (s.meet m).met.capacity = g.size := by
    rintro s m ⟨hv, hc⟩
    unfold Reach.meet
    split
    · exact ⟨BitSet.valid_insert hv m, by rw [← hc]; exact BitSet.capacity_insert _ _⟩
    · exact ⟨hv, hc⟩
  have hfold : ∀ (l : List Nat) (s : Reach), s.met.Valid ∧ s.met.capacity = g.size →
      (l.foldl Reach.meet s).met.Valid ∧ (l.foldl Reach.meet s).met.capacity = g.size := by
    intro l
    induction l with
    | nil => exact fun _ hs => hs
    | cons m l ih => exact fun s hs => ih _ (hmeet s m hs)
  have hrun : (g.reachable start).Valid ∧ (g.reachable start).capacity = g.size := by
    refine repeatUpTo_induct (fun s : Reach => s.met.Valid ∧ s.met.capacity = g.size) ?_ _ _
      (hmeet _ _ ⟨BitSet.valid_empty _, rfl⟩)
    intro s s' hs hstep
    unfold Reach.step at hstep
    split at hstep
    · cases hstep
    · rw [← Option.some.inj hstep]
      exact hfold _ _ hs
  have hlt := hrun.1.bit_lt n ((BitSet.mem_toList_iff_bit _ n).1 h)
  rw [hrun.2] at hlt
  exact hlt

/-- A search of a graph with all edges among its nodes does not leave it. -/
lemma Consistent.staysInside {g : Digraph} (hg : g.Consistent) (start : Nat) :
    g.staysInside start = true := by
  rw [Digraph.staysInside, List.all_eq_true]
  intro n hn
  rw [List.all_eq_true]
  intro m hm
  exact decide_eq_true (hg.succ_lt n (lt_of_mem_reachable g start n hn) m hm)

lemma Consistent.dominators_eq {g : Digraph} (hg : g.Consistent) :
    g.dominators = .ok g.domTree := by
  have hpos := hg.entry_lt
  rw [Digraph.dominators, if_neg (by omega), if_pos]
  rw [Bool.and_eq_true]
  exact ⟨decide_eq_true hg.entry_lt, hg.staysInside _⟩

/-- The algorithm computes dominance. For every graph whose predecessor lists are the reverse
of its successor lists its searches from the entry come to rest, and it returns a tree that knows
which nodes the entry reaches, which nodes dominate which, the immediate dominator of every node
that has one (there is just one, and the entry and nodes out of reach have none), and the nodes
immediately dominated by each node. -/
theorem dominators_computes_dominance (g : Digraph) (hg : g.Consistent) :
    (∃ s, Rests (Reach.step g) (Reach.meet ⟨BitSet.empty g.size, []⟩ g.entry) s ∧
      g.reachable g.entry = s.met) ∧
    (∃ s, Rests (SpanWalk.step g) (SpanWalk.start g) s ∧
      g.spanTree = ⟨s.number, s.found.reverse, s.parent⟩) ∧
    ∃ t, g.dominators = .ok t ∧
      (∀ n, t.isReachable n = true ↔ g.Reached n) ∧
      (∀ a b, t.dominates a b = true ↔ g.Reached a ∧ g.Reached b ∧ g.Dom a b) ∧
      (∀ n, t.idom? n = none ↔ n = g.entry ∨ ¬ g.Reached n) ∧
      (∀ n d, t.idom? n = some d ↔ g.Reached n ∧ g.IsImmediate d n) ∧
      (∀ n, (t.children n).Nodup ∧ ∀ c, c ∈ t.children n ↔ t.idom? c = some n) := by
  refine ⟨⟨_, rests_repeatUpTo (Reach.step_end hg.entry_lt), rfl⟩, ⟨_, rests_spanWalk hg, rfl⟩,
    g.domTree, hg.dominators_eq, domTree_isReachable hg, domTree_dominates hg, ?_,
    domTree_idom hg, domTree_children hg⟩
  intro n
  show (if n = g.entry then none else g.domTree.parents[n]?.join) = none ↔ _
  by_cases hn : n = g.entry
  · simp [hn]
  · rw [if_neg hn, ← domTree_isReachable hg n, DomTree.isReachable]
    simp [hn]

/-- Two blocks that enter each other's loop, a repeated edge, a loop of one node, an edge back
to the entry and a node out of reach. -/
theorem dominators_of_irreducible :
    let g := ofEdges 5
      [(0, 1), (0, 2), (0, 1), (1, 2), (2, 1), (1, 3), (2, 3), (3, 3), (3, 0), (4, 3)] 0
    g.Consistent ∧ ∃ t, g.dominators = .ok t ∧
      (∀ n, t.isReachable n = true ↔ g.Reached n) ∧
      (∀ a b, t.dominates a b = true ↔ g.Reached a ∧ g.Reached b ∧ g.Dom a b) ∧
      (∀ n, t.idom? n = none ↔ n = g.entry ∨ ¬ g.Reached n) ∧
      (∀ n d, t.idom? n = some d ↔ g.Reached n ∧ g.IsImmediate d n) ∧
      (∀ n, (t.children n).Nodup ∧ ∀ c, c ∈ t.children n ↔ t.idom? c = some n) := by
  intro g
  have hg : g.Consistent := ⟨by decide, by decide, by decide⟩
  exact ⟨hg, (dominators_computes_dominance g hg).2.2⟩

end Digraph

end SsaBackend
