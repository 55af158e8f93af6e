import Mathlib.Order.WellFounded
import SsaBackend.Proofs.Graph.Forest

/-!
# Dealing with the nodes

What the tables hold once the nodes numbered above some number have been dealt with
(`Progress`), and that dealing with the next node keeps it (`Progress.process`).

A node waits with its semidominator until the child of the semidominator on the way down to
it has been dealt with; that is how long its place in a bucket lasts.
-/

namespace SsaBackend

namespace Digraph

variable {g : Digraph} {t : SpanTree}

/-- Every numbered node but the entry has a semidominator. -/
lemma Spans.exists_semi (h : g.Spans t) :
    ∃ σ : Nat → Nat, ∀ w, 1 < t.numberOf w → g.IsSemi t (σ w) w := by
  have key : ∀ w, ∃ s, 1 < t.numberOf w → g.IsSemi t s w := by
    intro w
    by_cases hw : 1 < t.numberOf w
    · obtain ⟨hp, -, he⟩ := h.parent w hw
      let candidates : Set Nat :=
        {v | 0 < t.numberOf v ∧ g.High t.numberOf (t.numberOf w) v w}
      have hne : candidates.Nonempty := ⟨t.parentOf w, hp, .edge he⟩
      obtain ⟨s, ⟨hpos, hhigh⟩, hmin⟩ :=
        WellFounded.has_min (measure t.numberOf).wf candidates hne
      refine ⟨s, fun _ => ⟨hpos, hhigh, fun v hv hvw => ?_⟩⟩
      exact Nat.le_of_not_lt (hmin v ⟨hv, hvw⟩)
    · exact ⟨w, fun hc => absurd hc hw⟩
  exact ⟨fun w => (key w).choose, fun w => (key w).choose_spec⟩

/-- A node has one semidominator. -/
lemma Spans.semi_unique (h : g.Spans t) {s s' w : Nat} (hs : g.IsSemi t s w)
    (hs' : g.IsSemi t s' w) : s = s' := by
  have h1 := hs.least s' hs'.pos hs'.high
  have h2 := hs'.least s hs.pos hs.high
  exact h.eq_of_number hs.pos (by omega)

/-- Between a node and one below it there is a child of the first. -/
lemma Anc.exists_child {a v : Nat} (ha : Anc t.numberOf t.parentOf a v) (hne : a ≠ v) :
    ∃ x, 1 < t.numberOf x ∧ Anc t.numberOf t.parentOf x v ∧ t.parentOf x = a := by
  induction ha with
  | refl => exact absurd rfl hne
  | @up v h1 hp ih =>
    by_cases hpa : a = t.parentOf v
    · exact ⟨v, h1, .refl, hpa.symm⟩
    · obtain ⟨x, hx, hxv, hxa⟩ := ih hpa
      exact ⟨x, hx, .up h1 hxv, hxa⟩

/-- What is above a node that waits for `p`, and numbered after `p`, has been dealt with as
soon as the child `w` of `p` has. -/
lemma Spans.dealt_of_child (h : g.Spans t) {w v y : Nat} (hw : 1 < t.numberOf w)
    (hv : t.numberOf w ≤ t.numberOf v) (hy : Anc t.numberOf t.parentOf y v)
    (hpy : t.numberOf (t.parentOf w) < t.numberOf y) : t.numberOf w ≤ t.numberOf y := by
  by_contra hc
  have hanc := h.anc_of_between hy (by omega) (b := w) (by omega) hv
  cases hanc with
  | refl => omega
  | up _ hup =>
    have := (h.anc_le hup (h.parent w hw).1).2
    omega

namespace SemiForest

/-- What the first two passes find out of a node `v`: its immediate dominator, which is then
its semidominator, or an earlier node with the same one. -/
def Settles (g : Digraph) (t : SpanTree) (σ : Nat → Nat) (v d : Nat) : Prop :=
  1 < t.numberOf v ∧
    ((d = σ v ∧ g.IsImmediate d v) ∨
      (d ≠ σ v ∧ 1 < t.numberOf d ∧ t.numberOf d < t.numberOf v ∧
        ∀ e, g.IsImmediate e d → g.IsImmediate e v))

/-- The immediate dominator known of a node. -/
def idomOf (s : SemiForest) (v : Nat) : Option Nat := s.idom.getD v none

/-- The nodes that wait with a node. -/
def waitingAt (s : SemiForest) (b : Nat) : List Nat := s.bucket.getD b []

/-- What the tables hold once the nodes numbered above `i` have been dealt with. -/
structure Progress (g : Digraph) (t : SpanTree) (σ : Nat → Nat) (i : Nat) (s : SemiForest) :
    Prop where
  sized : Sized g s
  linked : Linked t i s
  later : ∀ u, i < t.numberOf u → s.semiOf u = σ u
  earlier : ∀ u, 0 < t.numberOf u → t.numberOf u ≤ i → s.semiOf u = u
  /-- Who waits has been dealt with, and the way down to it has not. -/
  waits : ∀ b v, v ∈ s.waitingAt b → i < t.numberOf v ∧ σ v = b ∧
    ∀ x, 1 < t.numberOf x → Anc t.numberOf t.parentOf x v → t.parentOf x = b →
      t.numberOf x ≤ i
  known : ∀ v, i < t.numberOf v → v ∈ s.waitingAt (σ v) ∨ (s.idomOf v).isSome
  sound : ∀ v d, s.idomOf v = some d → Settles g t σ v d

/-! ## Finding the semidominator of a node -/

/-- While the edges into `w` are looked at: those from the nodes in `done` can not improve
the candidate for its semidominator any more. -/
structure Improving (g : Digraph) (t : SpanTree) (σ : Nat → Nat) (w : Nat) (s₀ : SemiForest)
    (done : List Nat) (s : SemiForest) : Prop where
  sized : Sized g s
  linked : Linked t (t.numberOf w) s
  later : ∀ u, t.numberOf w < t.numberOf u → s.semiOf u = σ u
  earlier : ∀ u, 0 < t.numberOf u → t.numberOf u ≤ t.numberOf w → u ≠ w → s.semiOf u = u
  bucket : s.bucket = s₀.bucket
  idom : s.idom = s₀.idom
  candidate : s.semiOf w = w ∨ 0 < t.numberOf (s.semiOf w) ∧
    g.High t.numberOf (t.numberOf w) (s.semiOf w) w
  le : t.numberOf (s.semiOf w) ≤ t.numberOf w
  least : ∀ v ∈ done, 0 < t.numberOf v →
    (t.numberOf v ≤ t.numberOf w → t.numberOf (s.semiOf w) ≤ t.numberOf v) ∧
      ∀ u, Anc t.numberOf t.parentOf u v → t.numberOf w < t.numberOf u →
        t.numberOf (s.semiOf w) ≤ t.numberOf (σ u)

/-- A smaller candidate is as good for the edges looked at so far. -/
lemma Improving.lower {σ : Nat → Nat} {w c : Nat} {s₀ s : SemiForest} {done : List Nat}
    (hw : w < g.size) (hi : Improving g t σ w s₀ done s)
    (hpos : 0 < t.numberOf c) (hhigh : g.High t.numberOf (t.numberOf w) c w)
    (hlt : t.numberOf c < t.numberOf (s.semiOf w)) :
    Improving g t σ w s₀ done { s with semi := s.semi.setIfInBounds w c } ∧
      ({ s with semi := s.semi.setIfInBounds w c } : SemiForest).semiOf w = c := by
  have hself : (s.semi.setIfInBounds w c).getD w w = c := by
    rw [getD_setIfInBounds, if_pos ⟨rfl, by rw [hi.sized.semi]; exact hw⟩]
  have hother : ∀ u, u ≠ w → (s.semi.setIfInBounds w c).getD u u = s.semiOf u := by
    intro u hu
    rw [getD_setIfInBounds, if_neg (fun hc => hu hc.1.symm)]
    rfl
  have hle := hi.le
  refine ⟨⟨⟨by simpa using hi.sized.semi, hi.sized.ancestor, hi.sized.best, hi.sized.bucket,
    hi.sized.idom⟩, ⟨hi.linked.root, ?_⟩, ?_, ?_, hi.bucket, hi.idom, ?_, ?_, ?_⟩, hself⟩
  · -- linked nodes keep their semidominators
    intro v hv
    obtain ⟨a, ha, hav, hne, hlink, hb, hab, hmin⟩ := hi.linked.node v hv
    refine ⟨a, ha, hav, hne, hlink, hb, hab, fun u hu hau => ?_⟩
    have hlu := hlink u hu hau
    have hlb := hlink _ hb hab
    have h1 : u ≠ w := by
      rintro rfl
      omega
    have h2 : s.bestOf v ≠ w := by
      intro hc
      rw [hc] at hlb
      omega
    show t.numberOf ((s.semi.setIfInBounds w c).getD (s.bestOf v) (s.bestOf v)) ≤
      t.numberOf ((s.semi.setIfInBounds w c).getD u u)
    rw [hother _ h1, hother _ h2]
    exact hmin u hu hau
  · intro u hu
    have hne : u ≠ w := by
      rintro rfl
      omega
    exact (hother u hne).trans (hi.later u hu)
  · intro u hu huw hne
    exact (hother u hne).trans (hi.earlier u hu huw hne)
  · right
    -- a path leads from the new candidate to `w` whose inner nodes are numbered above `w`
    show 0 < t.numberOf ((s.semi.setIfInBounds w c).getD w w) ∧
      g.High t.numberOf (t.numberOf w) ((s.semi.setIfInBounds w c).getD w w) w
    rw [hself]
    exact ⟨hpos, hhigh⟩
  · show t.numberOf ((s.semi.setIfInBounds w c).getD w w) ≤ _
    rw [hself]
    omega
  · intro v hv hvpos
    show (_ → t.numberOf ((s.semi.setIfInBounds w c).getD w w) ≤ _) ∧
      ∀ u, _ → _ → t.numberOf ((s.semi.setIfInBounds w c).getD w w) ≤ _
    rw [hself]
    obtain ⟨h1, h2⟩ := hi.least v hv hvpos
    refine ⟨fun hvw => ?_, fun u hu hwu => ?_⟩
    · have := h1 hvw
      omega
    · have := h2 u hu hwu
      omega

/-- One more edge is as good as looked at when the candidate is low enough for it. -/
lemma Improving.look {σ : Nat → Nat} {w v : Nat} {s₀ s : SemiForest} {done : List Nat}
    (hi : Improving g t σ w s₀ done s)
    (hv : 0 < t.numberOf v →
      (t.numberOf v ≤ t.numberOf w → t.numberOf (s.semiOf w) ≤ t.numberOf v) ∧
        ∀ u, Anc t.numberOf t.parentOf u v → t.numberOf w < t.numberOf u →
          t.numberOf (s.semiOf w) ≤ t.numberOf (σ u)) :
    Improving g t σ w s₀ (v :: done) s := by
  refine { hi with least := ?_ }
  intro x hx hxpos
  rcases List.mem_cons.1 hx with rfl | hx
  · exact hv hxpos
  · exact hi.least x hx hxpos

/-- The ways up may be shortened meanwhile. -/
lemma Improving.compress (hg : g.Consistent) (h : g.Spans t) {σ : Nat → Nat} {w v : Nat}
    {s₀ s : SemiForest} {done : List Nat} (hi : Improving g t σ w s₀ done s)
    (hv : 0 < t.numberOf v) : Improving g t σ w s₀ done (s.compress t v) := by
  obtain ⟨hs', hl', hsame, -, -⟩ := hi.linked.compress hg h hi.sized hv
  have hsemi : ∀ x, (s.compress t v).semiOf x = s.semiOf x := hsame.semiOf
  exact ⟨hs', hl', fun x hx => (hsemi x).trans (hi.later x hx),
    fun x hx hxw hne => (hsemi x).trans (hi.earlier x hx hxw hne),
    hsame.bucket.trans hi.bucket, hsame.idom.trans hi.idom,
    by rw [hsemi]; exact hi.candidate, by rw [hsemi]; exact hi.le, by rw [hsemi]; exact hi.least⟩

/-- The semidominator of the best node over an edge is a candidate, unless that node is `w`. -/
lemma Improving.high_best (hg : g.Consistent) (h : g.Spans t) {σ : Nat → Nat}
    (hσ : ∀ w, 1 < t.numberOf w → g.IsSemi t (σ w) w) {w v : Nat} {s₀ s : SemiForest}
    {done : List Nat} (hw : 0 < t.numberOf w) (hi : Improving g t σ w s₀ done s)
    (hv : 0 < t.numberOf v) (hedge : g.Edge v w) (hne : (s.compress t v).bestOf v ≠ w) :
    0 < t.numberOf ((s.compress t v).semiOf ((s.compress t v).bestOf v)) ∧
      g.High t.numberOf (t.numberOf w)
        ((s.compress t v).semiOf ((s.compress t v).bestOf v)) w := by
  obtain ⟨-, -, -, hroot, hbest⟩ := hi.linked.compress hg h hi.sized hv
  have hi' := hi.compress hg h hv
  rcases Nat.lt_or_ge (t.numberOf w) (t.numberOf v) with hwv | hvw
  · obtain ⟨hanc, hwu, -⟩ := hbest hwv
    rw [hi'.later _ hwu]
    have hsu := hσ ((s.compress t v).bestOf v) (by omega)
    exact ⟨hsu.pos, h.high_of_semi hsu hanc hv hedge hwu⟩
  · rw [hroot hvw] at hne ⊢
    rw [hi'.earlier v hv hvw hne]
    exact ⟨hv, .edge hedge⟩

/-- Nothing over an edge is better than the best node. -/
lemma Improving.bound_best (hg : g.Consistent) (h : g.Spans t) {σ : Nat → Nat} {w v : Nat}
    {s₀ s : SemiForest} {done : List Nat} (hi : Improving g t σ w s₀ done s)
    (hv : 0 < t.numberOf v) {c : Nat}
    (hc : t.numberOf c ≤ t.numberOf ((s.compress t v).semiOf ((s.compress t v).bestOf v)))
    (hcw : t.numberOf c ≤ t.numberOf w) :
    (t.numberOf v ≤ t.numberOf w → t.numberOf c ≤ t.numberOf v) ∧
      ∀ x, Anc t.numberOf t.parentOf x v → t.numberOf w < t.numberOf x →
        t.numberOf c ≤ t.numberOf (σ x) := by
  obtain ⟨-, -, hsame, hroot, hbest⟩ := hi.linked.compress hg h hi.sized hv
  rw [hsame.semiOf] at hc
  constructor
  · intro hvw
    by_cases hvw' : v = w
    · rw [hvw']
      exact hcw
    · rwa [hroot hvw, hi.earlier v hv hvw hvw'] at hc
  · intro x hx hwx
    have hle := (h.anc_le hx hv).2
    obtain ⟨-, -, hmin⟩ := hbest (by omega)
    have hm : t.numberOf (s.semiOf _) ≤ t.numberOf (s.semiOf x) := hmin x hx hwx
    rw [hi.later x hwx] at hm
    omega

/-- Looking at one more edge into `w`. -/
lemma Improving.improve (hg : g.Consistent) (h : g.Spans t) {σ : Nat → Nat}
    (hσ : ∀ w, 1 < t.numberOf w → g.IsSemi t (σ w) w) {w v : Nat} {s₀ s : SemiForest}
    {done : List Nat} (hw : 0 < t.numberOf w)
    (hi : Improving g t σ w s₀ done s) (hv : 0 < t.numberOf v → g.Edge v w) :
    Improving g t σ w s₀ (v :: done) (s.improve t w v) := by
  have hlt : w < g.size := hg.reached_lt ((h.numbered w).1 hw)
  unfold SemiForest.improve
  split
  · exact hi.look fun hvpos => by omega
  · have hvpos : 0 < t.numberOf v := by omega
    have hi' := hi.compress hg h hvpos
    have hbound := fun c => @Improving.bound_best _ _ hg h _ _ _ _ _ _ hi hvpos c
    have hhigh := hi.high_best hg h hσ hw hvpos (hv hvpos)
    set s' := s.compress t v
    set u := s'.bestOf v
    show Improving g t σ w s₀ (v :: done)
      (if t.numberOf (s'.semiOf u) < t.numberOf (s'.semiOf w) then _ else _)
    split
    · rename_i hless
      have huw : u ≠ w := by
        intro huw
        rw [huw] at hless
        omega
      obtain ⟨hpos, hhigh⟩ := hhigh huw
      obtain ⟨hlow, hval⟩ := hi'.lower hlt hpos hhigh hless
      refine hlow.look fun _ => ?_
      rw [hval]
      have hle := hi'.le
      exact hbound _ (Nat.le_refl _) (by omega)
    · rename_i hless
      exact hi'.look fun _ => hbound _ (by omega) hi'.le

/-- Looking at one edge after another. -/
lemma Improving.foldl_improve (hg : g.Consistent) (h : g.Spans t) {σ : Nat → Nat}
    (hσ : ∀ w, 1 < t.numberOf w → g.IsSemi t (σ w) w) {w : Nat} {s₀ s : SemiForest}
    {done : List Nat} (hi : Improving g t σ w s₀ done s) (hw : 0 < t.numberOf w) (l : List Nat)
    (hl : ∀ v ∈ l, 0 < t.numberOf v → g.Edge v w) :
    Improving g t σ w s₀ (l.reverse ++ done) (l.foldl (SemiForest.improve t w) s) := by
  induction l generalizing done s with
  | nil => exact hi
  | cons v l ih =>
    rw [List.foldl_cons, List.reverse_cons, List.append_assoc]
    apply ih (hi.improve hg h hσ hw (hl v List.mem_cons_self))
    intro x hx
    exact hl x (List.mem_cons_of_mem _ hx)

/-- Before an edge into a node is looked at, the node stands for itself. -/
lemma Progress.improving {σ : Nat → Nat} {w : Nat} {s : SemiForest} (hw : 0 < t.numberOf w)
    (hp : Progress g t σ (t.numberOf w) s) : Improving g t σ w s [] s := by
  have hself := hp.earlier w hw (Nat.le_refl _)
  exact ⟨hp.sized, hp.linked, hp.later, fun u hu huw _ => hp.earlier u hu huw, rfl, rfl,
    Or.inl hself, by rw [hself], by simp⟩

/-- Once every edge into a node has been looked at, its semidominator is known. -/
lemma Progress.improved (hg : g.Consistent) (h : g.Spans t) {σ : Nat → Nat}
    (hσ : ∀ w, 1 < t.numberOf w → g.IsSemi t (σ w) w) {w : Nat} {s : SemiForest}
    (hw : 1 < t.numberOf w) (hp : Progress g t σ (t.numberOf w) s) :
    let s' := (g.preds w).foldl (SemiForest.improve t w) s
    (∃ done, Improving g t σ w s done s') ∧ s'.semiOf w = σ w := by
  have hwpos : 0 < t.numberOf w := by omega
  have hlt : w < g.size := hg.reached_lt ((h.numbered w).1 hwpos)
  have hend := (hp.improving hwpos).foldl_improve hg h hσ hwpos (g.preds w) (by
    intro v hv hvpos
    exact (hg.pred_iff v (hg.reached_lt ((h.numbered v).1 hvpos)) w hlt).1 hv)
  set s' := (g.preds w).foldl (SemiForest.improve t w) s
  refine ⟨⟨_, hend⟩, ?_⟩
  have hmem : ∀ v, 0 < t.numberOf v → g.Edge v w → v ∈ (g.preds w).reverse ++ [] := by
    intro v hv he
    rw [List.append_nil, List.mem_reverse]
    exact (hg.pred_iff v (hg.reached_lt ((h.numbered v).1 hv)) w hlt).2 he
  -- the parent is a candidate, so the node does not stand for itself any more
  obtain ⟨hppos, hplt, hpedge⟩ := h.parent w hw
  have hple := (hend.least _ (hmem _ hppos hpedge) hppos).1 (by omega)
  have hcand : 0 < t.numberOf (s'.semiOf w) ∧
      g.High t.numberOf (t.numberOf w) (s'.semiOf w) w := by
    rcases hend.candidate with hself | hc
    · rw [hself] at hple
      omega
    · exact hc
  have hsemi : g.IsSemi t (s'.semiOf w) w :=
    h.isSemi_of_least (σ := σ) hw (fun u hu => hσ u (by omega)) hcand.1 hcand.2
      (fun v hv he hvw => (hend.least v (hmem v hv he) hv).1 hvw)
      (fun v u hv he hu hwu => (hend.least v (hmem v hv he) hv).2 u hu hwu)
  exact h.semi_unique hsemi (hσ w hw)

/-! ## Linking a node and deciding those that waited -/

/-- Linking a root to its parent. -/
lemma Linked.link (hg : g.Consistent) (h : g.Spans t) {w : Nat} {s : SemiForest}
    (hs : Sized g s) (hw : 1 < t.numberOf w) (hl : Linked t (t.numberOf w) s)
    (bucket : Array (List Nat)) :
    Linked t (t.numberOf w - 1)
      { s with bucket, ancestor := s.ancestor.setIfInBounds w (some (t.parentOf w)) } := by
  have hlt : w < g.size := hg.reached_lt ((h.numbered w).1 (by omega))
  obtain ⟨hppos, hplt, -⟩ := h.parent w hw
  have hself : (s.ancestor.setIfInBounds w (some (t.parentOf w))).getD w none =
      some (t.parentOf w) := by
    rw [getD_setIfInBounds, if_pos ⟨rfl, by rw [hs.ancestor]; exact hlt⟩]
  have hother : ∀ v, v ≠ w → (s.ancestor.setIfInBounds w (some (t.parentOf w))).getD v none =
      s.ancestorOf v := by
    intro v hv
    rw [getD_setIfInBounds, if_neg (fun hc => hv hc.1.symm)]
    rfl
  constructor
  · intro v hv hvi
    have hne : v ≠ w := by
      rintro rfl
      omega
    obtain ⟨h1, h2⟩ := hl.root v hv (by omega)
    exact ⟨(hother v hne).trans h1, h2⟩
  · intro v hv
    by_cases hne : v = w
    · subst hne
      have hbest := (hl.root v (by omega) (Nat.le_refl _)).2
      -- only the node itself lies between it and its parent
      have honly : ∀ u, Anc t.numberOf t.parentOf u v →
          t.numberOf (t.parentOf v) < t.numberOf u → u = v := by
        intro u hu hpu
        cases hu with
        | refl => rfl
        | up _ hup =>
          have := (h.anc_le hup hppos).2
          omega
      refine ⟨t.parentOf v, hself, .up hw .refl, ?_, ?_, ?_⟩
      · intro hc
        rw [hc] at hplt
        omega
      · intro u hu hpu
        rw [honly u hu hpu]
        omega
      · show Anc t.numberOf t.parentOf (s.bestOf v) v ∧ _ < t.numberOf (s.bestOf v) ∧
          ∀ u, _ → _ → s.semiNumber t (s.bestOf v) ≤ s.semiNumber t u
        rw [hbest]
        refine ⟨.refl, hplt, fun u hu hpu => ?_⟩
        rw [honly u hu hpu]
    · have hneq : t.numberOf v ≠ t.numberOf w := fun hc => hne (h.eq_of_number (by omega) hc)
      obtain ⟨a, ha, hav, hane, hlink, hrest⟩ := hl.node v (by omega)
      refine ⟨a, (hother v hne).trans ha, hav, hane, fun u hu hau => ?_, hrest⟩
      have := hlink u hu hau
      omega

/-- While the nodes that waited for `p` are decided, after the child `w` of `p` was linked:
those in `done` have been decided. -/
structure Concluding (g : Digraph) (t : SpanTree) (σ : Nat → Nat) (i : Nat) (s₀ : SemiForest)
    (done : List Nat) (s : SemiForest) : Prop where
  sized : Sized g s
  linked : Linked t i s
  semi : s.semi = s₀.semi
  bucket : s.bucket = s₀.bucket
  decided : ∀ v ∈ done, (s.idomOf v).isSome
  kept : ∀ v, (s₀.idomOf v).isSome → (s.idomOf v).isSome
  sound : ∀ v d, s.idomOf v = some d → Settles g t σ v d

/-- The best node `u` between a node and its semidominator settles the node: if it has the same
semidominator, that is the immediate dominator, and else `u` has the immediate dominator. -/
lemma settles_of_best (h : g.Spans t) {σ : Nat → Nat}
    (hσ : ∀ w, 1 < t.numberOf w → g.IsSemi t (σ w) w) {u v : Nat} (hv : 1 < t.numberOf v)
    (hu : 1 < t.numberOf u) (huv : Anc t.numberOf t.parentOf u v)
    (hbelow : t.numberOf (σ v) < t.numberOf u)
    (hleast : ∀ y, Anc t.numberOf t.parentOf y v → t.numberOf (σ v) < t.numberOf y →
      t.numberOf (σ u) ≤ t.numberOf (σ y)) :
    Settles g t σ v (if σ u = σ v then σ v else u) := by
  refine ⟨hv, ?_⟩
  split
  · rename_i heq
    exact .inl ⟨rfl, h.immediate_of_semi hσ hv fun y hy hpy => heq ▸ hleast y hy hpy⟩
  · rename_i hne
    have hself := hleast v .refl (h.semi_lt (hσ v hv) hv).1
    have hneq : t.numberOf (σ u) ≠ t.numberOf (σ v) := fun hce =>
      hne (h.eq_of_number (hσ u hu).pos hce)
    have hune : u ≠ v := by
      rintro rfl
      exact hneq rfl
    refine .inr ⟨?_, hu, h.anc_lt huv (by omega) hune, fun e he => ?_⟩
    · intro hce
      rw [← hce] at hbelow
      omega
    · exact h.immediate_of_lower hσ hv huv hbelow hleast (by omega) he

/-- Deciding a node whose semidominator is the parent of the node linked last. -/
lemma Concluding.conclude (hg : g.Consistent) (h : g.Spans t) {σ : Nat → Nat}
    (hσ : ∀ w, 1 < t.numberOf w → g.IsSemi t (σ w) w) {w v : Nat} {s₀ s : SemiForest}
    {done : List Nat} (hw : 1 < t.numberOf w)
    (hsemi₀ : ∀ u, t.numberOf w ≤ t.numberOf u → s₀.semiOf u = σ u)
    (hc : Concluding g t σ (t.numberOf w - 1) s₀ done s) (hv : t.numberOf w ≤ t.numberOf v)
    (hvp : σ v = t.parentOf w) :
    Concluding g t σ (t.numberOf w - 1) s₀ (v :: done) (s.conclude t (t.parentOf w) v) := by
  have hvpos : 0 < t.numberOf v := by omega
  have hlt : v < g.size := hg.reached_lt ((h.numbered v).1 hvpos)
  obtain ⟨hs', hl', hsame, -, hbest⟩ := hc.linked.compress hg h hc.sized hvpos
  obtain ⟨huv, hwu, hmin⟩ := hbest (by omega)
  set s' := s.compress t v with hs'def
  set u := s'.bestOf v
  have hsemi : ∀ x, t.numberOf w ≤ t.numberOf x → s.semiOf x = σ x := by
    intro x hx
    rw [SemiForest.semiOf, hc.semi]
    exact hsemi₀ x hx
  have hplt := (h.parent w hw).2.1
  -- the best node is the best of all between the semidominator and the node
  have hsettles : Settles g t σ v (if s'.semiOf u = s'.semiOf v then t.parentOf w else u) := by
    rw [hsame.semiOf, hsame.semiOf, hsemi u (by omega), hsemi v hv, ← hvp]
    refine settles_of_best h hσ (by omega) (by omega) huv (by rw [hvp]; omega) fun y hy hpy => ?_
    rw [hvp] at hpy
    have hwy := h.dealt_of_child hw hv hy hpy
    have hle : t.numberOf (s.semiOf u) ≤ t.numberOf (s.semiOf y) := hmin y hy (by omega)
    rwa [hsemi u (by omega), hsemi y hwy] at hle
  have hidom : ∀ x, (s.conclude t (t.parentOf w) v).idomOf x =
      if x = v then some (if s'.semiOf u = s'.semiOf v then t.parentOf w else u)
      else s.idomOf x := by
    intro x
    show (s'.idom.setIfInBounds v _).getD x none = _
    rw [getD_setIfInBounds]
    by_cases hx : x = v
    · rw [if_pos ⟨hx.symm, by rw [hs'.idom, hx]; exact hlt⟩, if_pos hx]
    · rw [if_neg fun hce => hx hce.1.symm, if_neg hx, hsame.idom]
      rfl
  refine ⟨⟨hs'.semi, hs'.ancestor, hs'.best, hs'.bucket, by
    show (s'.idom.setIfInBounds v _).size = _
    simpa using hs'.idom⟩, ⟨hl'.root, hl'.node⟩, hsame.semi.trans hc.semi,
    hsame.bucket.trans hc.bucket, fun x hx => ?_, fun x hx => ?_, fun x d hd => ?_⟩
  · rw [hidom]
    split
    · rfl
    · rename_i hxv
      exact hc.decided x ((List.mem_cons.1 hx).resolve_left hxv)
  · rw [hidom]
    split
    · rfl
    · exact hc.kept x hx
  · rw [hidom] at hd
    split at hd
    · rename_i hxv
      rw [hxv, ← Option.some.inj hd]
      exact hsettles
    · exact hc.sound x d hd

/-- Deciding one node after another. -/
lemma Concluding.foldl_conclude (hg : g.Consistent) (h : g.Spans t) {σ : Nat → Nat}
    (hσ : ∀ w, 1 < t.numberOf w → g.IsSemi t (σ w) w) {w : Nat} {s₀ s : SemiForest}
    {done : List Nat} (hw : 1 < t.numberOf w)
    (hsemi₀ : ∀ u, t.numberOf w ≤ t.numberOf u → s₀.semiOf u = σ u)
    (hc : Concluding g t σ (t.numberOf w - 1) s₀ done s) (l : List Nat)
    (hl : ∀ v ∈ l, t.numberOf w ≤ t.numberOf v ∧ σ v = t.parentOf w) :
    Concluding g t σ (t.numberOf w - 1) s₀ (l.reverse ++ done)
      (l.foldl (SemiForest.conclude t (t.parentOf w)) s) := by
  induction l generalizing done s with
  | nil => exact hc
  | cons v l ih =>
    obtain ⟨hwv, hvp⟩ := hl v List.mem_cons_self
    rw [List.foldl_cons, List.reverse_cons, List.append_assoc]
    apply ih (hc.conclude hg h hσ hw hsemi₀ hwv hvp)
    intro x hx
    exact hl x (List.mem_cons_of_mem _ hx)

/-! ## Dealing with a node -/

/-- Who waits when `w` has joined those that wait for its semidominator. -/
def joined (s : SemiForest) (w : Nat) : Array (List Nat) :=
  s.bucket.modify (s.semiOf w) (· ++ [w])

/-- The forest in which `w` was linked to its parent and waits, and nobody waits for the parent
any more. -/
def linkUp (t : SpanTree) (s : SemiForest) (w : Nat) : SemiForest :=
  { s with
    bucket := (s.joined w).setIfInBounds (t.parentOf w) []
    ancestor := s.ancestor.setIfInBounds w (some (t.parentOf w)) }

/-- A node is dealt with by improving, linking and concluding. -/
lemma process_eq (g : Digraph) (t : SpanTree) (s : SemiForest) (w : Nat) :
    s.process g t w =
      let s' := (g.preds w).foldl (SemiForest.improve t w) s
      ((s'.joined w).getD (t.parentOf w) []).foldl (SemiForest.conclude t (t.parentOf w))
        (s'.linkUp t w) := rfl

section Joining

variable {σ : Nat → Nat} {w : Nat} {s s' : SemiForest} {done : List Nat}

/-- Only `w` has come to wait. -/
lemma Improving.mem_joined (hi : Improving g t σ w s done s') (hsw : s'.semiOf w = σ w)
    (hσ : σ w < g.size) (b v : Nat) :
    v ∈ (s'.joined w).getD b [] ↔ v ∈ s.waitingAt b ∨ (v = w ∧ b = σ w) := by
  unfold joined waitingAt
  rw [hsw, getD_modify, ← hi.bucket]
  by_cases hb : σ w = b
  · rw [if_pos ⟨hb, by rw [hi.sized.bucket, ← hb]; exact hσ⟩]
    simp [hb]
  · rw [if_neg (fun hc => hb hc.1)]
    simp [show b ≠ σ w from fun hc => hb hc.symm]

lemma size_joined (s : SemiForest) (w : Nat) : (s.joined w).size = s.bucket.size :=
  Array.size_modify

/-- Nobody waits for the parent, and only `w` has come to wait for another node. -/
lemma Improving.mem_waitingAt_linkUp (hi : Improving g t σ w s done s')
    (hsw : s'.semiOf w = σ w) (hσ : σ w < g.size) (hp : t.parentOf w < g.size) (b v : Nat) :
    v ∈ (s'.linkUp t w).waitingAt b ↔
      b ≠ t.parentOf w ∧ (v ∈ s.waitingAt b ∨ (v = w ∧ b = σ w)) := by
  show v ∈ ((s'.joined w).setIfInBounds (t.parentOf w) []).getD b [] ↔ _
  rw [getD_setIfInBounds]
  by_cases hb : t.parentOf w = b
  · rw [if_pos ⟨hb, by rw [size_joined, hi.sized.bucket, ← hb]; exact hp⟩]
    simp [hb]
  · rw [if_neg (fun hc => hb hc.1), hi.mem_joined hsw hσ]
    simp [show b ≠ t.parentOf w from fun hc => hb hc.symm]

/-- Once `w` is linked, those that waited for its parent can be decided. -/
lemma Improving.concluding (hg : g.Consistent) (h : g.Spans t) (hw : 1 < t.numberOf w)
    (hi : Improving g t σ w s done s') (hsound : ∀ v d, s.idomOf v = some d → Settles g t σ v d) :
    Concluding g t σ (t.numberOf w - 1) (s'.linkUp t w) [] (s'.linkUp t w) := by
  refine ⟨⟨hi.sized.semi, ?_, hi.sized.best, ?_, hi.sized.idom⟩,
    hi.linked.link hg h hi.sized hw _, rfl, rfl, by simp, fun _ hv => hv, ?_⟩
  · simpa [linkUp] using hi.sized.ancestor
  · simpa [linkUp, size_joined] using hi.sized.bucket
  · intro v d hd
    apply hsound
    rw [← hd]
    show s.idom.getD v none = s'.idom.getD v none
    rw [hi.idom]

/-- Nodes that have been dealt with know their semidominators. -/
lemma Improving.later_linkUp (h : g.Spans t) (hw : 0 < t.numberOf w)
    (hi : Improving g t σ w s done s') (hsw : s'.semiOf w = σ w) (u : Nat)
    (hu : t.numberOf w ≤ t.numberOf u) : (s'.linkUp t w).semiOf u = σ u := by
  rcases Nat.lt_or_eq_of_le hu with hlt | heq
  · exact hi.later u hlt
  · rw [← h.eq_of_number hw heq]
    exact hsw

/-- Who waits for the parent has been dealt with, and has the parent as its semidominator. -/
lemma Progress.waiting (hp : Progress g t σ (t.numberOf w) s) (hi : Improving g t σ w s done s')
    (hsw : s'.semiOf w = σ w) (hσ : σ w < g.size) (v : Nat)
    (hv : v ∈ (s'.joined w).getD (t.parentOf w) []) :
    t.numberOf w ≤ t.numberOf v ∧ σ v = t.parentOf w := by
  rcases (hi.mem_joined hsw hσ _ v).1 hv with hold | ⟨rfl, hpw⟩
  · obtain ⟨h1, h2, -⟩ := hp.waits _ v hold
    exact ⟨by omega, h2⟩
  · exact ⟨Nat.le_refl _, hpw.symm⟩

end Joining

/-- Dealing with the next node. -/
lemma Progress.process (hg : g.Consistent) (h : g.Spans t) {σ : Nat → Nat}
    (hσ : ∀ w, 1 < t.numberOf w → g.IsSemi t (σ w) w) {w : Nat} {s : SemiForest}
    (hw : 1 < t.numberOf w) (hp : Progress g t σ (t.numberOf w) s) :
    Progress g t σ (t.numberOf w - 1) (s.process g t w) := by
  obtain ⟨⟨done, hi⟩, hsw⟩ := hp.improved hg h hσ hw
  rw [process_eq]
  set s' := (g.preds w).foldl (SemiForest.improve t w) s
  have hσsize : σ w < g.size := hg.reached_lt ((h.numbered _).1 (hσ w hw).pos)
  obtain ⟨hppos, hplt, -⟩ := h.parent w hw
  have hpsize : t.parentOf w < g.size := hg.reached_lt ((h.numbered _).1 hppos)
  have hin := hi.mem_joined hsw hσsize
  have hwait := hi.mem_waitingAt_linkUp hsw hσsize hpsize
  have hlater := hi.later_linkUp h (by omega) hsw
  have hwaiting := hp.waiting hi hsw hσsize
  have hend := (hi.concluding hg h hw hp.sound).foldl_conclude hg h hσ hw hlater _ hwaiting
  set final := ((s'.joined w).getD (t.parentOf w) []).foldl
    (SemiForest.conclude t (t.parentOf w)) (s'.linkUp t w)
  have hfwait : ∀ b, final.waitingAt b = (s'.linkUp t w).waitingAt b := by
    intro b
    rw [waitingAt, hend.bucket]
    rfl
  have hsemi : ∀ u, final.semiOf u = (s'.linkUp t w).semiOf u := by
    intro u
    rw [SemiForest.semiOf, hend.semi]
    rfl
  -- what was decided before stays decided
  have hkept : ∀ v, (s.idomOf v).isSome → (final.idomOf v).isSome := by
    intro v hv
    apply hend.kept
    show (s'.idom.getD v none).isSome = true
    rw [hi.idom]
    exact hv
  refine ⟨hend.sized, hend.linked, ?_, ?_, ?_, ?_, hend.sound⟩
  · intro u hu
    rw [hsemi]
    exact hlater u (by omega)
  · intro u hu hui
    rw [hsemi]
    have hne : u ≠ w := by
      rintro rfl
      omega
    exact hi.earlier u hu (by omega) hne
  · intro b v hv
    rw [hfwait, hwait] at hv
    obtain ⟨hbp, hv⟩ := hv
    -- a child of another node is another node, so it has not been dealt with
    have hchild : ∀ x, t.parentOf x = b → x ≠ w := by
      rintro x hx rfl
      exact hbp hx.symm
    rcases hv with hv | ⟨rfl, hb⟩
    · obtain ⟨h1, h2, h3⟩ := hp.waits b v hv
      refine ⟨by omega, h2, fun x hx hxv hxb => ?_⟩
      have hle := h3 x hx hxv hxb
      have hne : t.numberOf x ≠ t.numberOf w := fun hc =>
        hchild x hxb (h.eq_of_number (by omega) hc)
      omega
    · refine ⟨by omega, hb.symm, fun x hx hxv hxb => ?_⟩
      have := h.anc_lt hxv (by omega) (hchild x hxb)
      omega
  · intro v hv
    rw [hfwait, hwait]
    -- a node dealt with before waits or is decided, and the new one waits
    have hknown : (v ∈ s.waitingAt (σ v) ∨ (v = w ∧ σ v = σ w)) ∨ (s.idomOf v).isSome := by
      by_cases hvw : v = w
      · exact .inl (.inr ⟨hvw, by rw [hvw]⟩)
      · have hneq : t.numberOf v ≠ t.numberOf w := fun hc => hvw (h.eq_of_number (by omega) hc)
        rcases hp.known v (by omega) with hk | hk
        · exact .inl (.inl hk)
        · exact .inr hk
    rcases hknown with hk | hk
    · by_cases hσp : σ v = t.parentOf w
      · -- whoever waited for the parent has been decided now
        right
        rw [← hin, hσp] at hk
        exact hend.decided v (by simpa using hk)
      · exact .inl ⟨hσp, hk⟩
    · exact .inr (hkept v hk)

end SemiForest

end Digraph

end SsaBackend
