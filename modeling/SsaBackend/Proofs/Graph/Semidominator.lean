import SsaBackend.Proofs.Graph.SpanTree

/-!
# Semidominators

The semidominator of a node is the node with the smallest number from which a path leads to
it over inner nodes with larger numbers than its own. This module has the theory of the
algorithm, apart from its tables: how semidominators are found from those of later nodes
(`Spans.isSemi_of_least`), and how immediate dominators are found from semidominators
(`Spans.immediate_of_semi`, `Spans.immediate_of_lower`).

One step carries it. A path that comes from a node `x` and stays above a number `k` passes
a node `u` above its end such that from `x` to `u` it even stays above the number of `u`;
`Spans.above_step` lengthens such a path by an edge.
-/

namespace SsaBackend

namespace Digraph

/-- A path of one edge or more from `v` to `w` whose inner nodes are numbered above `k`. -/
inductive High (g : Digraph) (num : Nat → Nat) (k v : Nat) : Nat → Prop
  | edge {w : Nat} (h : g.Edge v w) : High g num k v w
  | snoc {x w : Nat} (h : High g num k v x) (hx : k < num x) (he : g.Edge x w) :
    High g num k v w

/-- The semidominator of `w` is `s`. -/
structure IsSemi (g : Digraph) (t : SpanTree) (s w : Nat) : Prop where
  pos : 0 < t.numberOf s
  high : g.High t.numberOf (t.numberOf w) s w
  least : ∀ v, 0 < t.numberOf v → g.High t.numberOf (t.numberOf w) v w →
    t.numberOf s ≤ t.numberOf v

/-- The immediate dominator of `n` is `d`: it dominates `n`, is another node, and every
other strict dominator of `n` dominates it. -/
def IsImmediate (g : Digraph) (d n : Nat) : Prop :=
  StrictlyDominates g.Edge g.entry d n ∧
    ∀ e, StrictlyDominates g.Edge g.entry e n → g.Dom e d

variable {g : Digraph} {t : SpanTree}

lemma High.mono {num : Nat → Nat} {j k v w : Nat} (h : g.High num k v w) (hjk : j ≤ k) :
    g.High num j v w := by
  induction h with
  | edge he => exact .edge he
  | snoc _ hx he ih => exact .snoc ih (by omega) he

/-- A dominator of the end that is no inner node dominates the beginning. -/
lemma High.dom {num : Nat → Nat} {k v w z : Nat} (h : g.High num k v w) (hz : num z ≤ k)
    (hne : z ≠ w) (hd : g.Dom z w) : g.Dom z v := by
  induction h with
  | edge he => exact hd.of_edge hne he
  | @snoc x w _ hx he ih =>
    have hzx : z ≠ x := by
      rintro rfl
      omega
    exact ih hzx (hd.of_edge hne he)

namespace Spans

/-! ## Paths that stay above a number -/

/-- Such a path can go on down the tree from its end. -/
lemma high_down (h : g.Spans t) {k v u y : Nat} (hv : g.High t.numberOf k v u)
    (hu : k < t.numberOf u) (ha : Anc t.numberOf t.parentOf u y) (hy : 0 < t.numberOf y) :
    g.High t.numberOf k v y := by
  induction ha with
  | refl => exact hv
  | @up y h1 hp ih =>
    obtain ⟨hpos, _, he⟩ := h.parent y h1
    have hle := (h.anc_le hp hpos).2
    exact .snoc (ih hpos) (by omega) he

/-- If nothing on the path is numbered below its beginning, the path stays in the tree below
its beginning. -/
lemma anc_of_high (h : g.Spans t) {k v w : Nat} (hv : g.High t.numberOf k v w)
    (hpos : 0 < t.numberOf v) (hk : t.numberOf v ≤ k) (hw : t.numberOf v ≤ t.numberOf w) :
    Anc t.numberOf t.parentOf v w ∧ 0 < t.numberOf w := by
  -- one edge more: down the tree, or back to a number that the subtree covers
  have key : ∀ x w, Anc t.numberOf t.parentOf v x → 0 < t.numberOf x → g.Edge x w →
      t.numberOf v ≤ t.numberOf w → Anc t.numberOf t.parentOf v w := by
    intro x w hx hxpos he hvw
    rcases Nat.lt_or_ge (t.numberOf x) (t.numberOf w) with hlt | hge
    · exact hx.trans (h.forward x w hxpos he hlt)
    · exact h.anc_of_between hx hxpos hvw hge
  induction hv with
  | edge he => exact ⟨key v _ .refl hpos he hw, h.pos_of_edge hpos he⟩
  | @snoc x w _ hx he ih =>
    obtain ⟨hanc, hxpos⟩ := ih (by omega)
    exact ⟨key x w hanc hxpos he hw, h.pos_of_edge hxpos he⟩

/-- One edge more on a path from `x` that passes, above its end, a node `u` up to which it
stays above the number of `u`. -/
lemma above_step (h : g.Spans t) {k x u v w : Nat} (hu : Anc t.numberOf t.parentOf u v)
    (hku : k < t.numberOf u) (hx : g.High t.numberOf (t.numberOf u) x u)
    (hv : 0 < t.numberOf v) (he : g.Edge v w) (hkw : k < t.numberOf w) :
    ∃ y, Anc t.numberOf t.parentOf y w ∧ k < t.numberOf y ∧
      g.High t.numberOf (t.numberOf y) x y := by
  rcases Nat.lt_or_ge (t.numberOf v) (t.numberOf w) with hlt | hge
  · exact ⟨u, hu.trans (h.forward v w hv he hlt), hku, hx⟩
  · rcases Nat.lt_or_ge (t.numberOf w) (t.numberOf u) with hwu | huw
    · -- the end itself is numbered below everything since `x`
      have hdown : g.High t.numberOf (t.numberOf w) x v :=
        h.high_down (hx.mono (by omega)) hwu hu hv
      have hvu := (h.anc_le hu hv).2
      exact ⟨w, .refl, hkw, .snoc hdown (by omega) he⟩
    · exact ⟨u, h.anc_of_between hu hv huw hge, hku, hx⟩

/-- A path that stays above `k`, its end included, passes above its end a node up to which it
stays above that node's number. -/
lemma exists_above (h : g.Spans t) {k v x : Nat}
    (hx : g.High t.numberOf k v x) (hk : k < t.numberOf x) :
    0 < t.numberOf x ∧ ∃ u, Anc t.numberOf t.parentOf u x ∧ k < t.numberOf u ∧
      g.High t.numberOf (t.numberOf u) v u := by
  induction hx with
  | edge he => exact ⟨by omega, _, .refl, hk, .edge he⟩
  | @snoc y x _ hy he ih =>
    obtain ⟨hpos, u, hu, hku, hhigh⟩ := ih hy
    exact ⟨by omega, h.above_step hu hku hhigh hpos he hk⟩

/-- A path around `z` to a node numbered after `z` passes above its end a node `u` numbered
after `z`, to which a path from a node numbered before `z` stays above the number of `u`. -/
lemma exists_around (h : g.Spans t) {z n : Nat} {l : List Nat} (hz : 0 < t.numberOf z)
    (hl : Route g.Edge g.entry (n :: l)) (hzl : z ∉ n :: l) :
    t.numberOf n < t.numberOf z ∨
      ∃ x u, 0 < t.numberOf x ∧ t.numberOf x < t.numberOf z ∧
        Anc t.numberOf t.parentOf u n ∧ t.numberOf z < t.numberOf u ∧
        g.High t.numberOf (t.numberOf u) x u := by
  generalize hm : n :: l = m at hl hzl
  induction hl generalizing n l with
  | start =>
    left
    obtain ⟨rfl, -⟩ := List.cons.inj hm
    have hne : t.numberOf z ≠ 1 := by
      intro h1
      rw [h.eq_entry h1] at hzl
      exact hzl (List.mem_singleton_self _)
    have h1 := h.entry
    omega
  | @step v w l' walk last ih =>
    obtain ⟨rfl, -⟩ := List.cons.inj hm
    obtain ⟨hzn, hzv⟩ := not_or.1 (fun hc => hzl (List.mem_cons.2 hc))
    have hvpos : 0 < t.numberOf v := (h.numbered v).2 ⟨_, walk⟩
    have hnpos := h.pos_of_edge hvpos last
    have hneq : t.numberOf z ≠ t.numberOf n := fun he => hzn (h.eq_of_number hz he)
    rcases Nat.lt_or_ge (t.numberOf n) (t.numberOf z) with hlt | hge
    · exact Or.inl hlt
    · right
      rcases ih rfl hzv with hv | ⟨x, u, hxpos, hxz, hu, hzu, hhigh⟩
      · exact ⟨v, n, hvpos, hv, .refl, by omega, .edge last⟩
      · obtain ⟨y, hy, hzy, hyh⟩ := h.above_step hu hzu hhigh hvpos last (by omega)
        exact ⟨x, y, hxpos, hxz, hy, hzy, hyh⟩

/-! ## Finding semidominators -/

/-- A semidominator has a smaller number, and is above its node in the tree. -/
lemma semi_lt (h : g.Spans t) {s w : Nat} (hs : g.IsSemi t s w) (hw : 1 < t.numberOf w) :
    t.numberOf s < t.numberOf w ∧ Anc t.numberOf t.parentOf s w := by
  obtain ⟨hp, hlt, he⟩ := h.parent w hw
  have hle := hs.least _ hp (.edge he)
  have hsw : t.numberOf s < t.numberOf w := by omega
  exact ⟨hsw, (h.anc_of_high hs.high hs.pos (by omega) (by omega)).1⟩

/-- A candidate is the semidominator if it is no larger than the edges into the node from
smaller numbers, and than the semidominators of the later nodes above an edge into it. -/
lemma isSemi_of_least (h : g.Spans t) {σ : Nat → Nat} {c w : Nat} (hw : 1 < t.numberOf w)
    (hσ : ∀ u, t.numberOf w < t.numberOf u → g.IsSemi t (σ u) u) (hc : 0 < t.numberOf c)
    (hhigh : g.High t.numberOf (t.numberOf w) c w)
    (hedge : ∀ v, 0 < t.numberOf v → g.Edge v w → t.numberOf v ≤ t.numberOf w →
      t.numberOf c ≤ t.numberOf v)
    (hsemi : ∀ v u, 0 < t.numberOf v → g.Edge v w → Anc t.numberOf t.parentOf u v →
      t.numberOf w < t.numberOf u → t.numberOf c ≤ t.numberOf (σ u)) :
    g.IsSemi t c w := by
  refine ⟨hc, hhigh, ?_⟩
  intro v hv hvw
  cases hvw with
  | edge he =>
    rcases Nat.lt_or_ge (t.numberOf w) (t.numberOf v) with hlt | hge
    · have h1 := hsemi v v hv he .refl hlt
      have h2 := (h.semi_lt (hσ v hlt) (by omega)).1
      omega
    · exact hedge v hv he hge
  | @snoc x _ hx hwx he =>
    obtain ⟨hpos, u, hu, hwu, huv⟩ := h.exists_above hx hwx
    have h1 := hsemi x u hpos he hu hwu
    have h2 := (hσ u hwu).least v hv huv
    omega

/-- The semidominator of a later node above an edge into `w` is a candidate for `w`. -/
lemma high_of_semi (h : g.Spans t) {s u v w : Nat} (hs : g.IsSemi t s u)
    (hu : Anc t.numberOf t.parentOf u v) (hv : 0 < t.numberOf v) (he : g.Edge v w)
    (hwu : t.numberOf w < t.numberOf u) : g.High t.numberOf (t.numberOf w) s w := by
  have hle := (h.anc_le hu hv).2
  have hdown := h.high_down (hs.high.mono (j := t.numberOf w) (by omega)) hwu hu hv
  exact .snoc hdown (by omega) he

/-! ## Finding immediate dominators -/

/-- Every strict dominator of a node dominates its semidominator. -/
lemma dom_semi (h : g.Spans t) {s w e : Nat} (hs : g.IsSemi t s w) (hw : 1 < t.numberOf w)
    (he : StrictlyDominates g.Edge g.entry e w) : g.Dom e s := by
  have hanc := h.anc_of_dom (n := w) (by omega) he.2
  have hle := (h.anc_le hanc (by omega)).2
  exact hs.high.dom hle he.1 he.2

/-- If a node above `w` and numbered before it does not dominate `w`, some node between them
has a semidominator numbered before it. -/
lemma exists_lower (h : g.Spans t) {σ : Nat → Nat} (hσ : ∀ u, 1 < t.numberOf u →
    g.IsSemi t (σ u) u) {z w : Nat} (hz : 0 < t.numberOf z)
    (hzw : t.numberOf z < t.numberOf w) (hd : ¬ g.Dom z w) :
    ∃ y, Anc t.numberOf t.parentOf y w ∧ t.numberOf z < t.numberOf y ∧
      t.numberOf (σ y) < t.numberOf z := by
  obtain ⟨l, hl, hzl⟩ : ∃ l, Route g.Edge g.entry (w :: l) ∧ z ∉ w :: l := by
    by_contra hc
    refine hd fun l hl => ?_
    by_contra hzl
    exact hc ⟨l, hl, hzl⟩
  rcases h.exists_around hz hl hzl with hlt | ⟨x, y, hxpos, hxz, hy, hzy, hhigh⟩
  · omega
  · have h1 := (hσ y (by omega)).least x hxpos hhigh
    exact ⟨y, hy, hzy, by omega⟩

/-- If no node between its semidominator and `w` has an earlier one, the semidominator of `w`
is its immediate dominator. -/
lemma immediate_of_semi (h : g.Spans t) {σ : Nat → Nat} (hσ : ∀ u, 1 < t.numberOf u →
    g.IsSemi t (σ u) u) {w : Nat} (hw : 1 < t.numberOf w)
    (hleast : ∀ u, Anc t.numberOf t.parentOf u w → t.numberOf (σ w) < t.numberOf u →
      t.numberOf (σ w) ≤ t.numberOf (σ u)) : g.IsImmediate (σ w) w := by
  have hs := hσ w hw
  have hlt := (h.semi_lt hs hw).1
  have hdom : g.Dom (σ w) w := by
    by_contra hd
    obtain ⟨y, hy, hsy, hyl⟩ := h.exists_lower hσ hs.pos hlt hd
    have := hleast y hy hsy
    omega
  refine ⟨⟨?_, hdom⟩, fun e he => h.dom_semi hs hw he⟩
  intro heq
  rw [heq] at hlt
  omega

/-- If `u` has the earliest semidominator of the nodes between the semidominator of `w` and
`w`, and it is earlier than that of `w`, the two have one immediate dominator. -/
lemma immediate_of_lower (h : g.Spans t) {σ : Nat → Nat} (hσ : ∀ u, 1 < t.numberOf u →
    g.IsSemi t (σ u) u) {w u d : Nat} (hw : 1 < t.numberOf w)
    (hu : Anc t.numberOf t.parentOf u w) (hsu : t.numberOf (σ w) < t.numberOf u)
    (hleast : ∀ y, Anc t.numberOf t.parentOf y w → t.numberOf (σ w) < t.numberOf y →
      t.numberOf (σ u) ≤ t.numberOf (σ y))
    (hlow : t.numberOf (σ u) < t.numberOf (σ w)) (hd : g.IsImmediate d u) :
    g.IsImmediate d w := by
  have hs := hσ w hw
  have hpos := hs.pos
  have hwpos : 0 < t.numberOf w := by omega
  have hu1 : 1 < t.numberOf u := by omega
  have hsw := h.semi_lt hs hw
  have hsemi := hσ u hu1
  -- `d` is above the semidominator of `u`, hence numbered before that of `w`
  have hdu := h.dom_semi hsemi hu1 hd.1
  have hdanc := h.anc_of_dom hsemi.pos hdu
  obtain ⟨hdpos, hdle⟩ := h.anc_le hdanc hsemi.pos
  have hdom : g.Dom d w := by
    by_contra hnd
    obtain ⟨y, hy, hdy, hyl⟩ := h.exists_lower hσ hdpos (by omega) hnd
    rcases Nat.lt_or_ge (t.numberOf (σ w)) (t.numberOf y) with hlt | hge
    · have := hleast y hy hlt
      omega
    · -- `y` is above `u`, and from its semidominator a path leads around `d` to it
      have hyu : Anc t.numberOf t.parentOf y u := h.anc_of_le hy hu hwpos (by omega)
      have hdomy := h.dom_of_anc hyu (by omega) hdy hd.1.2
      have hy1 : 1 < t.numberOf y := by omega
      have hne : d ≠ y := by
        rintro rfl
        omega
      have hdoms := (hσ y hy1).high.dom (by omega) hne hdomy
      have hle := (h.anc_le (h.anc_of_dom (hσ y hy1).pos hdoms) (hσ y hy1).pos).2
      omega
  refine ⟨⟨?_, hdom⟩, ?_⟩
  · rintro rfl
    omega
  · intro e he
    -- a strict dominator of `w` is above its semidominator, and dominates `u` as well
    have hes := h.dom_semi hs hw he
    have hele := (h.anc_le (h.anc_of_dom hpos hes) hpos).2
    refine hd.2 e ⟨?_, h.dom_of_anc hu hwpos (by omega) he.2⟩
    rintro rfl
    omega

end Spans

end Digraph

end SsaBackend
