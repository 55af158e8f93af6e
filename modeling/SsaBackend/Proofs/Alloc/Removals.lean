import Mathlib.Data.List.Nodup
import SsaBackend.Proofs.Alloc.Degrees
import SsaBackend.Proofs.Alloc.Promised

/-!
# The rule of simplification

What is removed next depends only on the registers that are left (`Intervals.Picks`): the
lowest-numbered of those that are live together with fewer others than there are colours, or,
where there is none, the lightest, and the lowest-numbered of those that weigh the same. The
graph finds it by the degrees of its vertices, which count registers that are left
(`InterferenceGraph.Removes.degree_eq`), and by taking the vertices in order, which is the order
of the registers. So every removal follows the rule (`InterferenceGraph.simplify_follows`).
-/

namespace SsaBackend

/-! ## The rule -/

namespace Intervals

variable (ivs : Intervals) (colors : Nat) (left : List VirtReg)

/-- The weight of a register; one that there is not weighs infinitely much. -/
def weight (r : VirtReg) : Weight := (ivs.get? r).elim .infinity (·.weight)

/-- The register is live together with fewer others of those that are left than there are
colours. -/
def Easy (r : VirtReg) : Prop := left.countP (ivs.Cross r) < colors

/-- The register is the one to remove from those that are left, and `spill` tells whether it may
have to be spilled. -/
structure Picks (r : VirtReg) (spill : Bool) : Prop where
  mem : r ∈ left
  /-- Where some are easy, it is the lowest-numbered of them. -/
  easy : (∃ q ∈ left, ivs.Easy colors left q) → spill = false ∧ ivs.Easy colors left r ∧
    ∀ q ∈ left, ivs.Easy colors left q → r.index ≤ q.index
  /-- Where none is, no other is lighter, and of those that are no heavier none has a lower
  number. -/
  hard : (∀ q ∈ left, ¬ ivs.Easy colors left q) → spill = true ∧
    (∀ q ∈ left, (ivs.weight r).le (ivs.weight q) = true) ∧
    ∀ q ∈ left, (ivs.weight q).le (ivs.weight r) = true → r.index ≤ q.index

variable {ivs colors left}

/-- In which order the registers are that are left makes no difference. -/
lemma Picks.perm {left' : List VirtReg} (hperm : left.Perm left') {r : VirtReg} {spill : Bool}
    (h : ivs.Picks colors left r spill) : ivs.Picks colors left' r spill := by
  have heasy : ∀ q, ivs.Easy colors left q ↔ ivs.Easy colors left' q := by
    intro q
    unfold Easy
    rw [hperm.countP_eq]
  refine ⟨hperm.mem_iff.1 h.mem, ?_, ?_⟩
  · simpa only [heasy, hperm.mem_iff] using h.easy
  · simpa only [heasy, hperm.mem_iff] using h.hard

end Intervals

/-- The order of removals has the registers that are live somewhere, each once, and each was
picked from those that stand at its place and behind it. Those that may have to be spilled are
listed in the same order. -/
structure Simplification.Follows (s : Simplification) (ivs : Intervals) (colors : Nat) :
    Prop where
  nodup : s.order.Nodup
  mem : ∀ r, r ∈ s.order ↔ ∃ li, ivs.get? r = some li ∧ li.segments ≠ []
  priority : ∀ (i : Nat) r, s.order[i]? = some r → s.priority r = i + 1
  absent : ∀ r, r ∉ s.order → s.priority r = 0
  picked : ∀ (i : Nat) r, s.order[i]? = some r →
    ivs.Picks colors (s.order.drop i) r (decide (r ∈ s.potentialSpills))
  spills : s.potentialSpills.Sublist s.order

/-! ## The vertex that is removed next -/

/-- Numbers are ordered by their values. -/
lemma Weight.le_iff {a b : Weight} (ha : a.isNaN = false) (hb : b.isNaN = false) :
    a.le b = true ↔ a.units ≤ b.units := by
  simp [Weight.le, ha, hb]

namespace InterferenceGraph

open Simplifying

section Next

variable {weight : Nat → Weight} {g : InterferenceGraph} {ivs : Intervals} {colors v : Nat}

/-- Of vertices in ascending order the lightest is found, and the first of those that weigh the
same. -/
lemma foldl_lighter_first (hnum : ∀ v, (weight v).isNaN = false) {b : Nat} {l : List Nat}
    (hl : (b :: l).Pairwise (· < ·)) (h : l.foldl (lighter weight) (some b) = some v) :
    ∀ u ∈ b :: l, (weight v).units < (weight u).units ∨
      (weight v).units = (weight u).units ∧ v ≤ u := by
  induction l generalizing b with
  | nil =>
    cases h
    intro u hu
    cases List.mem_singleton.1 hu
    exact .inr ⟨rfl, Nat.le_refl _⟩
  | cons w rest ih =>
    obtain ⟨hb, hrest⟩ := List.pairwise_cons.1 hl
    have hbw := hb w List.mem_cons_self
    rw [List.foldl_cons, lighter] at h
    -- the one that is dropped is compared through the one that stays
    by_cases hle : (weight b).units ≤ (weight w).units
    · rw [if_pos ((Weight.le_iff (hnum b) (hnum w)).2 hle)] at h
      have hleast := ih (List.pairwise_cons.2 ⟨fun u hu => hb u (List.mem_cons_of_mem _ hu),
        (List.pairwise_cons.1 hrest).2⟩) h
      have hvb := hleast b List.mem_cons_self
      rintro u (_ | ⟨_, _ | ⟨_, hu⟩⟩)
      · exact hvb
      · omega
      · exact hleast u (List.mem_cons_of_mem _ hu)
    · rw [if_neg fun h => hle ((Weight.le_iff (hnum b) (hnum w)).1 h)] at h
      have hleast := ih hrest h
      have hvw := hleast w List.mem_cons_self
      rintro u (_ | ⟨_, hu⟩)
      · omega
      · exact hleast u hu

/-- The vertex to remove next is the first with few neighbours, or else the lightest, and the
first of those that weigh the same. -/
lemma next?_first (hnum : ∀ v, (g.weightOf ivs v).isNaN = false) {spill : Bool}
    (h : g.next? ivs colors = some (v, spill)) :
    (spill = false ∧ g.degree v < colors ∧
      ∀ w ∈ g.present.toList, g.degree w < colors → v ≤ w) ∨
    (spill = true ∧ (∀ w ∈ g.present.toList, ¬ g.degree w < colors) ∧
      ∀ w ∈ g.present.toList, (g.weightOf ivs v).units < (g.weightOf ivs w).units ∨
        (g.weightOf ivs v).units = (g.weightOf ivs w).units ∧ v ≤ w) := by
  have hsorted := g.present.pairwise_toList
  unfold next? at h
  simp only at h
  -- vertices are looked at in ascending order, so what stands further back has a higher number
  generalize g.present.toList = present at h hsorted
  split at h
  · rename_i u hu
    cases h
    left
    obtain ⟨hfew, front, back, rfl, hfront⟩ := List.find?_eq_some_iff_append.1 hu
    refine ⟨rfl, by simpa using hfew, ?_⟩
    intro w hw hlt
    rcases List.mem_append.1 hw with hw | hw
    · exact absurd hlt (by simpa using hfront w hw)
    · rcases List.mem_cons.1 hw with rfl | hw
      · exact Nat.le_refl _
      · exact ((List.pairwise_cons.1 (List.pairwise_append.1 hsorted).2.1).1 w hw).le
  · rename_i hnone
    right
    obtain ⟨u, hu, he⟩ := Option.map_eq_some_iff.1 h
    cases he
    refine ⟨rfl, by simpa using hnone, ?_⟩
    cases present with
    | nil => cases hu
    | cons b rest => exact foldl_lighter_first hnum hsorted hu

end Next

/-! ## Every removal follows the rule -/

variable {ivs : Intervals} {colors : Nat} {s s' : Simplifying}

/-- Every removal of the list, latest first, is one that the rule picks from those that were
left. -/
def Picked (ivs : Intervals) (colors : Nat) (ms : List Removal) : Prop :=
  ∀ m before, m :: before <:+ ms →
    ivs.Picks colors (ivs.rest (before.map (·.reg))) m.reg m.spill

lemma isNaN_weightOf (hnum : ∀ r li, ivs.get? r = some li → li.weight.isNaN = false)
    (g : InterferenceGraph) (v : Nat) : (g.weightOf ivs v).isNaN = false := by
  unfold weightOf
  cases hli : (g.reg? v).bind ivs.get? with
  | none => decide
  | some li =>
    obtain ⟨r, -, hr⟩ := Option.bind_eq_some_iff.1 hli
    exact hnum r li hr

namespace Removes

variable {v : Nat} {lv : Interval} (hs : Removes ivs colors s)

include hs

/-- The registers that are left are those of the vertices that are present. -/
lemma mem_rest_iff (h : ivs.Sound) (hv : ivs.live[v]? = some lv) :
    lv.reg ∈ ivs.rest (s.removals.map (·.reg)) ↔ v ∈ s.graph.present.toList := by
  have hne : lv.segments ≠ [] := by
    have := (Array.mem_filter.1 (Array.mem_of_getElem? hv)).2
    simpa [Interval.isEmpty] using this
  rw [h.mem_rest, BitSet.mem_toList_iff_bit, hs.bit_iff hv]
  exact and_iff_right ⟨lv, h.get?_of_live hv, hne⟩

lemma exists_vertex (h : ivs.Sound) {q : VirtReg}
    (hq : q ∈ ivs.rest (s.removals.map (·.reg))) :
    ∃ w lw, ivs.live[w]? = some lw ∧ lw.reg = q ∧ w ∈ s.graph.present.toList := by
  obtain ⟨⟨lq, hlq, hne⟩, -⟩ := h.mem_rest.1 hq
  obtain ⟨w, hw⟩ := Intervals.Sound.exists_live hlq hne
  have hreg := h.named q lq hlq
  exact ⟨w, lq, hw, hreg, (hs.mem_rest_iff h hw).1 (hreg.symm ▸ hq)⟩

lemma easy_iff (h : ivs.Sound) (hv : ivs.live[v]? = some lv) :
    ivs.Easy colors (ivs.rest (s.removals.map (·.reg))) lv.reg ↔ s.graph.degree v < colors := by
  rw [hs.degree_eq h hv]
  exact Iff.rfl

lemma weightOf_eq (hv : ivs.live[v]? = some lv) :
    s.graph.weightOf ivs v = ivs.weight lv.reg := by
  have hreg : s.graph.reg? v = some lv.reg := by
    show s.graph.regs[v]? = _
    rw [hs.removing.regs, regs_build, hv, Option.map_some]
  unfold weightOf Intervals.weight
  rw [hreg, Option.bind_some]

/-- The vertex to remove next is that of the register that the rule picks. -/
lemma picks (h : ivs.Sound)
    (hnum : ∀ r li, ivs.get? r = some li → li.weight.isNaN = false) {spill : Bool}
    (hv : ivs.live[v]? = some lv) (hnext : s.graph.next? ivs colors = some (v, spill)) :
    ivs.Picks colors (ivs.rest (s.removals.map (·.reg))) lv.reg spill := by
  have hmem := (hs.mem_rest_iff h hv).2 (mem_of_next? hnext)
  have hnumber := isNaN_weightOf hnum s.graph
  refine ⟨hmem, ?_, ?_⟩
  · rintro ⟨q, hq, hqeasy⟩
    rcases next?_first hnumber hnext with ⟨hspill, hfew, hfirst⟩ | ⟨-, hmany, -⟩
    · refine ⟨hspill, (hs.easy_iff h hv).2 hfew, ?_⟩
      intro q hq hqeasy
      obtain ⟨w, lw, hw, rfl, hpresent⟩ := hs.exists_vertex h hq
      exact h.live_le hv hw (hfirst w hpresent ((hs.easy_iff h hw).1 hqeasy))
    · obtain ⟨w, lw, hw, rfl, hpresent⟩ := hs.exists_vertex h hq
      exact absurd ((hs.easy_iff h hw).1 hqeasy) (hmany w hpresent)
  · intro hnone
    rcases next?_first hnumber hnext with ⟨-, hfew, -⟩ | ⟨hspill, -, hleast⟩
    · exact absurd ((hs.easy_iff h hv).2 hfew) (hnone lv.reg hmem)
    · refine ⟨hspill, ?_, ?_⟩
      · intro q hq
        obtain ⟨w, lw, hw, rfl, hpresent⟩ := hs.exists_vertex h hq
        have hvw := hleast w hpresent
        rw [← hs.weightOf_eq hv, ← hs.weightOf_eq hw, Weight.le_iff (hnumber v) (hnumber w)]
        omega
      · -- one that is no heavier weighs the same, and so comes later
        intro q hq hle
        obtain ⟨w, lw, hw, rfl, hpresent⟩ := hs.exists_vertex h hq
        have hvw := hleast w hpresent
        rw [← hs.weightOf_eq hv, ← hs.weightOf_eq hw, Weight.le_iff (hnumber w) (hnumber v)] at hle
        exact h.live_le hv hw (by omega)

end Removes

lemma Picked.step (h : ivs.Sound)
    (hnum : ∀ r li, ivs.get? r = some li → li.weight.isNaN = false) (hs : Removes ivs colors s)
    (hpicked : Picked ivs colors s.removals) (hstep : step ivs colors s = some s') :
    Picked ivs colors s'.removals := by
  obtain ⟨v, spill, r, hnext, hr, rfl⟩ := step_eq hstep
  obtain ⟨lv, hv, rfl⟩ : ∃ lv, ivs.live[v]? = some lv ∧ lv.reg = r := by
    rw [hs.removing.regs, regs_build] at hr
    exact Option.map_eq_some_iff.1 hr
  intro m before hsuf
  rcases List.suffix_cons_iff.1 hsuf with he | hsuf
  · cases he
    exact hs.picks h hnum hv hnext
  · exact hpicked m before hsuf

/-- Simplification makes only removals that the rule picks, until nothing is present. -/
theorem simplify_picked (h : ivs.Sound)
    (hnum : ∀ r li, ivs.get? r = some li → li.weight.isNaN = false) (colors : Nat) :
    Picked ivs colors ((build ivs).simplify ivs colors).1.removals.reverse ∧
      ((build ivs).simplify ivs colors).2.present.toList = [] := by
  have hnil : Picked ivs colors [] := by
    intro m before hsuf
    cases List.suffix_nil.1 hsuf
  obtain ⟨done, hdone, -, hend, hnone⟩ := simplify_ends ivs colors
    (P := fun s => Removes ivs colors s ∧ Picked ivs colors s.removals)
    ⟨removes_build ivs colors, hnil⟩
    fun _ _ _ hs hstep => ⟨hs.1.step h hstep, hs.2.step h hnum hs.1 hstep⟩
  rw [hdone]
  refine ⟨?_, hnone⟩
  show Picked ivs colors (List.reverse (List.reverse _))
  rw [List.reverse_reverse]
  exact hend.2

end InterferenceGraph

/-! ## The order as a whole -/

namespace Simplification

variable {s : Simplification}

lemma priority_of_notMem {r : VirtReg} (h : r ∉ s.order) : s.priority r = 0 := by
  have hnone : s.order.findIdx? (· = r) = none := by
    rw [List.findIdx?_eq_none_iff]
    intro q hq
    exact decide_eq_false fun he => h (he ▸ hq)
  unfold priority
  rw [hnone]
  rfl

/-- A register that is removed once is listed by what its removal says. -/
lemma mem_potentialSpills (h : s.order.Nodup) {m : Removal} (hm : m ∈ s.removals) :
    m.reg ∈ s.potentialSpills ↔ m.spill = true := by
  unfold potentialSpills
  rw [List.mem_map]
  constructor
  · rintro ⟨m', hm', hreg⟩
    obtain ⟨hmem, hspill⟩ := List.mem_filter.1 hm'
    rwa [← List.inj_on_of_nodup_map h hmem hm hreg]
  · intro hspill
    exact ⟨m, List.mem_filter.2 ⟨hm, hspill⟩, rfl⟩

lemma potentialSpills_sublist (s : Simplification) : s.potentialSpills.Sublist s.order :=
  List.filter_sublist.map _

end Simplification

section Rest

variable {ivs : Intervals}

lemma Intervals.rest_reverse (gone : List VirtReg) : ivs.rest gone.reverse = ivs.rest gone := by
  simp [rest]

lemma Intervals.Sound.nodup_rest (h : ivs.Sound) (gone : List VirtReg) :
    (ivs.rest gone).Nodup := by
  refine List.Nodup.filter _ (List.pairwise_map.2 ?_)
  unfold Intervals.live
  rw [Array.toList_filter]
  exact h.pairwise_reg.sublist List.filter_sublist

/-- If a list has the registers that are live somewhere, each once, those that are left after
some of its first are gone are the others. -/
lemma Intervals.Sound.rest_take_perm (h : ivs.Sound) {order : List VirtReg} (hnodup : order.Nodup)
    (hmem : ∀ r, r ∈ order ↔ ∃ li, ivs.get? r = some li ∧ li.segments ≠ []) (i : Nat) :
    (ivs.rest (order.take i)).Perm (order.drop i) := by
  refine (List.perm_ext_iff_of_nodup (h.nodup_rest _)
    (hnodup.sublist (List.drop_sublist i _))).2 fun q => ?_
  rw [h.mem_rest, ← hmem]
  have hsplit := List.take_append_drop i order
  -- no register stands on both sides of the place
  have hapart := (List.nodup_append.1 (hsplit.symm ▸ hnodup)).2.2
  constructor
  · rintro ⟨hq, hnot⟩
    rw [← hsplit] at hq
    exact (List.mem_append.1 hq).resolve_left hnot
  · intro hq
    exact ⟨List.mem_of_mem_drop hq, fun ht => hapart q ht q hq rfl⟩

end Rest

namespace InterferenceGraph

/-- The order of removals has the registers that are live somewhere. -/
lemma mem_order_iff {ivs : Intervals} (h : ivs.Sound) (colors : Nat) (r : VirtReg) :
    r ∈ ((build ivs).simplify ivs colors).1.order ↔
      ∃ li, ivs.get? r = some li ∧ li.segments ≠ [] := by
  constructor
  · intro hr
    obtain ⟨m, hm, rfl⟩ := List.mem_map.1 hr
    obtain ⟨front, back, hsplit⟩ := List.append_of_mem (List.mem_reverse.2 hm)
    exact (simplify_counted h colors m back ⟨front, hsplit.symm⟩).live
  · rintro ⟨li, hli, hne⟩
    rw [← h.named r li hli]
    exact mem_order ivs colors (Array.mem_toList_iff.2 (Array.mem_of_getElem? hli)) hne

/-- The removal at a place is one that the rule picks when the registers in front of it are gone. -/
lemma Picked.getElem? {ivs : Intervals} {colors : Nat} {ms : List Removal}
    (h : Picked ivs colors ms.reverse) {i : Nat} {m : Removal} (hm : ms[i]? = some m) :
    ivs.Picks colors (ivs.rest ((ms.map (·.reg)).take i)) m.reg m.spill := by
  have hsuffix : m :: (ms.take i).reverse <:+ ms.reverse := by
    have htake : (ms.take (i + 1)).reverse = m :: (ms.take i).reverse := by
      rw [List.take_add_one, hm, Option.toList_some, List.reverse_concat]
    exact htake ▸ List.reverse_suffix.2 (List.take_prefix _ _)
  have hpicks := h m _ hsuffix
  rwa [List.map_reverse, Intervals.rest_reverse, List.map_take] at hpicks

/-- Simplification ends when nothing is present any more. Its order has exactly the registers
that are live somewhere, and each is the one that the rule picks from those that were left when
it was removed. -/
theorem simplify_follows {ivs : Intervals} (hbuilt : ivs.Built)
    (hnum : ∀ r li, ivs.get? r = some li → li.weight.isNaN = false) (colors : Nat) :
    (∀ v, ((build ivs).simplify ivs colors).2.isPresent v = false) ∧
      ((build ivs).simplify ivs colors).1.Follows ivs colors := by
  have hsound := hbuilt.sound
  obtain ⟨hpicked, hnone⟩ := simplify_picked hsound hnum colors
  have hmem := mem_order_iff hsound colors
  have hnodup : ((build ivs).simplify ivs colors).1.order.Nodup := by
    have := (simplify_counted hsound colors).nodup
    rwa [List.map_reverse, List.nodup_reverse] at this
  -- from here on only what is known of the order counts, not how it came about
  generalize (build ivs).simplify ivs colors = done at hpicked hnone hmem hnodup
  obtain ⟨s, g⟩ := done
  refine ⟨?_, hnodup, hmem, ?_, fun r => s.priority_of_notMem, ?_, s.potentialSpills_sublist⟩
  · intro v
    by_contra hpresent
    rw [Bool.not_eq_false] at hpresent
    have hbit : g.present.bit v = true := (Bool.and_eq_true_iff.1 hpresent).2
    exact List.eq_nil_iff_forall_not_mem.1 hnone v ((BitSet.mem_toList_iff_bit _ v).2 hbit)
  · intro i r hr
    obtain ⟨hi, rfl⟩ := List.getElem?_eq_some_iff.1 hr
    exact s.priority_getElem hnodup hi
  · intro i r hr
    obtain ⟨m, hm, rfl⟩ : ∃ m, s.removals[i]? = some m ∧ m.reg = r := by
      rwa [Simplification.order, List.getElem?_map, Option.map_eq_some_iff] at hr
    have hspill : decide (m.reg ∈ s.potentialSpills) = m.spill := by
      rw [Bool.eq_iff_iff, decide_eq_true_iff]
      exact Simplification.mem_potentialSpills hnodup (List.mem_of_getElem? hm)
    rw [hspill]
    exact (hpicked.getElem? hm).perm (hsound.rest_take_perm hnodup hmem i)

/-! ## Ties and registers that are live nowhere -/

/-- Of five registers the second is live nowhere and the last is live alone. The other three
cross one another, and two of them weigh nothing, one with each sign. -/
def tangled : Intervals :=
  { intervals := #[
      { reg := ⟨0⟩, segments := [⟨0, 6⟩, ⟨10, 14⟩], weight := .ofNat 2 },
      { reg := ⟨1⟩ },
      { reg := ⟨2⟩, segments := [⟨4, 12⟩], weight := .zero },
      { reg := ⟨3⟩, segments := [⟨8, 20⟩], weight := ⟨0x80000000⟩ },
      { reg := ⟨4⟩, segments := [⟨20, 24⟩], weight := .infinity }]
    values := #[none, none, none, none, none] }

lemma tangled_built : tangled.Built := by
  have hall : ∀ r li, tangled.get? r = some li → li.reg = r ∧ ∃ ranges : List (Nat × Nat),
      li.segments = (ranges.foldl (fun l e => l.addSegment e.1 e.2) li.clear).segments := by
    intro r li h
    rcases r with ⟨_ | _ | _ | _ | _ | n⟩
    · cases h; exact ⟨rfl, [(10, 14), (0, 6)], rfl⟩
    · cases h; exact ⟨rfl, [], rfl⟩
    · cases h; exact ⟨rfl, [(4, 12)], rfl⟩
    · cases h; exact ⟨rfl, [(8, 20)], rfl⟩
    · cases h; exact ⟨rfl, [(20, 24)], rfl⟩
    · cases h
  exact ⟨fun r li h => (hall r li h).1, fun r li h => (hall r li h).2⟩

/-- With one colour the register that is live alone goes first, then the two that weigh nothing,
in the order of their numbers, and then nobody is left to cross the first. -/
theorem simplify_follows_tangled :
    tangled.Built ∧ (∀ r li, tangled.get? r = some li → li.weight.isNaN = false) ∧
      ((build tangled).simplify tangled 1).1.order = [⟨4⟩, ⟨2⟩, ⟨3⟩, ⟨0⟩] ∧
      ((build tangled).simplify tangled 1).1.potentialSpills = [⟨2⟩, ⟨3⟩] ∧
      (∀ v, ((build tangled).simplify tangled 1).2.isPresent v = false) ∧
      ((build tangled).simplify tangled 1).1.Follows tangled 1 := by
  have hnum : ∀ r li, tangled.get? r = some li → li.weight.isNaN = false := by
    intro r li h
    rcases r with ⟨_ | _ | _ | _ | _ | n⟩ <;> cases h <;> decide +kernel
  exact ⟨tangled_built, hnum, by decide +kernel, by decide +kernel,
    simplify_follows tangled_built hnum 1⟩

end InterferenceGraph

end SsaBackend
