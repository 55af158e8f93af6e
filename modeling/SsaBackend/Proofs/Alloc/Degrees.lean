import SsaBackend.Proofs.Alloc.Placement
import SsaBackend.Proofs.Alloc.Simplification

/-!
# What a removal counts

The degree of a vertex when it is removed from the interference graph is the number of registers
that are live together with its own and were not removed before it. Vertices and registers are
numbered differently where some register is live nowhere; `Removes.degree_eq` reads the number off
the graph, whose rows have an entry for every pair of vertices, in terms of registers. What a
coloring needs of it is kept for every removal (`Counted`). The removals are looked at latest
first, so that those before a removal are what stands behind it in the list.
-/

namespace SsaBackend

/-! ## Vertices and registers -/

/-- The registers that are live somewhere, in order. -/
def Intervals.live (ivs : Intervals) : Array Interval := ivs.intervals.filter (!·.isEmpty)

namespace Intervals.Sound

variable {ivs : Intervals}

lemma get?_of_live (h : ivs.Sound) {v : Nat} {li : Interval} (hv : ivs.live[v]? = some li) :
    ivs.get? li.reg = some li := by
  refine h.get?_of_mem ?_
  have hmem := (Array.mem_filter.1 (Array.mem_of_getElem? hv)).1
  exact Array.mem_toList_iff.2 hmem

lemma exists_live {r : VirtReg} {li : Interval} (hr : ivs.get? r = some li)
    (hne : li.segments ≠ []) : ∃ v : Nat, ivs.live[v]? = some li := by
  refine Array.mem_iff_getElem?.1 (Array.mem_filter.2 ⟨Array.mem_of_getElem? hr, ?_⟩)
  simpa [Interval.isEmpty] using hne

/-- Vertices stand in the order of their registers. -/
lemma live_lt (h : ivs.Sound) {v w : Nat} {a b : Interval} (hv : ivs.live[v]? = some a)
    (hw : ivs.live[w]? = some b) (hvw : v < w) : a.reg.index < b.reg.index := by
  have hpair : ivs.live.toList.Pairwise fun a b => a.reg.index < b.reg.index := by
    unfold live
    rw [Array.toList_filter]
    exact h.pairwise_index.sublist List.filter_sublist
  rw [← Array.getElem?_toList] at hv hw
  obtain ⟨hvlt, rfl⟩ := List.getElem?_eq_some_iff.1 hv
  obtain ⟨hwlt, rfl⟩ := List.getElem?_eq_some_iff.1 hw
  exact List.pairwise_iff_getElem.1 hpair v w hvlt hwlt hvw

lemma live_le (h : ivs.Sound) {v w : Nat} {a b : Interval} (hv : ivs.live[v]? = some a)
    (hw : ivs.live[w]? = some b) (hvw : v ≤ w) : a.reg.index ≤ b.reg.index := by
  rcases Nat.lt_or_eq_of_le hvw with hlt | rfl
  · exact (h.live_lt hv hw hlt).le
  · cases hv.symm.trans hw
    exact Nat.le_refl _

/-- A register has one vertex. -/
lemma live_inj (h : ivs.Sound) {v w : Nat} {a b : Interval} (hv : ivs.live[v]? = some a)
    (hw : ivs.live[w]? = some b) (hab : a.reg = b.reg) : v = w := by
  by_contra hvw
  rcases Nat.lt_or_gt_of_ne hvw with hlt | hlt
  · exact Nat.ne_of_lt (h.live_lt hv hw hlt) (congrArg VirtReg.index hab)
  · exact Nat.ne_of_gt (h.live_lt hw hv hlt) (congrArg VirtReg.index hab)

end Intervals.Sound

/-- Two intervals have a common slot if some segment of one begins before some segment of the
other ends, and the other way round. -/
lemma Interval.meets_iff {a b : Interval} : a.Meets b ↔
    ∃ x ∈ a.segments, ∃ y ∈ b.segments, max x.start y.start < min x.stop y.stop := by
  constructor
  · rintro ⟨slot, ⟨x, hx, hxlo, hxhi⟩, y, hy, hylo, hyhi⟩
    exact ⟨x, hx, y, hy, by omega⟩
  · rintro ⟨x, hx, y, hy, hlt⟩
    exact ⟨max x.start y.start, ⟨x, hx, by omega, by omega⟩, y, hy, by omega, by omega⟩

instance (a b : Interval) : Decidable (a.Meets b) := decidable_of_iff' _ Interval.meets_iff

/-- The two registers are different and live at a common slot. -/
def Intervals.Cross (ivs : Intervals) (r q : VirtReg) : Prop :=
  r ≠ q ∧ ∃ lr lq, ivs.get? r = some lr ∧ ivs.get? q = some lq ∧ lr.Meets lq

instance (ivs : Intervals) (r q : VirtReg) : Decidable (ivs.Cross r q) :=
  decidable_of_iff (r ≠ q ∧ ∃ lr ∈ ivs.get? r, ∃ lq ∈ ivs.get? q, lr.Meets lq)
    (by simp [Intervals.Cross])

/-- The registers that are live somewhere and are not among those that are gone, in order. -/
def Intervals.rest (ivs : Intervals) (gone : List VirtReg) : List VirtReg :=
  (ivs.live.toList.map (·.reg)).filter (· ∉ gone)

lemma Intervals.Sound.mem_rest {ivs : Intervals} (h : ivs.Sound) {gone : List VirtReg}
    {q : VirtReg} : q ∈ ivs.rest gone ↔
      (∃ lq, ivs.get? q = some lq ∧ lq.segments ≠ []) ∧ q ∉ gone := by
  unfold Intervals.rest
  rw [List.mem_filter, List.mem_map, decide_eq_true_iff]
  refine and_congr_left fun _ => ⟨?_, ?_⟩
  · rintro ⟨li, hli, rfl⟩
    obtain ⟨hmem, hne⟩ := Array.mem_filter.1 (Array.mem_toList_iff.1 hli)
    exact ⟨li, h.get?_of_mem (Array.mem_toList_iff.2 hmem), by simpa [Interval.isEmpty] using hne⟩
  · rintro ⟨lq, hlq, hne⟩
    obtain ⟨v, hv⟩ := exists_live hlq hne
    exact ⟨lq, Array.mem_toList_iff.2 (Array.mem_of_getElem? hv), h.named q lq hlq⟩

namespace InterferenceGraph

open Simplifying

lemma regs_build (ivs : Intervals) (v : Nat) :
    (build ivs).regs[v]? = ivs.live[v]?.map (·.reg) := Array.getElem?_map

lemma size_build (ivs : Intervals) : (build ivs).size = ivs.live.size := Array.size_map

/-- Intervals are compared one way round only, which makes no difference. -/
lemma interfere_iff {ivs : Intervals} (h : ivs.Sound) {v w : Nat} {lv lw : Interval}
    (hv : ivs.live[v]? = some lv) (hw : ivs.live[w]? = some lw) :
    interfere ivs.live v w = true ↔ ivs.Cross lv.reg lw.reg := by
  have hgetv := h.get?_of_live hv
  have hgetw := h.get?_of_live hw
  have hsv := h.separated _ _ hgetv
  have hsw := h.separated _ _ hgetw
  have hcross : ivs.Cross lv.reg lw.reg ↔ v ≠ w ∧ lv.Meets lw := by
    have hne : lv.reg ≠ lw.reg ↔ v ≠ w := by
      refine not_congr ⟨h.live_inj hv hw, ?_⟩
      rintro rfl
      rw [Option.some.inj (hv.symm.trans hw)]
    simp [Intervals.Cross, hne, hgetv, hgetw]
  rw [hcross]
  unfold interfere
  rcases Nat.le_or_ge v w with hle | hle
  · rw [Nat.min_eq_left hle, Nat.max_eq_right hle, hv, hw]
    simp [Interval.overlaps_iff hsv hsw]
  · rw [Nat.min_eq_right hle, Nat.max_eq_left hle, hv, hw]
    simp [Interval.overlaps_iff hsw hsv, Interval.Meets.comm]

/-- The row of a vertex has the vertices of the registers that are live together with its own. -/
lemma rows_build {ivs : Intervals} (h : ivs.Sound) {v : Nat} {lv : Interval}
    (hv : ivs.live[v]? = some lv) :
    ∃ row, (build ivs).rows[v]? = some row ∧ row.Over (build ivs).size ∧
      ∀ w lw, ivs.live[w]? = some lw → (row.bit w = true ↔ ivs.Cross lv.reg lw.reg) := by
  have hlt := (Array.getElem?_eq_some_iff.1 hv).1
  refine ⟨(BitSet.empty ivs.live.size).insertAll
    ((List.range ivs.live.size).filter (interfere ivs.live v)), ?_, ?_, ?_⟩
  · show ((Array.range ivs.live.size).map _)[v]? = some _
    rw [Array.getElem?_map, Array.getElem?_range, if_pos hlt, Option.map_some]
    rfl
  · rw [size_build]
    exact (BitSet.Over.empty _).insertAll _
  · intro w lw hw
    have hwlt := (Array.getElem?_eq_some_iff.1 hw).1
    rw [(BitSet.Over.empty _).bit_insertAll fun i hi => List.mem_range.1 (List.mem_filter.1 hi).1,
      BitSet.bit_empty, Bool.false_or, decide_eq_true_iff, List.mem_filter, List.mem_range,
      interfere_iff h hv hw]
    exact and_iff_right hwlt

/-! ## Removals -/

/-- The removal, made after those of `before`, is that of a register that is live somewhere, and
counts the registers that are live together with it and were not removed before. -/
structure Counts (ivs : Intervals) (colors : Nat) (before : List Removal) (m : Removal) : Prop where
  fresh : m.reg ∉ before.map (·.reg)
  live : ∃ li, ivs.get? m.reg = some li ∧ li.segments ≠ []
  degree : ∀ l : List VirtReg, l.Nodup → (∀ q ∈ l, ivs.Cross m.reg q ∧ q ∉ before.map (·.reg)) →
    l.length ≤ m.degree
  trivial : m.spill = false → m.degree < colors

/-- Every removal of the list, latest first, counts. -/
def Counted (ivs : Intervals) (colors : Nat) (ms : List Removal) : Prop :=
  ∀ m before, m :: before <:+ ms → Counts ivs colors before m

section Counted

variable {ivs : Intervals} {colors : Nat} {m : Removal} {ms : List Removal}

lemma Counted.tail (h : Counted ivs colors (m :: ms)) : Counted ivs colors ms :=
  fun m' before hsuf => h m' before (hsuf.trans (List.suffix_cons m ms))

lemma Counted.head (h : Counted ivs colors (m :: ms)) : Counts ivs colors ms m :=
  h m ms List.suffix_rfl

/-- No register is removed twice. -/
lemma Counted.nodup (h : Counted ivs colors ms) : (ms.map (·.reg)).Nodup := by
  induction ms with
  | nil => exact List.Pairwise.nil
  | cons m ms ih => exact List.nodup_cons.2 ⟨h.head.fresh, ih h.tail⟩

end Counted

/-- Simplification in progress: a vertex is present unless its register has been removed. -/
structure Removes (ivs : Intervals) (colors : Nat) (s : Simplifying) : Prop where
  removing : Removing (build ivs) s
  rows : s.graph.rows = (build ivs).rows
  absent : ∀ v li, ivs.live[v]? = some li → li.reg ∈ s.removals.map (·.reg) →
    s.graph.present.bit v = false
  counted : Counted ivs colors s.removals

variable {ivs : Intervals} {colors : Nat} {s s' : Simplifying}

/-- A vertex with few neighbours is one with fewer than there are colours. -/
lemma degree_lt_of_next? {g : InterferenceGraph} {v : Nat}
    (h : g.next? ivs colors = some (v, false)) : g.degree v < colors := by
  unfold next? at h
  simp only at h
  split at h
  · rename_i u hu
    cases h
    simpa using List.find?_some hu
  · obtain ⟨u, -, he⟩ := Option.map_eq_some_iff.1 h
    cases he

/-- A vertex is present exactly as long as its register has not been removed. -/
lemma Removes.bit_iff (hs : Removes ivs colors s) {v : Nat} {lv : Interval}
    (hv : ivs.live[v]? = some lv) :
    s.graph.present.bit v = true ↔ lv.reg ∉ s.removals.map (·.reg) := by
  constructor
  · intro hb hmem
    rw [hs.absent v lv hv hmem] at hb
    cases hb
  · intro hnot
    have hreg : (build ivs).regs[v]? = some lv.reg := by rw [regs_build, hv, Option.map_some]
    rcases hs.removing.listed v lv.reg hreg with hb | ⟨m, hm, hmq⟩
    · exact hb
    · exact absurd (List.mem_map.2 ⟨m, hm, hmq⟩) hnot

/-- The degree of a vertex is the number of registers that are live together with its own and
were not removed. -/
lemma Removes.degree_eq (h : ivs.Sound) (hs : Removes ivs colors s) {v : Nat} {lv : Interval}
    (hv : ivs.live[v]? = some lv) :
    s.graph.degree v = (ivs.rest (s.removals.map (·.reg))).countP (ivs.Cross lv.reg) := by
  obtain ⟨row, hrow, hrowOver, hrowBit⟩ := rows_build h hv
  have hdegree : s.graph.degree v = row.interCount s.graph.present := by
    unfold degree
    rw [hs.rows, hrow, Option.elim_some]
  rw [hdegree, BitSet.interCount_eq hrowOver, size_build]
  unfold Intervals.rest
  rw [List.countP_filter, List.countP_map, ← Array.length_toList]
  refine countP_range fun w lw hw => ?_
  rw [Array.getElem?_toList] at hw
  rw [Bool.eq_iff_iff, Bool.and_eq_true, hrowBit w lw hw, hs.bit_iff hw]
  simp

/-- Registers that are live together with one and were not removed are counted. -/
lemma Removes.length_le_degree (h : ivs.Sound) (hs : Removes ivs colors s) {v : Nat} {lv : Interval}
    (hv : ivs.live[v]? = some lv) {l : List VirtReg} (hl : l.Nodup)
    (hcross : ∀ q ∈ l, ivs.Cross lv.reg q ∧ q ∉ s.removals.map (·.reg)) :
    l.length ≤ s.graph.degree v := by
  rw [hs.degree_eq h hv, List.countP_eq_length_filter]
  refine (hl.subperm fun q hq => ?_).length_le
  obtain ⟨hc, hnot⟩ := hcross q hq
  have hlive : ∃ lq, ivs.get? q = some lq ∧ lq.segments ≠ [] := by
    obtain ⟨-, -, lq, -, hlq, slot, -, x, hx, -⟩ := hc
    exact ⟨lq, hlq, List.ne_nil_of_mem hx⟩
  exact List.mem_filter.2 ⟨h.mem_rest.2 ⟨hlive, hnot⟩, decide_eq_true hc⟩

lemma Removes.step (h : ivs.Sound) (hs : Removes ivs colors s)
    (hstep : step ivs colors s = some s') : Removes ivs colors s' := by
  have hremoving := hs.removing.step hstep
  obtain ⟨v, spill, r, hnext, hr, rfl⟩ := step_eq hstep
  have hbit := (BitSet.mem_toList_iff_bit _ v).1 (mem_of_next? hnext)
  have hover : s.graph.present.Over (build ivs).size := ⟨hs.removing.valid, hs.removing.capacity⟩
  obtain ⟨lv, hv, rfl⟩ : ∃ lv, ivs.live[v]? = some lv ∧ lv.reg = r := by
    rw [hs.removing.regs, regs_build] at hr
    exact Option.map_eq_some_iff.1 hr
  refine ⟨hremoving, hs.rows, ?_, ?_⟩
  · intro w lw hw hmem
    show (s.graph.present.erase v).bit w = false
    rw [hover.bit_erase (hover.bit_lt hbit)]
    rcases List.mem_cons.1 hmem with he | hmem
    · rw [h.live_inj hw hv he]
      simp
    · rw [hs.absent w lw hw hmem, Bool.false_and]
  · intro m before hsuf
    rcases List.suffix_cons_iff.1 hsuf with he | hsuf
    · cases he
      refine ⟨?_, ⟨lv, h.get?_of_live hv, ?_⟩, ?_, ?_⟩
      · intro hmem
        rw [hs.absent v lv hv hmem] at hbit
        cases hbit
      · have := (Array.mem_filter.1 (Array.mem_of_getElem? hv)).2
        simpa [Interval.isEmpty] using this
      · intro l hl hcross
        exact hs.length_le_degree h hv hl hcross
      · rintro rfl
        exact degree_lt_of_next? hnext
    · exact hs.counted m before hsuf

lemma removes_build (ivs : Intervals) (colors : Nat) : Removes ivs colors ⟨build ivs, []⟩ := by
  refine ⟨removing_build ivs, rfl, ?_, ?_⟩
  · intro v li hv hmem
    cases hmem
  · intro m before hsuf
    cases List.suffix_nil.1 hsuf

/-- Simplification makes only removals that count. -/
theorem simplify_counted (h : ivs.Sound) (colors : Nat) :
    Counted ivs colors ((build ivs).simplify ivs colors).1.removals.reverse := by
  obtain ⟨done, hdone, -, hend, -⟩ := simplify_ends ivs colors (removes_build ivs colors)
    fun _ _ _ hs hstep => hs.step h hstep
  rw [hdone]
  show Counted ivs colors (List.reverse (List.reverse _))
  rw [List.reverse_reverse]
  exact hend.counted

end InterferenceGraph

end SsaBackend
