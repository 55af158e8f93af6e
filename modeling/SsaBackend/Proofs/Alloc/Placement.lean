import SsaBackend.Alloc.Matrix
import SsaBackend.Proofs.Alloc.Spilling
import SsaBackend.Proofs.Tables

/-!
# Registers in their places

`Placement` is what holds of the occupants of the physical registers at any time: the two
tables of a matrix agree, a register that has a place fits there, and no two registers in one
place are live at a common slot. Putting a register into a place that was found free keeps it
(`Placement.assign`), as do taking a register out (`Placement.unassign`) and spilling one that
has no place (`Placement.spill`).
-/

namespace SsaBackend

open Segment

/-- The two registers are live at a common slot. -/
def Interval.Meets (a b : Interval) : Prop :=
  ∃ slot, LiveAt a.segments slot ∧ LiveAt b.segments slot

lemma Interval.Meets.symm {a b : Interval} (h : a.Meets b) : b.Meets a := by
  obtain ⟨slot, ha, hb⟩ := h
  exact ⟨slot, hb, ha⟩

lemma Interval.Meets.comm {a b : Interval} : a.Meets b ↔ b.Meets a := ⟨.symm, .symm⟩

/-- The test for common slots is exact for separated segments. -/
lemma Interval.overlaps_iff {a b : Interval} (ha : Separated a.segments)
    (hb : Separated b.segments) : a.overlaps b = true ↔ a.Meets b :=
  segmentsOverlap_iff ha.ordered hb.ordered

/-- The physical register is one of the class of `li` that may be handed out, and is not taken
at a slot of `li`. -/
structure Target.Fits (t : Target) (li : Interval) (p : PhysReg) : Prop where
  inClass : t.inClass li.regClass p = true
  unreserved : t.isReserved p = false
  free : ∀ e ∈ t.fixed, e.1 = p → ∀ slot, LiveAt li.segments slot → ¬ e.2.Has slot

/-- The physical register is one of the class of `li` that may be handed out, and the test finds
no crossing with a range at which it is taken. -/
structure Target.Seats (t : Target) (li : Interval) (p : PhysReg) : Prop where
  inClass : t.inClass li.regClass p = true
  unreserved : t.isReserved p = false
  clear : ∀ e ∈ t.fixed, e.1 = p → segmentsOverlap li.segments [e.2] = false

/-- Where no range is empty, the test for crossings is one for common slots. -/
lemma Target.seats_iff {t : Target} (hfix : ∀ e ∈ t.fixed, e.2.start < e.2.stop) {li : Interval}
    (hli : Separated li.segments) {p : PhysReg} : t.Seats li p ↔ t.Fits li p := by
  have hone : ∀ e ∈ t.fixed, segmentsOverlap li.segments [e.2] = false ↔
      ∀ slot, LiveAt li.segments slot → ¬ e.2.Has slot := by
    intro e he
    rw [← Bool.not_eq_true, segmentsOverlap_iff hli.ordered (Ordered.singleton (hfix e he))]
    simp [LiveAt]
  constructor
  · intro h
    exact ⟨h.inClass, h.unreserved, fun e he hep => (hone e he).1 (h.clear e he hep)⟩
  · intro h
    exact ⟨h.inClass, h.unreserved, fun e he hep => (hone e he).2 (h.free e he hep)⟩

/-! ## Registers of a target -/

namespace Target

lemma le_foldl_max {l : List Nat} {n m : Nat} (h : n ∈ l ∨ n ≤ m) : n ≤ l.foldl max m := by
  induction l generalizing m with
  | nil =>
    rcases h with h | h
    · cases h
    · exact h
  | cons a rest ih =>
    rw [List.foldl_cons]
    apply ih
    rcases h with h | h
    · rcases List.mem_cons.1 h with h | h
      · right
        omega
      · exact .inl h
    · right
      omega

/-- A register of a class is below the number of registers. -/
lemma lt_numRegs {t : Target} {c : Nat} {p : PhysReg} (h : t.inClass c p = true) :
    p.index < t.numRegs := by
  unfold inClass at h
  cases hc : t.classes[c]? with
  | none => simp [hc] at h
  | some cls =>
    have hmem : p ∈ cls.regs := by simpa [hc] using h
    have hin : p.index + 1 ∈ (t.classes.flatMap (·.regs)).map (·.index + 1) :=
      List.mem_map.2 ⟨p, List.mem_flatMap.2 ⟨cls, List.mem_of_getElem? hc, hmem⟩, rfl⟩
    exact le_foldl_max (.inl hin)

lemma candidates_spec {t : Target} {c : Nat} {p : PhysReg} (h : p ∈ t.candidates c) :
    t.inClass c p = true ∧ t.isReserved p = false := by
  unfold candidates at h
  obtain ⟨hmem, hres⟩ := List.mem_filter.1 h
  refine ⟨?_, by simpa using hres⟩
  cases hc : t.classes[c]? with
  | none => simp [hc] at hmem
  | some cls =>
    rw [hc, Option.elim_some] at hmem
    simpa [inClass, hc] using hmem

end Target

/-! ## The two tables of a matrix -/

namespace RegMatrix

lemma assigned?_assign {m : RegMatrix} {p : PhysReg} (hp : p.index < m.units.size)
    (r q : VirtReg) : (m.assign r p).assigned? q = if q = r then some p else m.assigned? q := by
  unfold assign assigned?
  rw [if_pos hp, NatMap.get?_insert]
  simp only [VirtReg.index_inj]

lemma assigned?_unassign (m : RegMatrix) (r q : VirtReg) :
    (m.unassign r).assigned? q = if q = r then none else m.assigned? q := by
  unfold unassign
  split
  · rename_i h
    split
    · rename_i hq
      rw [hq, h]
    · rfl
  · unfold assigned?
    rw [NatMap.get?_erase]
    simp only [VirtReg.index_inj]

lemma size_assign (m : RegMatrix) (r : VirtReg) (p : PhysReg) :
    (m.assign r p).units.size = m.units.size := by
  unfold assign
  split <;> simp

lemma size_unassign (m : RegMatrix) (r : VirtReg) : (m.unassign r).units.size = m.units.size := by
  unfold unassign
  split <;> simp

lemma fixed_assign (m : RegMatrix) (r : VirtReg) (p : PhysReg) :
    (m.assign r p).fixed = m.fixed := by
  unfold assign
  split <;> rfl

lemma fixed_unassign (m : RegMatrix) (r : VirtReg) : (m.unassign r).fixed = m.fixed := by
  unfold unassign
  split <;> rfl

lemma mem_units_assign {m : RegMatrix} {p : PhysReg} (hp : p.index < m.units.size)
    (r q : VirtReg) (i : Nat) :
    q ∈ (m.assign r p).units.getD i [] ↔ q ∈ m.units.getD i [] ∨ (q = r ∧ i = p.index) := by
  unfold assign
  rw [if_pos hp]
  simp only [getD_modify]
  by_cases hi : p.index = i
  · subst hi
    simp [hp]
  · rw [if_neg (fun h => hi h.1)]
    simp [Ne.symm hi]

/-- The fixed ranges of a register are those the target names. -/
lemma mem_fixed_ofTarget {t : Target} {p : PhysReg} (hp : p.index < t.numRegs) (s : Segment) :
    s ∈ (ofTarget t).fixed.getD p.index [] ↔ (p, s) ∈ t.fixed := by
  unfold ofTarget
  simp only [Array.getD_eq_getD_getElem?, Array.getElem?_map, Array.getElem?_range, hp, if_true,
    Option.map_some, Option.getD_some, mem_sort, List.mem_filterMap]
  constructor
  · intro h
    obtain ⟨⟨q, u⟩, he, hq⟩ := h
    split at hq
    · rename_i hidx
      cases hq
      have hq : q = p := PhysReg.index_inj.1 hidx
      exact hq ▸ he
    · cases hq
  · intro h
    exact ⟨(p, s), h, by simp⟩

/-- The fixed ranges of a register are kept in the order of their starts. -/
lemma starts_fixed_ofTarget {t : Target} {p : PhysReg} (hp : p.index < t.numRegs) :
    ((ofTarget t).fixed.getD p.index []).Pairwise fun a b => a.start ≤ b.start := by
  unfold ofTarget
  simp only [Array.getD_eq_getD_getElem?, Array.getElem?_map, Array.getElem?_range, hp, if_true,
    Option.map_some, Option.getD_some]
  exact starts_sort _

end RegMatrix

/-! ## The invariant -/

/-- Every register is named by its place in the table and has separated segments. -/
structure Intervals.Sound (ivs : Intervals) : Prop where
  named : ∀ r li, ivs.get? r = some li → li.reg = r
  separated : ∀ r li, ivs.get? r = some li → Separated li.segments

namespace Intervals.Sound

variable {ivs : Intervals}

lemma reg_getElem (h : ivs.Sound) (i : Nat) (hi : i < ivs.toList.length) :
    (ivs.toList[i]).reg = ⟨i⟩ := by
  apply h.named ⟨i⟩
  show ivs.intervals[i]? = some _
  simp [toList]

/-- An interval is found under its name. -/
lemma get?_of_mem (h : ivs.Sound) {li : Interval} (hli : li ∈ ivs.toList) :
    ivs.get? li.reg = some li := by
  obtain ⟨i, hi, rfl⟩ := List.mem_iff_getElem.1 hli
  rw [h.reg_getElem i hi]
  show ivs.intervals[i]? = some _
  simp [toList]

/-- Intervals are named by their places, so their names rise. -/
lemma pairwise_index (h : ivs.Sound) :
    ivs.toList.Pairwise fun a b => a.reg.index < b.reg.index := by
  rw [List.pairwise_iff_getElem]
  intro i j hi hj hij
  rwa [h.reg_getElem i hi, h.reg_getElem j hj]

/-- No two intervals have one name. -/
lemma pairwise_reg (h : ivs.Sound) : ivs.toList.Pairwise fun a b => a.reg ≠ b.reg :=
  h.pairwise_index.imp fun hlt he => Nat.ne_of_lt hlt (congrArg VirtReg.index he)

end Intervals.Sound

/-- The tables of a matrix agree, and every register that has a place fits there and is never
live together with another one in the same place. -/
structure Placement (t : Target) (ivs : Intervals) (m : RegMatrix) : Prop where
  size : m.units.size = t.numRegs
  fixed : m.fixed = (RegMatrix.ofTarget t).fixed
  listed : ∀ r p, r ∈ m.units.getD p.index [] ↔ m.assigned? r = some p
  placed : ∀ r p, m.assigned? r = some p → ∃ li, ivs.get? r = some li ∧ t.Seats li p
  apart : ∀ r q p li lq, r ≠ q → m.assigned? r = some p → m.assigned? q = some p →
    ivs.get? r = some li → ivs.get? q = some lq → ¬ li.Meets lq

lemma placement_ofTarget (t : Target) (ivs : Intervals) :
    Placement t ivs (RegMatrix.ofTarget t) := by
  have hnone : ∀ r, (RegMatrix.ofTarget t).assigned? r = none := fun r => NatMap.get?_empty r.index
  have hunits : ∀ i, (RegMatrix.ofTarget t).units.getD i [] = [] := fun i => getD_replicate _ i []
  refine ⟨by simp [RegMatrix.ofTarget], rfl, ?_, ?_, ?_⟩
  · intro r p
    rw [hunits, hnone]
    simp
  · intro r p h
    rw [hnone] at h
    cases h
  · intro r q p li lq _ h
    rw [hnone] at h
    cases h

namespace Placement

variable {t : Target} {ivs ivs' : Intervals} {m : RegMatrix}

/-- What the test says about a physical register from which all occupants in the way are
gone. -/
lemma seats_of_check (hm : Placement t ivs m) (hsound : ivs.Sound) {r : VirtReg} {li : Interval}
    (hr : ivs.get? r = some li) {p : PhysReg} (hp : p ∈ t.candidates li.regClass)
    (hcheck : segmentsOverlap li.segments (m.fixed.getD p.index []) = false) : t.Seats li p := by
  obtain ⟨hc, hres⟩ := Target.candidates_spec hp
  have hlt := Target.lt_numRegs hc
  refine ⟨hc, hres, ?_⟩
  intro e he hep
  have hstarts := (hsound.separated r li hr).ordered.starts
  have hsorted := RegMatrix.starts_fixed_ofTarget hlt
  have hmem : e.2 ∈ (RegMatrix.ofTarget t).fixed.getD p.index [] := by
    rw [RegMatrix.mem_fixed_ofTarget hlt, ← hep]
    exact he
  rw [hm.fixed, ← Bool.not_eq_true, segmentsOverlap_crosses hstarts hsorted] at hcheck
  rw [← Bool.not_eq_true, segmentsOverlap_crosses hstarts (List.pairwise_singleton ..)]
  rintro ⟨a, ha, b, hb, hcross⟩
  rw [List.mem_singleton.1 hb] at hcross
  exact hcheck ⟨a, ha, e.2, hmem, hcross⟩

/-- A register without a place may be put where it fits and meets no occupant. -/
lemma assign (hm : Placement t ivs m) {r : VirtReg} {li : Interval} {p : PhysReg}
    (hr : ivs.get? r = some li) (hnone : m.assigned? r = none) (hfits : t.Seats li p)
    (hfree : ∀ q lq, m.assigned? q = some p → ivs.get? q = some lq → ¬ li.Meets lq) :
    Placement t ivs (m.assign r p) := by
  have hsize : p.index < m.units.size := by
    rw [hm.size]
    exact Target.lt_numRegs hfits.inClass
  have hget := RegMatrix.assigned?_assign hsize r
  refine ⟨by rw [RegMatrix.size_assign, hm.size], by rw [RegMatrix.fixed_assign, hm.fixed],
    ?_, ?_, ?_⟩
  · intro q p'
    rw [RegMatrix.mem_units_assign hsize, hget, hm.listed]
    by_cases hq : q = r
    · subst hq
      simp [hnone, PhysReg.index_inj, eq_comm]
    · simp [hq]
  · intro q p' hq
    rw [hget] at hq
    split at hq
    · rename_i hqr
      cases hq
      exact ⟨li, hqr ▸ hr, hfits⟩
    · exact hm.placed q p' hq
  · intro a b p' la lb hab ha hb hga hgb
    rw [hget] at ha hb
    -- at most one of the two is the new occupant
    by_cases har : a = r
    · subst har
      rw [if_pos rfl] at ha
      rw [if_neg (Ne.symm hab)] at hb
      cases ha
      rw [hr] at hga
      cases hga
      exact hfree b lb hb hgb
    · rw [if_neg har] at ha
      by_cases hbr : b = r
      · subst hbr
        rw [if_pos rfl] at hb
        cases hb
        rw [hr] at hgb
        cases hgb
        exact fun hmeet => hfree a la ha hga hmeet.symm
      · rw [if_neg hbr] at hb
        exact hm.apart a b p' la lb hab ha hb hga hgb

/-- A register may be taken out of its place. -/
lemma unassign (hm : Placement t ivs m) (r : VirtReg) : Placement t ivs (m.unassign r) := by
  have hget := RegMatrix.assigned?_unassign m r
  have hold : ∀ q p, (m.unassign r).assigned? q = some p → m.assigned? q = some p := by
    intro q p h
    rw [hget] at h
    split at h
    · cases h
    · exact h
  refine ⟨by rw [RegMatrix.size_unassign, hm.size], by rw [RegMatrix.fixed_unassign, hm.fixed],
    ?_, fun q p h => hm.placed q p (hold q p h),
    fun a b p la lb hab ha hb => hm.apart a b p la lb hab (hold a p ha) (hold b p hb)⟩
  intro q p
  rw [hget]
  cases hr : m.assigned? r with
  | none =>
    -- what has no place cannot be taken out of one
    have hsame : m.unassign r = m := by
      unfold RegMatrix.unassign
      rw [hr]
    rw [hsame, hm.listed]
    split
    · rename_i hq
      rw [hq, hr]
    · exact Iff.rfl
  | some pr =>
    have hunits : (m.unassign r).units = m.units.modify pr.index (·.filter (· ≠ r)) := by
      unfold RegMatrix.unassign
      rw [hr]
    rw [hunits, getD_modify]
    by_cases hq : q = r
    · -- the register itself is listed at its old place only, and is taken from that list
      subst hq
      simp only [if_true]
      by_cases hi : pr.index = p.index ∧ p.index < m.units.size
      · rw [if_pos hi]
        simp
      · rw [if_neg hi, hm.listed, hr]
        have hne : pr ≠ p := by
          intro he
          subst he
          apply hi
          refine ⟨rfl, ?_⟩
          have hmem := (hm.listed q pr).2 hr
          by_contra hge
          rw [Array.getD_eq_getD_getElem?, Array.getElem?_eq_none (by omega)] at hmem
          cases hmem
        simpa using hne
    · rw [if_neg hq, ← hm.listed]
      split
      · simp [hq]
      · exact Iff.rfl

/-- A register that has no place may be spilled. -/
lemma spill (hm : Placement t ivs m) {r : VirtReg} {li : Interval} {products : List VirtReg}
    (hrep : Replaced ivs ivs' r li products) (hnone : m.assigned? r = none) :
    Placement t ivs' m := by
  have hkeep : ∀ q p, m.assigned? q = some p → ivs'.get? q = ivs.get? q := by
    intro q p hq
    obtain ⟨lq, hlq, -⟩ := hm.placed q p hq
    refine hrep.others q ?_ (Intervals.lt_size hlq)
    intro he
    rw [he, hnone] at hq
    cases hq
  refine ⟨hm.size, hm.fixed, hm.listed, ?_, ?_⟩
  · intro q p hq
    rw [hkeep q p hq]
    exact hm.placed q p hq
  · intro a b p la lb hab ha hb hga hgb
    rw [hkeep a p ha] at hga
    rw [hkeep b p hb] at hgb
    exact hm.apart a b p la lb hab ha hb hga hgb

end Placement

/-- Spilling keeps the intervals sound. -/
lemma Intervals.Sound.spill {ivs ivs' : Intervals} (hs : ivs.Sound) {r : VirtReg} {li : Interval}
    {products : List VirtReg} (hrep : Replaced ivs ivs' r li products) : ivs'.Sound := by
  have hcases : ∀ q lq, ivs'.get? q = some lq →
      lq.reg = q ∧ Separated lq.segments := by
    intro q lq hq
    by_cases hqr : q = r
    · subst hqr
      rw [hrep.emptied] at hq
      cases hq
      exact ⟨hs.named q li hrep.was, Separated.nil⟩
    · by_cases hlt : q.index < ivs.size
      · rw [hrep.others q hqr hlt] at hq
        exact ⟨hs.named q lq hq, hs.separated q lq hq⟩
      · obtain ⟨-, l, hl, c, -, hpiece⟩ := hrep.fresh q (hrep.added q lq hq (by omega))
        rw [hl] at hq
        cases hq
        exact ⟨hpiece.reg, hpiece.segments ▸ SpillRecord.separated_twoSlots c⟩
  exact ⟨fun q lq hq => (hcases q lq hq).1, fun q lq hq => (hcases q lq hq).2⟩

end SsaBackend
