import Mathlib.Data.List.TakeWhile
import Mathlib.Tactic.Common
import SsaBackend.Live.Intervals

/-!
# Slots of segments

A list of segments stands for the set of slots that one of its segments has. This file says
what the operations on segments mean for that set.

- `Separated` is the form in which an interval keeps its segments, and `separated_mergeInto`
  says that adding a segment keeps it, `liveAt_mergeInto` that it adds the slots of the segment;
- `segmentsOverlap_crosses` says that the walk along two lists finds two segments that cross
  exactly if there are such, and `segmentsOverlap_iff` that, where no segment is empty, it finds
  a common slot. They ask for less than `Separated`: the ranges at which a register is taken
  may overlap one another;
- `covers_iff` says the same of the search for one slot.
-/

namespace SsaBackend

namespace Segment

/-- The slot is one of those from `start` up to `stop`. -/
def Has (s : Segment) (slot : Nat) : Prop := s.start ≤ slot ∧ slot < s.stop

/-- No segment is empty, and they are in the order of their starts. -/
structure Ordered (l : List Segment) : Prop where
  proper : ∀ s ∈ l, s.start < s.stop
  starts : l.Pairwise fun a b => a.start ≤ b.start

/-- No segment is empty, and each ends, with a gap, before the next begins. -/
structure Separated (l : List Segment) : Prop where
  proper : ∀ s ∈ l, s.start < s.stop
  gaps : l.Pairwise fun a b => a.stop < b.start

/-- Some segment of the list has the slot. -/
def LiveAt (l : List Segment) (slot : Nat) : Prop := ∃ s ∈ l, s.Has slot

lemma liveAt_cons {a : Segment} {l : List Segment} {slot : Nat} :
    LiveAt (a :: l) slot ↔ a.Has slot ∨ LiveAt l slot := by
  simp [LiveAt]

lemma Separated.nil : Separated [] := ⟨by simp, List.Pairwise.nil⟩

/-- Separated segments are ordered, as none of them is empty. -/
lemma Separated.ordered {l : List Segment} (h : Separated l) : Ordered l := by
  refine ⟨h.proper, ?_⟩
  refine h.gaps.imp_of_mem ?_
  intro a b ha _ hab
  have := h.proper a ha
  omega

/-- A segment that is not empty is ordered by itself. -/
lemma Ordered.singleton {s : Segment} (h : s.start < s.stop) : Ordered [s] :=
  ⟨by simpa using h, List.pairwise_singleton _ _⟩

/-! ## Sorting -/

lemma mem_insertSorted {s x : Segment} {l : List Segment} :
    x ∈ s.insertSorted l ↔ x = s ∨ x ∈ l := by
  induction l with
  | nil => simp [insertSorted]
  | cons t rest ih =>
    rw [insertSorted]
    split
    · simp
    · rw [List.mem_cons, ih, List.mem_cons]
      exact or_left_comm

lemma mem_sort {x : Segment} {l : List Segment} : x ∈ sort l ↔ x ∈ l := by
  induction l with
  | nil => simp [sort]
  | cons s rest ih =>
    rw [sort, List.foldr_cons, mem_insertSorted, List.mem_cons]
    exact or_congr Iff.rfl ih

lemma start_le_of_le {a b : Segment} (h : a.le b = true) : a.start ≤ b.start := by
  simp only [le, Bool.or_eq_true, Bool.and_eq_true, decide_eq_true_eq] at h
  omega

lemma start_le_of_not_le {a b : Segment} (h : ¬ a.le b = true) : b.start ≤ a.start := by
  simp only [le, Bool.or_eq_true, Bool.and_eq_true, decide_eq_true_eq] at h
  omega

lemma starts_insertSorted {s : Segment} {l : List Segment}
    (h : l.Pairwise fun a b => a.start ≤ b.start) :
    (s.insertSorted l).Pairwise fun a b => a.start ≤ b.start := by
  induction l with
  | nil => simp [insertSorted]
  | cons t rest ih =>
    obtain ⟨ht, hrest⟩ := List.pairwise_cons.1 h
    rw [insertSorted]
    split
    · rename_i hle
      have hst := start_le_of_le hle
      refine List.pairwise_cons.2 ⟨fun x hx => ?_, h⟩
      rcases List.mem_cons.1 hx with rfl | hx
      · exact hst
      · have := ht x hx
        omega
    · rename_i hle
      refine List.pairwise_cons.2 ⟨fun x hx => ?_, ih hrest⟩
      rcases mem_insertSorted.1 hx with rfl | hx
      · exact start_le_of_not_le hle
      · exact ht x hx

lemma starts_sort (l : List Segment) : (sort l).Pairwise fun a b => a.start ≤ b.start := by
  induction l with
  | nil => exact List.Pairwise.nil
  | cons s rest ih => exact starts_insertSorted ih

/-! ## Adding a segment -/

/-- What is left of a list behind the members that satisfy a test at its front satisfies it
nowhere, if whatever follows a member that fails fails too. -/
lemma not_of_mem_dropWhile {R : Segment → Segment → Prop} {p : Segment → Bool}
    (hp : ∀ a b, R a b → p a = false → p b = false) {l : List Segment} (hl : l.Pairwise R) :
    ∀ x ∈ l.dropWhile p, p x = false := by
  induction l with
  | nil => simp
  | cons a rest ih =>
    obtain ⟨ha, hrest⟩ := List.pairwise_cons.1 hl
    rw [List.dropWhile_cons]
    split
    · exact ih hrest
    · rename_i hpa
      intro x hx
      rcases List.mem_cons.1 hx with rfl | hx
      · simpa using hpa
      · exact hp a x (ha x hx) (by simpa using hpa)

/-- A segment that takes its ends from `s` and from the first and last of those that `s` touches. -/
def spanning (s : Segment) (touched : List Segment) : Segment :=
  ⟨(touched.head?.map (·.start)).elim s.start (min s.start),
    (touched.getLast?.map (·.stop)).elim s.stop (max s.stop)⟩

/-- Where a segment goes into others: those in front end before it begins, it touches the next
ones, and those behind begin after it ends. -/
structure Cut (s : Segment) (l front touched back : List Segment) : Prop where
  split : l = front ++ (touched ++ back)
  front : ∀ b ∈ front, b.stop < s.start
  touched : ∀ t ∈ touched, s.start ≤ t.stop ∧ t.start ≤ s.stop
  back : ∀ a ∈ back, s.stop < a.start

/-- Separated segments are cut where the tests say. -/
lemma exists_cut (s : Segment) {l : List Segment} (hl : Separated l) :
    ∃ front touched back, Cut s l front touched back ∧
      Interval.mergeInto s l = front ++ s.spanning touched :: back := by
  have hstops : l.Pairwise fun a b => a.stop < b.stop := by
    refine hl.gaps.imp_of_mem fun {a b} _ hb hab => ?_
    have := hl.proper b hb
    omega
  have hrest : ∀ t ∈ l.dropWhile (·.stop < s.start), s.start ≤ t.stop := by
    intro t ht
    simpa using not_of_mem_dropWhile (p := (·.stop < s.start))
      (fun a b hab hpa => by simp only [decide_eq_false_iff_not] at hpa ⊢; omega) hstops t ht
  refine ⟨_, _, _, ⟨?_, fun b hb => ?_, fun t ht => ⟨?_, ?_⟩, fun a ha => ?_⟩, rfl⟩
  · rw [List.takeWhile_append_dropWhile, List.takeWhile_append_dropWhile]
  · simpa using List.mem_takeWhile_imp hb
  · exact hrest t ((List.takeWhile_sublist _).subset ht)
  · simpa using List.mem_takeWhile_imp ht
  · have hstarts := hl.ordered.starts.sublist (List.dropWhile_sublist (·.stop < s.start))
    simpa using not_of_mem_dropWhile (p := (·.start ≤ s.stop))
      (fun a b hab hpa => by simp only [decide_eq_false_iff_not] at hpa ⊢; omega) hstarts a ha

/-- Whatever ends before `s` and all it touches begin ends before the spanning segment begins. -/
lemma lt_start_spanning {s : Segment} {l : List Segment} {n : Nat} (hs : n < s.start)
    (hl : ∀ t ∈ l, n < t.start) : n < (s.spanning l).start := by
  unfold spanning
  cases hh : l.head? with
  | none => exact hs
  | some u =>
    have := hl u (List.mem_of_head? hh)
    simp only [Option.map_some, Option.elim_some]
    omega

lemma stop_spanning_lt {s : Segment} {l : List Segment} {n : Nat} (hs : s.stop < n)
    (hl : ∀ t ∈ l, t.stop < n) : (s.spanning l).stop < n := by
  unfold spanning
  cases hh : l.getLast? with
  | none => exact hs
  | some u =>
    have := hl u (List.mem_of_getLast? hh)
    simp only [Option.map_some, Option.elim_some]
    omega

lemma spanning_proper {s : Segment} (l : List Segment) (hs : s.start < s.stop) :
    (s.spanning l).start < (s.spanning l).stop := by
  have hstart : (s.spanning l).start ≤ s.start := by
    unfold spanning
    cases l.head? with
    | none => exact Nat.le_refl _
    | some u => exact Nat.min_le_left ..
  have hstop : s.stop ≤ (s.spanning l).stop := by
    unfold spanning
    cases l.getLast? with
    | none => exact Nat.le_refl _
    | some u => exact Nat.le_max_left ..
  omega

/-- Adding a segment that is not empty keeps the segments separated. -/
lemma separated_mergeInto {s : Segment} {l : List Segment} (hs : s.start < s.stop)
    (hl : Separated l) : Separated (Interval.mergeInto s l) := by
  obtain ⟨front, touched, back, hcut, hmerge⟩ := exists_cut s hl
  have hgaps := hl.gaps
  rw [hcut.split, List.pairwise_append, List.pairwise_append] at hgaps
  obtain ⟨hfront, ⟨-, hback, htouched⟩, hacross⟩ := hgaps
  rw [hmerge]
  refine ⟨fun x hx => ?_, List.pairwise_append.2 ⟨hfront, List.pairwise_cons.2 ⟨?_, hback⟩, ?_⟩⟩
  · rcases List.mem_append.1 hx with hx | hx
    · exact hl.proper x (hcut.split ▸ List.mem_append_left _ hx)
    · rcases List.mem_cons.1 hx with rfl | hx
      · exact spanning_proper touched hs
      · exact hl.proper x (hcut.split ▸ List.mem_append_right _ (List.mem_append_right _ hx))
  · exact fun a ha => stop_spanning_lt (hcut.back a ha) fun t ht => htouched t ht a ha
  · intro b hb x hx
    rcases List.mem_cons.1 hx with rfl | hx
    · exact lt_start_spanning (hcut.front b hb) fun t ht =>
        hacross b hb t (List.mem_append_left _ ht)
    · exact hacross b hb x (List.mem_append_right _ hx)

/-- The spanning segment has the slots of `s` and of all that `s` touches. -/
lemma has_spanning {s : Segment} {l : List Segment} (hl : Separated l)
    (htouch : ∀ t ∈ l, s.start ≤ t.stop ∧ t.start ≤ s.stop) (slot : Nat) :
    (s.spanning l).Has slot ↔ s.Has slot ∨ LiveAt l slot := by
  unfold spanning
  cases hh : l.head? with
  | none =>
    rw [List.head?_eq_none_iff] at hh
    subst hh
    simp [LiveAt, Has]
  | some u =>
    obtain ⟨rest, rfl⟩ : ∃ rest, l = u :: rest := List.head?_eq_some_iff.1 hh
    have hu : u ∈ u :: rest := List.mem_cons_self ..
    obtain ⟨w, hw⟩ : ∃ w, (u :: rest).getLast? = some w :=
      ⟨_, List.getLast?_eq_some_getLast (List.cons_ne_nil _ _)⟩
    have hwl := List.mem_of_getLast? hw
    simp only [hw, Option.map_some, Option.elim_some, Has]
    constructor
    · rintro ⟨hlo, hhi⟩
      rcases Nat.lt_or_ge slot s.start with hlt | hge
      · -- before `s` there is the first one
        have := (htouch u hu).1
        exact .inr ⟨u, hu, by omega, by omega⟩
      · rcases Nat.lt_or_ge slot s.stop with hlt' | hge'
        · exact .inl ⟨hge, hlt'⟩
        · -- and behind it the last one
          have := (htouch w hwl).2
          exact .inr ⟨w, hwl, by omega, by omega⟩
    · rintro (⟨h1, h2⟩ | ⟨t, ht, h1, h2⟩)
      · omega
      · have hfirst : u.start ≤ t.start := by
          rcases List.mem_cons.1 ht with rfl | ht
          · exact Nat.le_refl _
          · exact (List.pairwise_cons.1 hl.ordered.starts).1 t ht
        have hlast : t.stop ≤ w.stop := by
          obtain ⟨front, hfront⟩ := List.getLast?_eq_some_iff.1 hw
          rw [hfront] at ht hl
          rcases List.mem_append.1 ht with ht | ht
          · have hgap := (List.pairwise_append.1 hl.gaps).2.2 t ht w (List.mem_singleton.2 rfl)
            have hw' := hl.proper w (List.mem_append_right _ (List.mem_singleton.2 rfl))
            omega
          · rw [List.mem_singleton.1 ht]
        omega

lemma liveAt_append {l m : List Segment} {slot : Nat} :
    LiveAt (l ++ m) slot ↔ LiveAt l slot ∨ LiveAt m slot := by
  simp only [LiveAt, List.mem_append, or_and_right, exists_or]

lemma Separated.sublist {l m : List Segment} (h : Separated m) (hs : l.Sublist m) : Separated l :=
  ⟨fun s hm => h.proper s (hs.subset hm), h.gaps.sublist hs⟩

/-- Adding a segment adds its slots. -/
lemma liveAt_mergeInto {s : Segment} {l : List Segment} (hl : Separated l) (slot : Nat) :
    LiveAt (Interval.mergeInto s l) slot ↔ LiveAt l slot ∨ s.Has slot := by
  obtain ⟨front, touched, back, hcut, hmerge⟩ := exists_cut s hl
  have hsub : touched.Sublist l := by
    rw [hcut.split]
    exact (List.sublist_append_left ..).trans (List.sublist_append_right ..)
  have hlive : LiveAt l slot ↔ LiveAt front slot ∨ LiveAt touched slot ∨ LiveAt back slot := by
    rw [hcut.split, liveAt_append, liveAt_append]
  rw [hmerge, liveAt_append, liveAt_cons, has_spanning (hl.sublist hsub) hcut.touched, hlive]
  tauto

/-! ## Asking for slots -/

/-- Each of the two begins before the other ends. -/
def Crosses (a b : Segment) : Prop := b.start < a.stop ∧ a.start < b.stop

/-- The walk along two lists in the order of their starts finds two segments that cross exactly
if there are such. Segments may be empty. -/
theorem segmentsOverlap_crosses {as bs : List Segment}
    (ha : as.Pairwise fun a b => a.start ≤ b.start)
    (hb : bs.Pairwise fun a b => a.start ≤ b.start) :
    segmentsOverlap as bs = true ↔ ∃ a ∈ as, ∃ b ∈ bs, a.Crosses b := by
  induction as generalizing bs with
  | nil => simp [segmentsOverlap]
  | cons a as ih =>
    obtain ⟨hstarts, htail⟩ := List.pairwise_cons.1 ha
    set left := bs.dropWhile fun b => b.start < a.stop && b.stop ≤ a.start with hleft
    -- what is dropped ends before `a` begins, and so before anything behind `a` does
    have hdrop : (∃ x ∈ a :: as, ∃ b ∈ bs, x.Crosses b) ↔
        ∃ x ∈ a :: as, ∃ b ∈ left, x.Crosses b := by
      constructor
      · rintro ⟨x, hx, b, hmem, hcross⟩
        refine ⟨x, hx, b, ?_, hcross⟩
        rw [← List.takeWhile_append_dropWhile
          (p := fun b : Segment => b.start < a.stop && b.stop ≤ a.start) (l := bs)] at hmem
        refine (List.mem_append.1 hmem).resolve_left fun htake => ?_
        have hends := List.mem_takeWhile_imp htake
        simp only [Bool.and_eq_true, decide_eq_true_eq] at hends
        have hxa : a.start ≤ x.start := by
          rcases List.mem_cons.1 hx with rfl | hx
          · exact Nat.le_refl _
          · exact hstarts x hx
        have := hcross.2
        omega
      · rintro ⟨x, hx, b, hmem, hcross⟩
        exact ⟨x, hx, b, (List.dropWhile_sublist _).subset hmem, hcross⟩
    have hord : left.Pairwise fun a b => a.start ≤ b.start := hb.sublist (List.dropWhile_sublist _)
    rw [hdrop, segmentsOverlap]
    cases hd : left with
    | nil => simp [← hleft, hd]
    | cons b rest =>
      rw [hd] at hord
      simp only [← hleft, hd]
      split
      · -- `a` ends before anything that is left begins
        rename_i hab
        rw [ih htail hord]
        constructor
        · rintro ⟨x, hx, h⟩
          exact ⟨x, List.mem_cons_of_mem _ hx, h⟩
        · rintro ⟨x, hx, y, hy, hcross⟩
          rcases List.mem_cons.1 hx with rfl | hx
          · exfalso
            have hby : b.start ≤ y.start := by
              rcases List.mem_cons.1 hy with rfl | hy
              · exact Nat.le_refl _
              · exact (List.pairwise_cons.1 hord).1 y hy
            have := hcross.1
            omega
          · exact ⟨x, hx, y, hy, hcross⟩
      · -- `b` begins before `a` ends, and was not dropped for ending before `a` begins
        rename_i hab
        have hhead : ¬ (b.start < a.stop && b.stop ≤ a.start) = true := by
          have := List.head?_dropWhile_not
            (fun b : Segment => b.start < a.stop && b.stop ≤ a.start) bs
          rw [← hleft, hd] at this
          simpa using this
        simp only [Bool.and_eq_true, decide_eq_true_eq] at hhead
        simp only [true_iff]
        exact ⟨a, List.mem_cons_self, b, List.mem_cons_self, by unfold Crosses; omega⟩

/-- The walk along two ordered lists finds a common slot exactly if there is one. -/
theorem segmentsOverlap_iff {as bs : List Segment} (ha : Ordered as) (hb : Ordered bs) :
    segmentsOverlap as bs = true ↔ ∃ slot, LiveAt as slot ∧ LiveAt bs slot := by
  rw [segmentsOverlap_crosses ha.starts hb.starts]
  constructor
  · rintro ⟨a, hmem, b, hmem', hcross⟩
    have hap := ha.proper a hmem
    have hbp := hb.proper b hmem'
    unfold Crosses at hcross
    refine ⟨max a.start b.start, ⟨a, hmem, ?_⟩, ⟨b, hmem', ?_⟩⟩
    · exact ⟨by omega, by omega⟩
    · exact ⟨by omega, by omega⟩
  · rintro ⟨slot, ⟨a, hmem, hlo, hhi⟩, ⟨b, hmem', hlo', hhi'⟩⟩
    exact ⟨a, hmem, b, hmem', by unfold Crosses; omega⟩

end Segment

namespace Interval

open Segment

/-- The segments came about by adding ranges, one after another, to none. -/
def Built (li : Interval) : Prop :=
  ∃ ranges : List (Nat × Nat),
    li.segments = (ranges.foldl (fun l r => l.addSegment r.1 r.2) li.clear).segments

lemma separated_addSegment {li : Interval} (h : Separated li.segments) (start stop : Nat) :
    Separated (li.addSegment start stop).segments := by
  rw [addSegment]
  split
  · exact h
  · exact separated_mergeInto (by show start < stop; omega) h

/-- Adding a range adds its slots. -/
lemma liveAt_addSegment {li : Interval} (h : Separated li.segments) (start stop slot : Nat) :
    LiveAt (li.addSegment start stop).segments slot ↔
      LiveAt li.segments slot ∨ start ≤ slot ∧ slot < stop := by
  rw [addSegment]
  split
  · constructor
    · exact .inl
    · rintro (hl | ⟨h1, h2⟩)
      · exact hl
      · omega
  · exact liveAt_mergeInto h slot

/-- Segments that came about by adding ranges are separated. -/
lemma Built.separated {li : Interval} (h : li.Built) : Separated li.segments := by
  obtain ⟨ranges, hr⟩ := h
  rw [hr]
  have hstart : Separated li.clear.segments := Separated.nil
  generalize li.clear = start at hstart
  clear hr
  induction ranges generalizing start with
  | nil => exact hstart
  | cons r rest ih => exact ih _ (separated_addSegment hstart r.1 r.2)

/-- The search for a slot finds it exactly if some segment has it. -/
lemma covers_iff {li : Interval} (h : Separated li.segments) (slot : Nat) :
    li.covers slot = true ↔ LiveAt li.segments slot := by
  unfold covers
  generalize li.segments = l at h
  induction l with
  | nil => simp [LiveAt]
  | cons s rest ih =>
    rw [List.find?_cons, liveAt_cons]
    by_cases hs : slot < s.stop
    · -- the first segment decides: those behind it begin later still
      have hlater : ¬ LiveAt rest slot := by
        intro hr
        obtain ⟨t, ht, hlo, -⟩ := hr
        have := (List.pairwise_cons.1 h.gaps).1 t ht
        omega
      simp [hs, Has, hlater]
    · have hno : ¬ s.Has slot := fun hh => hs hh.2
      have htail : Separated rest :=
        ⟨fun t ht => h.proper t (List.mem_cons_of_mem _ ht), (List.pairwise_cons.1 h.gaps).2⟩
      simp only [hs, decide_false, hno, false_or]
      exact ih htail

end Interval

/-! ## Tables of intervals -/

namespace Intervals

lemma get?_modify (ivs : Intervals) (r q : VirtReg) (f : Interval → Interval) :
    (ivs.modify r f).get? q = if r = q then (ivs.get? q).map f else ivs.get? q := by
  show (ivs.intervals.modify r.index f)[q.index]? = _
  rw [Array.getElem?_modify]
  simp only [VirtReg.index_inj]
  rfl

@[simp] lemma size_modify (ivs : Intervals) (r : VirtReg) (f : Interval → Interval) :
    (ivs.modify r f).size = ivs.size := by
  show (ivs.intervals.modify r.index f).size = _
  simp [size]

/-- The registers are those below the size. -/
lemma lt_size {ivs : Intervals} {r : VirtReg} {li : Interval} (h : ivs.get? r = some li) :
    r.index < ivs.size :=
  (Array.getElem?_eq_some_iff.1 h).1

end Intervals

end SsaBackend
