import Mathlib.Data.Set.Card
import Mathlib.Order.Interval.Finset.Nat
import SsaBackend.Proofs.Alloc.Placement

/-!
# Intervals as sets of slots

An interval is changed by adding ranges and by clearing it (`SlotEdit`). The slots that it stands
for after such calls are those of the ranges added since the last clearing (`SlotEdit.slots`), and
every question that can be asked of it is a question about this set (`Interval.Denotes`): which
slots it has, how many, the first and the last, and whether it has one in common with another
interval or with the ranges at which a register is taken anyway (`SlotEdit.denotes_run`).

- `Interval.denotes_of_separated` answers the questions about one interval for segments that are
  separated, however they came about;
- `SlotEdit.separated_run` and `SlotEdit.liveAt_run` follow the calls, the latest last.
-/

namespace SsaBackend

open Segment

/-! ## Questions about one interval -/

namespace Segment

variable {l : List Segment}

/-- Separated segments have gaps between them: none has the slot at which another stops. -/
lemma Separated.not_liveAt_stop (h : Separated l) {s : Segment} (hs : s ∈ l) :
    ¬ LiveAt l s.stop := by
  obtain ⟨front, behind, rfl⟩ := List.append_of_mem hs
  obtain ⟨-, hbehind, hfront⟩ := List.pairwise_append.1 h.gaps
  have hproper := h.proper s hs
  rintro ⟨t, ht, hlo, hhi⟩
  rcases List.mem_append.1 ht with ht | ht
  · have := hfront t ht s List.mem_cons_self
    omega
  · rcases List.mem_cons.1 ht with rfl | ht
    · omega
    · have := (List.pairwise_cons.1 hbehind).1 t ht
      omega

/-- The slots of separated segments are counted, each once. -/
lemma Separated.ncard_liveAt (h : Separated l) :
    {slot | LiveAt l slot}.Finite ∧ {slot | LiveAt l slot}.ncard = total (l.map size) := by
  induction l with
  | nil => simp [LiveAt]
  | cons s rest ih =>
    obtain ⟨hfinite, hcard⟩ := ih (h.sublist (List.sublist_cons_self s rest))
    have hsplit : {slot | LiveAt (s :: rest) slot} =
        Set.Ico s.start s.stop ∪ {slot | LiveAt rest slot} := by
      ext slot
      exact liveAt_cons
    -- the segments behind begin after the first has stopped
    have hdisjoint : Disjoint (Set.Ico s.start s.stop) {slot | LiveAt rest slot} := by
      refine Set.disjoint_left.2 fun slot hs hr => ?_
      obtain ⟨t, ht, hlo, -⟩ := hr
      have := (List.pairwise_cons.1 h.gaps).1 t ht
      have := hs.2
      omega
    have hico : (Set.Ico s.start s.stop).ncard = s.size := by
      rw [← Finset.coe_Ico, Set.ncard_coe_finset, Nat.card_Ico]
      rfl
    rw [hsplit]
    refine ⟨(Set.finite_Ico _ _).union hfinite, ?_⟩
    rw [Set.ncard_union_eq hdisjoint (Set.finite_Ico _ _) hfinite, hico, hcard, List.map_cons,
      total_cons]

/-- The first segment has the first slot. -/
lemma Separated.isLeast_start {s : Segment} (h : Separated (s :: l)) :
    IsLeast {slot | LiveAt (s :: l) slot} s.start := by
  refine ⟨⟨s, List.mem_cons_self, Nat.le_refl _, h.proper s List.mem_cons_self⟩, ?_⟩
  rintro slot ⟨t, ht, hlo, -⟩
  rcases List.mem_cons.1 ht with rfl | ht
  · exact hlo
  · exact Nat.le_trans ((List.pairwise_cons.1 h.ordered.starts).1 t ht) hlo

/-- The last segment has the last slot. -/
lemma Separated.isGreatest_stop {s : Segment} (h : Separated (l ++ [s])) :
    IsGreatest {slot | LiveAt (l ++ [s]) slot} (s.stop - 1) := by
  have hs : s ∈ l ++ [s] := List.mem_append_right _ List.mem_cons_self
  have hproper := h.proper s hs
  refine ⟨⟨s, hs, by omega, by omega⟩, ?_⟩
  rintro slot ⟨t, ht, -, hhi⟩
  rcases List.mem_append.1 ht with ht | ht
  · have := (List.pairwise_append.1 h.gaps).2.2 t ht s List.mem_cons_self
    omega
  · rw [List.mem_singleton.1 ht] at hhi
    omega

end Segment

namespace Interval

/-- The interval stands for a set of slots: its segments are the runs of the set, and it answers
what the set answers. -/
structure Denotes (li : Interval) (S : Set Nat) : Prop where
  /-- No segment is empty, and each ends before the next begins, -/
  separated : Separated li.segments
  /-- at a slot that is not in the set. -/
  gap : ∀ s ∈ li.segments, s.stop ∉ S
  /-- What the searches ask holds of the segments in front and fails for those behind, so that it
  does not matter how a search goes about it. -/
  searchable : ∀ slot, li.segments.Pairwise fun a b =>
    (b.stop < slot → a.stop < slot) ∧ (b.start ≤ slot → a.start ≤ slot)
  mem_iff : ∀ slot, slot ∈ S ↔ ∃ s ∈ li.segments, s.start ≤ slot ∧ slot < s.stop
  covers_iff : ∀ slot, li.covers slot = true ↔ slot ∈ S
  finite : S.Finite
  size_eq : li.size = S.ncard
  /-- The size is a number of the kind that slots are. -/
  size_le : ∀ n, (∀ slot ∈ S, slot < n) → li.size ≤ n
  isEmpty_iff : li.isEmpty = true ↔ S = ∅
  start_iff : ∀ m, li.start? = some m ↔ IsLeast S m
  stop_iff : ∀ e, li.stop? = some e ↔ ∃ m, IsGreatest S m ∧ e = m + 1

/-- Separated segments stand for the set of their slots. -/
lemma denotes_of_separated {li : Interval} (h : Separated li.segments) :
    li.Denotes {slot | LiveAt li.segments slot} := by
  obtain ⟨hfinite, hcard⟩ := h.ncard_liveAt
  refine ⟨h, fun s hs => h.not_liveAt_stop hs, fun slot => ?_, fun _ => Iff.rfl, covers_iff h,
    hfinite, hcard.symm, fun n hn => ?_, ?_, fun m => ?_, fun e => ?_⟩
  · refine h.gaps.imp_of_mem fun {a b} ha hb hab => ?_
    have hap := h.proper a ha
    have hbp := h.proper b hb
    omega
  · have hsub : {slot | LiveAt li.segments slot} ⊆ Set.Iio n := fun slot hslot => hn slot hslot
    have hle := Set.ncard_le_ncard hsub (Set.finite_Iio n)
    rw [hcard, ← Finset.coe_Iio, Set.ncard_coe_finset, Nat.card_Iio] at hle
    exact hle
  · unfold isEmpty
    cases hl : li.segments with
    | nil => simp [LiveAt]
    | cons s rest =>
      rw [hl] at h
      simpa using Set.nonempty_iff_ne_empty.1 ⟨s.start, h.isLeast_start.1⟩
  · unfold start?
    cases hl : li.segments with
    | nil => simp [LiveAt, IsLeast]
    | cons s rest =>
      rw [hl] at h
      simp only [List.head?_cons, Option.map_some, Option.some.injEq]
      exact ⟨fun he => he ▸ h.isLeast_start, fun hm => h.isLeast_start.unique hm⟩
  · unfold stop?
    rcases List.eq_nil_or_concat li.segments with hl | ⟨front, s, hl⟩
    · rw [hl]
      simp [LiveAt, IsGreatest]
    · rw [List.concat_eq_append] at hl
      rw [hl] at h ⊢
      -- the last slot is the one before the last segment stops
      have hlast := h.isGreatest_stop
      have hproper := h.proper s (List.mem_append_right _ List.mem_cons_self)
      simp only [List.getLast?_concat, Option.map_some, Option.some.injEq]
      constructor
      · rintro rfl
        exact ⟨s.stop - 1, hlast, by omega⟩
      · rintro ⟨m, hm, rfl⟩
        have := hlast.unique hm
        omega

end Interval

/-! ## Calls -/

/-- A call that changes the slots of an interval. -/
inductive SlotEdit where
  | add (start stop : Nat)
  | clear
  deriving DecidableEq, Repr

namespace SlotEdit

/-- What a call makes of an interval. -/
def apply (li : Interval) : SlotEdit → Interval
  | add start stop => li.addSegment start stop
  | clear => li.clear

/-- What calls, one after another, make of the interval of a new register. -/
def run (r : VirtReg) (edits : List SlotEdit) : Interval := edits.foldl apply { reg := r }

/-- The slots of the ranges that were added and have not been cleared since. -/
def slots (edits : List SlotEdit) : Set Nat :=
  {slot | ∃ earlier start stop later, edits = earlier ++ add start stop :: later ∧
    clear ∉ later ∧ start ≤ slot ∧ slot < stop}

/-- The last call decides: it adds its range, or takes away what was there. -/
lemma mem_slots_concat {edits : List SlotEdit} {e : SlotEdit} {slot : Nat} :
    slot ∈ slots (edits ++ [e]) ↔
      (∃ start stop, e = add start stop ∧ start ≤ slot ∧ slot < stop) ∨
        e ≠ clear ∧ slot ∈ slots edits := by
  constructor
  · rintro ⟨earlier, start, stop, later, heq, hlater, hslot⟩
    rcases List.eq_nil_or_concat later with rfl | ⟨between, last, rfl⟩
    · obtain ⟨-, he⟩ := List.append_inj' heq rfl
      exact .inl ⟨start, stop, List.singleton_inj.1 he, hslot⟩
    · -- the range was there before the last call, which did not clear it
      rw [List.concat_eq_append] at heq hlater
      have hbefore : edits ++ [e] = (earlier ++ add start stop :: between) ++ [last] := by
        rw [heq]
        simp
      obtain ⟨rfl, he⟩ := List.append_inj' hbefore rfl
      obtain rfl := List.singleton_inj.1 he
      exact .inr ⟨fun hclear => hlater (by simp [hclear]), earlier, start, stop, between, rfl,
        fun hmem => hlater (List.mem_append_left _ hmem), hslot⟩
  · rintro (⟨start, stop, rfl, hslot⟩ | ⟨hne, earlier, start, stop, later, rfl, hlater, hslot⟩)
    · exact ⟨edits, start, stop, [], rfl, List.not_mem_nil, hslot⟩
    · exact ⟨earlier, start, stop, later ++ [e], by simp, by simp [hlater, hne.symm], hslot⟩

/-- A call keeps segments separated. -/
lemma separated_apply {li : Interval} (h : Separated li.segments) (e : SlotEdit) :
    Separated (apply li e).segments := by
  cases e with
  | add start stop => exact Interval.separated_addSegment h start stop
  | clear => exact Separated.nil

lemma run_concat (r : VirtReg) (edits : List SlotEdit) (e : SlotEdit) :
    run r (edits ++ [e]) = apply (run r edits) e := List.foldl_concat ..

lemma separated_run (r : VirtReg) (edits : List SlotEdit) : Separated (run r edits).segments := by
  induction edits using List.reverseRecOn with
  | nil => exact Separated.nil
  | append_singleton edits e ih =>
    rw [run_concat]
    exact separated_apply ih e

/-- After calls the segments have the slots of what was added since the last clearing. -/
lemma liveAt_run (r : VirtReg) (edits : List SlotEdit) (slot : Nat) :
    LiveAt (run r edits).segments slot ↔ slot ∈ slots edits := by
  induction edits using List.reverseRecOn with
  | nil => simp [run, LiveAt, slots]
  | append_singleton edits e ih =>
    rw [run_concat, mem_slots_concat, ← ih]
    cases e with
    | add start stop =>
      refine (Interval.liveAt_addSegment (separated_run r edits) start stop slot).trans ?_
      simp [or_comm]
    | clear => simp [apply, Interval.clear, LiveAt]

/-- Intervals are sets of slots. After any calls, the interval of a register stands for the ranges
that were added since the last clearing. It overlaps the interval of another register if they have
a slot in common, and the walk along its segments and others, which are not empty and in the order
of their starts but may overlap one another, finds a common slot exactly if there is one; so it is
with the ranges at which a register of a target is taken anyway. -/
theorem denotes_run (r : VirtReg) (edits : List SlotEdit) :
    (run r edits).Denotes (slots edits) ∧
    (∀ q others, (run r edits).overlaps (run q others) = true ↔
      (slots edits ∩ slots others).Nonempty) ∧
    (∀ fixed, Ordered fixed →
      (segmentsOverlap (run r edits).segments fixed = true ↔
        ∃ slot ∈ slots edits, LiveAt fixed slot) ∧
      (segmentsOverlap fixed (run r edits).segments = true ↔
        ∃ slot ∈ slots edits, LiveAt fixed slot)) ∧
    ∀ (t : Target) (p : PhysReg), p.index < t.numRegs →
      (∀ e ∈ t.fixed, e.1 = p → e.2.start < e.2.stop) →
      (segmentsOverlap (run r edits).segments ((RegMatrix.ofTarget t).fixed.getD p.index []) =
        true ↔ ∃ slot ∈ slots edits, ∃ s, (p, s) ∈ t.fixed ∧ s.Has slot) := by
  have hset : {slot | LiveAt (run r edits).segments slot} = slots edits :=
    Set.ext fun slot => liveAt_run r edits slot
  have hordered := (separated_run r edits).ordered
  have hoverlap : ∀ fixed, Ordered fixed → (segmentsOverlap (run r edits).segments fixed = true ↔
      ∃ slot ∈ slots edits, LiveAt fixed slot) := by
    intro fixed hfixed
    rw [segmentsOverlap_iff hordered hfixed]
    simp only [liveAt_run]
  refine ⟨hset ▸ Interval.denotes_of_separated (separated_run r edits), fun q others => ?_,
    fun fixed hfixed => ⟨hoverlap fixed hfixed, ?_⟩, fun t p hp hproper => ?_⟩
  · refine (hoverlap _ (separated_run q others).ordered).trans ?_
    simp only [liveAt_run]
    rfl
  · rw [segmentsOverlap_iff hfixed hordered]
    simp only [liveAt_run, and_comm]
  · refine (hoverlap _ ⟨fun s hs => ?_, RegMatrix.starts_fixed_ofTarget hp⟩).trans ?_
    · exact hproper (p, s) ((RegMatrix.mem_fixed_ofTarget hp s).1 hs) rfl
    · simp only [LiveAt, RegMatrix.mem_fixed_ofTarget hp]

/-- A register that is used again after its slots were cleared. -/
def reused : List SlotEdit := [add 0 40, clear, add 10 14, add 2 6, add 6 8, add 13 16]

/-- A register file of one register, which is taken around the slots of `reused`. -/
def crowded : Target :=
  ((((Target.uniform 1).fix ⟨0⟩ ⟨8, 10⟩).fix ⟨0⟩ ⟨0, 2⟩).fix ⟨0⟩ ⟨8, 9⟩).fix ⟨0⟩ ⟨1, 2⟩

theorem denotes_run_reused : (run ⟨0⟩ reused).segments = [⟨2, 8⟩, ⟨10, 16⟩] ∧
    (slots reused).ncard = 12 ∧
    (∃ slot ∈ slots reused, LiveAt [⟨0, 3⟩, ⟨1, 2⟩, ⟨8, 10⟩] slot) ∧
    ¬ ∃ slot ∈ slots reused, ∃ s, (⟨0⟩, s) ∈ crowded.fixed ∧ s.Has slot := by
  obtain ⟨hdenotes, -, hfixed, htarget⟩ := denotes_run ⟨0⟩ reused
  have hordered : Ordered [⟨0, 3⟩, ⟨1, 2⟩, ⟨8, 10⟩] := ⟨by decide, by decide⟩
  refine ⟨by decide, ?_, (hfixed _ hordered).1.1 (by decide), ?_⟩
  · rw [← hdenotes.size_eq]
    decide
  · rw [← htarget crowded ⟨0⟩ (by decide) (by decide)]
    decide +kernel

end SlotEdit

end SsaBackend
