import Mathlib.Logic.Relation
import SsaBackend.Proofs.Alloc.Degrees
import SsaBackend.Proofs.Alloc.Success

/-!
# Colourable graphs are not spilled

Registers have their turns in the reverse order of their removals: the queue holds first those
that are still to have a first turn, the latest removed in front, and behind them the pieces of
spilled registers (`Pending`). So when a register has its turn, everybody that has a place was
removed after it. A register that was removed with fewer neighbours than there are colours then
finds a free place: each place that is not free is held by a neighbour of its own
(`Pending.takes`). If all registers were removed that way, nobody is spilled.
-/

namespace SsaBackend

open InterferenceGraph (Counts Counted)

/-! ## The order of the queue -/

namespace Waiting

/-- Who comes after all of the front finds a place behind it. -/
lemma enqueue_append {w : Waiting} {front : List Waiting}
    (h : ∀ v ∈ front, w.priority < v.priority) (back : List Waiting) :
    w.enqueue (front ++ back) = front ++ w.enqueue back := by
  induction front with
  | nil => rfl
  | cons v rest ih =>
    have hv := h v (List.mem_cons_self ..)
    have hnot : w.before v = false := by
      unfold before
      rw [Bool.or_eq_false_iff, Bool.and_eq_false_iff]
      exact ⟨decide_eq_false (by omega), .inl (decide_eq_false (by omega))⟩
    rw [List.cons_append, enqueue, hnot, if_neg Bool.false_ne_true,
      ih fun v hv => h v (List.mem_cons_of_mem _ hv), List.cons_append]

lemma enqueueAll_append {α : Type} {f : α → Waiting} {l : List α} {front : List Waiting}
    (h : ∀ a ∈ l, ∀ v ∈ front, (f a).priority < v.priority) (back : List Waiting) :
    l.foldl (fun q a => (f a).enqueue q) (front ++ back) =
      front ++ l.foldl (fun q a => (f a).enqueue q) back := by
  induction l generalizing back with
  | nil => rfl
  | cons a rest ih =>
    rw [List.foldl_cons, enqueue_append (h a (List.mem_cons_self ..)), List.foldl_cons]
    exact ih (fun b hb => h b (List.mem_cons_of_mem _ hb)) _

/-- Those that come by rising priority stand in the queue the other way round. -/
lemma enqueueAll_rising {α : Type} {f : α → Waiting} {l : List α} {q : List Waiting}
    (hl : l.Pairwise fun a b => (f a).priority < (f b).priority)
    (hq : ∀ a ∈ l, ∀ v ∈ q, v.priority < (f a).priority) :
    l.foldl (fun q a => (f a).enqueue q) q = (l.map f).reverse ++ q := by
  induction l generalizing q with
  | nil => rfl
  | cons a rest ih =>
    obtain ⟨ha, hrest⟩ := List.pairwise_cons.1 hl
    have hfirst : (f a).enqueue q = f a :: q := by
      cases q with
      | nil => rfl
      | cons v q =>
        have hv := hq a (List.mem_cons_self ..) v (List.mem_cons_self ..)
        rw [enqueue, before, decide_eq_true hv, Bool.true_or, if_pos rfl]
    rw [List.foldl_cons, hfirst, ih hrest ?_, List.map_cons, List.reverse_cons, List.append_assoc]
    · rfl
    · intro b hb v hv
      rcases List.mem_cons.1 hv with rfl | hv
      · exact ha b hb
      · exact hq b (List.mem_cons_of_mem _ hb) v hv

end Waiting

/-- Registers that are removed once have priorities that rise with the order. -/
lemma Simplification.pairwise_priority {s : Simplification} (h : s.order.Nodup) :
    s.order.Pairwise fun r q => s.priority r < s.priority q := by
  rw [List.pairwise_iff_getElem]
  intro i j hi hj hij
  rw [s.priority_getElem h hi, s.priority_getElem h hj]
  omega

lemma Simplification.priority_pos {s : Simplification} {r : VirtReg} (h : r ∈ s.order) :
    0 < s.priority r := by
  have hsome : (s.order.findIdx? (· = r)).isSome = true := by
    rw [List.findIdx?_isSome, List.any_eq_true]
    exact ⟨r, h, by simp⟩
  obtain ⟨i, hi⟩ := Option.isSome_iff_exists.1 hsome
  unfold priority
  rw [hi]
  exact Nat.succ_pos i

/-! ## Turns -/

namespace AllocState

/-- One turn: the first register of the queue is taken from it and dealt with. -/
def Turn (t : Target) (s s' : AllocState) : Prop :=
  ∃ w rest, s.queue = w :: rest ∧
    (selectOrSpill t w.reg).run { s with queue := rest } = .ok ⟨⟩ s'

variable {t : Target} {s s' : AllocState} {r : VirtReg}

/-- Draining the queue is one turn after another. -/
lemma Turn.drain (h : s.Turn t s') (bound : Nat) :
    (AllocState.drain t (bound + 1)).run s = (AllocState.drain t bound).run s' := by
  obtain ⟨w, rest, hq, hrun⟩ := h
  rw [AllocState.drain, EStateM.run_bind, EStateM.run_get]
  simp only [hq]
  rw [EStateM.run_bind, EStateM.run_set]
  simp only
  rw [EStateM.run_bind, hrun]

/-- Whatever a turn does to a register, it is left alone, put into a place, put into one from
which all that are in its way are driven out, or spilled. -/
lemma selectOrSpill_cases (hrun : (selectOrSpill t r).run s = .ok ⟨⟩ s') :
    s' = s ∨ (∃ p, (assign r p).run s = .ok ⟨⟩ s') ∨
      (∃ p li s1, ((s.matrix.occupants s.intervals li p).forM (evict p r)).run s = .ok ⟨⟩ s1 ∧
        (assign r p).run s1 = .ok ⟨⟩ s') ∨
      (spillReg r).run s = .ok ⟨⟩ s' := by
  unfold selectOrSpill at hrun
  rw [Work.get_bind_ok] at hrun
  cases hr : s.intervals.get? r with
  | none =>
    simp only [hr] at hrun
    cases hrun
    exact .inl rfl
  | some li =>
    simp only [hr] at hrun
    split at hrun
    · cases hrun
      exact .inl rfl
    · split at hrun
      · exact .inr (.inl ⟨_, hrun⟩)
      · rename_i p os hchoice
        rcases Allocating.choose_evict hchoice with hsite | ⟨-, hcheck⟩
        · cases hsite
        · obtain ⟨-, hocc⟩ := (Allocating.check_spec hr).2 os hcheck
          obtain ⟨_, s1, hev, hrun⟩ := Work.bind_ok.1 hrun
          rw [← hocc] at hev
          exact .inr (.inr (.inl ⟨p, li, s1, hev, hrun⟩))
      · split at hrun
        · exact .inr (.inr (.inr hrun))
        · cases hrun

/-- Putting a register into a place is not refused, and touches neither the intervals nor the
queue. -/
lemma assign_run (r : VirtReg) (p : PhysReg) (s : AllocState) :
    ∃ s', (assign r p).run s = .ok ⟨⟩ s' ∧ s'.intervals = s.intervals ∧ s'.spills = s.spills ∧
      s'.queue = s.queue :=
  ⟨_, rfl, rfl, rfl, rfl⟩

/-- If a candidate is free, one is taken at once. -/
lemma exists_choose_take {weight : Weight} {p : PhysReg} {cands : List PhysReg} (site : Choice)
    (hp : p ∈ cands) (hfree : s.matrix.check s.intervals r p = .free) :
    ∃ p', s.choose r weight site cands = .take p' := by
  induction cands generalizing site with
  | nil => cases hp
  | cons c rest ih =>
    unfold choose
    split
    · exact ⟨c, rfl⟩
    · rename_i os hocc
      rcases List.mem_cons.1 hp with rfl | hp
      · rw [hfree] at hocc
        cases hocc
      · exact ih _ hp
    · rename_i hnot _
      rcases List.mem_cons.1 hp with rfl | hp
      · exact absurd hfree hnot
      · exact ih _ hp

end AllocState

/-- A place that counts as occupied has an occupant. -/
lemma RegMatrix.check_ne_occupied_nil (m : RegMatrix) (ivs : Intervals) (r : VirtReg)
    (p : PhysReg) : m.check ivs r p ≠ .occupied [] := by
  unfold check
  split
  · simp
  · split
    · simp
    · split
      · simp
      · rename_i hne
        simpa using hne

/-- A spill takes no register out of the table. -/
lemma Replaced.size_le {ivs ivs' : Intervals} {r : VirtReg} {li : Interval}
    {products : List VirtReg} (h : Replaced ivs ivs' r li products) : ivs.size ≤ ivs'.size := by
  by_contra hlt
  have hnone : ivs'.get? ⟨ivs'.size⟩ = none := Array.getElem?_eq_none (Nat.le_refl _)
  by_cases hr : (⟨ivs'.size⟩ : VirtReg) = r
  · rw [hr, h.emptied] at hnone
    cases hnone
  · rw [h.others _ hr (Nat.not_le.1 hlt)] at hnone
    have hsome : ivs.get? ⟨ivs'.size⟩ = some _ := Array.getElem?_eq_getElem (Nat.not_le.1 hlt)
    rw [hnone] at hsome
    cases hsome

lemma Allocating.turn {t : Target} {start : Intervals} {s s' : AllocState}
    (h : Allocating t start (fun _ => False) s) (hturn : s.Turn t s') :
    Allocating t start (fun _ => False) s' := by
  obtain ⟨w, rest, hq, hrun⟩ := hturn
  exact (h.dequeue hq).selectOrSpill hrun

/-- The registers of the removals `ms`, latest first, are still to have their first turn: they
wait in front, as they were at the start and without a place, and until they had their turns no
piece of a spilled register has a place. -/
structure Pending (t : Target) (start : Intervals) (ms : List Removal) (s : AllocState) :
    Prop where
  reserved : s.matrix.reserved = (RegMatrix.ofTarget t).reserved
  larger : start.size ≤ s.intervals.size
  queue : ∃ front back, s.queue = front ++ back ∧ front.map (·.reg) = ms.map (·.reg) ∧
    (∀ w ∈ front, 0 < w.priority) ∧ ∀ w ∈ back, start.size ≤ w.reg.index
  unplaced : ∀ m ∈ ms, s.matrix.assigned? m.reg = none
  kept : ∀ m ∈ ms, ∀ li, start.get? m.reg = some li → s.intervals.get? m.reg = some li
  early : ms ≠ [] → ∀ q p, s.matrix.assigned? q = some p → q.index < start.size

namespace Pending

variable {t : Target} {start : Intervals} {colors : Nat} {m : Removal} {ms : List Removal}
  {s s' : AllocState} {r : VirtReg}

lemma note (h : Pending t start ms s) {e : Event} (hrun : (AllocState.note e).run s = .ok ⟨⟩ s') :
    Pending t start ms s' := by
  cases hrun
  exact ⟨h.reserved, h.larger, h.queue, h.unplaced, h.kept, h.early⟩

lemma assign (h : Pending t start ms s) {p : PhysReg} (hr : r ∉ ms.map (·.reg))
    (hlt : ms ≠ [] → r.index < start.size)
    (hrun : (AllocState.assign r p).run s = .ok ⟨⟩ s') : Pending t start ms s' := by
  cases hrun
  have hget : ∀ q p', (s.matrix.assign r p).assigned? q = some p' →
      q = r ∨ s.matrix.assigned? q = some p' := by
    intro q p' hq
    unfold RegMatrix.assign at hq
    split at hq
    · rename_i hp
      have := RegMatrix.assigned?_assign hp r q
      unfold RegMatrix.assign at this
      rw [if_pos hp, hq] at this
      split at this
      · exact .inl ‹_›
      · exact .inr this.symm
    · exact .inr hq
  refine ⟨(RegMatrix.reserved_assign ..).trans h.reserved, h.larger, h.queue, ?_, h.kept, ?_⟩
  · intro m hm
    by_contra hne
    obtain ⟨p', hp'⟩ := Option.ne_none_iff_exists'.1 hne
    rcases hget m.reg p' hp' with he | hq
    · exact hr (he ▸ List.mem_map_of_mem hm)
    · rw [h.unplaced m hm] at hq
      cases hq
  · intro hne q p' hq
    rcases hget q p' hq with rfl | hq
    · exact hlt hne
    · exact h.early hne q p' hq

/-- The pieces of a spilled register wait behind everybody that is still to have a first turn. -/
lemma spillReg (h : Pending t start ms s) (hr : r ∉ ms.map (·.reg))
    (hrun : (AllocState.spillReg r).run s = .ok ⟨⟩ s') : Pending t start ms s' := by
  unfold AllocState.spillReg at hrun
  rw [Work.get_bind_ok] at hrun
  split at hrun
  · cases hrun
  · rename_i record st hspill
    cases hrun
    obtain ⟨li, hrep, -⟩ := spill_replaces hspill
    refine ⟨h.reserved, h.larger.trans hrep.size_le, ?_, h.unplaced, ?_, h.early⟩
    · obtain ⟨front, back, hq, hregs, hpos, hback⟩ := h.queue
      have hbehind : ∀ v ∈ record.products, ∀ w ∈ front,
          (Waiting.mk productPriority v).priority < w.priority := fun _ _ w hw => hpos w hw
      refine ⟨front, record.products.foldl
        (fun q v => Waiting.enqueue ⟨productPriority, v⟩ q) back, ?_, hregs, hpos, ?_⟩
      · show record.products.foldl (fun q v => Waiting.enqueue ⟨productPriority, v⟩ q) s.queue = _
        rw [hq]
        exact Waiting.enqueueAll_append hbehind back
      · intro w hw
        rcases Waiting.mem_enqueueAll.1 hw with ⟨v, hv, rfl⟩ | hw
        · exact h.larger.trans (hrep.fresh v hv).1
        · exact hback w hw
    · intro m hm lm hlm
      have hne : m.reg ≠ r := fun he => hr (he ▸ List.mem_map_of_mem hm)
      have hget := h.kept m hm lm hlm
      exact (hrep.others m.reg hne (Intervals.lt_size hget)).trans hget

/-- Whoever is driven out of a place has had its first turn. -/
lemma evict (h : Pending t start ms s) {p : PhysReg} {winner : VirtReg} (hr : r ∉ ms.map (·.reg))
    (hrun : (AllocState.evict p winner r).run s = .ok ⟨⟩ s') : Pending t start ms s' := by
  unfold AllocState.evict at hrun
  obtain ⟨_, s1, hnote, hrun⟩ := Work.bind_ok.1 hrun
  obtain ⟨_, s2, hmod, hrun⟩ := Work.bind_ok.1 hrun
  cases hmod
  have h1 := h.note hnote
  have hold : ∀ q p', (s1.matrix.unassign r).assigned? q = some p' →
      s1.matrix.assigned? q = some p' := by
    intro q p' hq
    rw [RegMatrix.assigned?_unassign] at hq
    split at hq
    · cases hq
    · exact hq
  refine spillReg (s := { s1 with matrix := s1.matrix.unassign r })
    ⟨(RegMatrix.reserved_unassign ..).trans h1.reserved, h1.larger, h1.queue, ?_, h1.kept,
      fun hne q p' hq => h1.early hne q p' (hold q p' hq)⟩ hr hrun
  intro m hm
  show (s1.matrix.unassign r).assigned? m.reg = none
  rw [RegMatrix.assigned?_unassign, h1.unplaced m hm, ite_self]

/-- A turn of a register that is not among those still to have a first turn. -/
lemma selectOrSpill {busy : VirtReg → Prop} (hall : Allocating t start busy s)
    (h : Pending t start ms s) (hr : r ∉ ms.map (·.reg)) (hlt : ms ≠ [] → r.index < start.size)
    (hrun : (AllocState.selectOrSpill t r).run s = .ok ⟨⟩ s') : Pending t start ms s' := by
  rcases AllocState.selectOrSpill_cases hrun with rfl | ⟨p, hrun⟩ | ⟨p, li, s1, hev, hrun⟩ | hrun
  · exact h
  · exact h.assign hr hlt hrun
  · have hloop := Work.forM_induct (f := AllocState.evict p r)
      (fun os s => Pending t start ms s ∧ ∀ o ∈ os, o ∉ ms.map (·.reg)) ?_ _ s s1 ⟨h, ?_⟩ hev
    · exact hloop.1.assign hr hlt hrun
    · rintro o os s2 s3 ⟨h2, hos⟩ hev
      exact ⟨h2.evict (hos o (List.mem_cons_self ..)) hev,
        fun o' ho' => hos o' (List.mem_cons_of_mem _ ho')⟩
    · -- an occupant has a place, and so is not one of those that wait
      intro o ho hmem
      obtain ⟨m, hm, rfl⟩ := List.mem_map.1 hmem
      have hplace := hall.assigned_of_mem_occupants ho
      rw [h.unplaced m hm] at hplace
      cases hplace
  · exact h.spillReg hr hrun

/-- At its turn the first of them leaves the ranks of those that are still to have one. -/
lemma turn (hall : Allocating t start (fun _ => False) s) (hms : Counted start colors ms)
    (h : Pending t start ms s) (hturn : s.Turn t s') : Pending t start ms.tail s' := by
  obtain ⟨w, rest, hq, hrun⟩ := hturn
  obtain ⟨front, back, hqueue, hregs, hpos, hback⟩ := h.queue
  have hall1 := hall.dequeue hq
  cases ms with
  | nil =>
    rw [List.map_nil, List.map_eq_nil_iff] at hregs
    subst hregs
    rw [hq, List.nil_append] at hqueue
    subst hqueue
    refine selectOrSpill (s := { s with queue := rest }) hall1 ⟨h.reserved, h.larger, ?_,
      h.unplaced, h.kept, h.early⟩ List.not_mem_nil (fun hne => absurd rfl hne) hrun
    exact ⟨[], rest, rfl, rfl, hpos, fun v hv => hback v (List.mem_cons_of_mem _ hv)⟩
  | cons m ms =>
    obtain ⟨w', front', rfl, hw, hregs'⟩ := List.map_eq_cons_iff.1 hregs
    rw [hq, List.cons_append, List.cons.injEq] at hqueue
    obtain ⟨rfl, rfl⟩ := hqueue
    obtain ⟨li, hli, -⟩ := hms.head.live
    refine selectOrSpill (s := { s with queue := front' ++ back }) hall1 ⟨h.reserved, h.larger, ?_,
      fun m' hm' => h.unplaced m' (List.mem_cons_of_mem _ hm'),
      fun m' hm' => h.kept m' (List.mem_cons_of_mem _ hm'),
      fun _ => h.early (List.cons_ne_nil _ _)⟩ ?_ ?_ hrun
    · exact ⟨front', back, rfl, hregs', fun v hv => hpos v (List.mem_cons_of_mem _ hv), hback⟩
    · rw [hw]
      exact hms.head.fresh
    · intro _
      rw [hw]
      exact Intervals.lt_size hli

/-! ## A free place -/

/-- The register that holds a place against `li` is one that is live together with it, and has
had its first turn. -/
lemma exists_holder (hall : Allocating t start (fun _ => False) s) (hfixed : t.fixed = [])
    (h : Pending t start (m :: ms) s) {li : Interval} (hli : start.get? m.reg = some li) {c : Nat}
    {p : PhysReg} (hp : p ∈ t.candidates c)
    (hnot : s.matrix.check s.intervals m.reg p ≠ .free) :
    ∃ o, s.matrix.assigned? o = some p ∧ start.Cross m.reg o ∧ o ∉ ms.map (·.reg) := by
  have hr := h.kept m (List.mem_cons_self ..) li hli
  cases hcheck : s.matrix.check s.intervals m.reg p with
  | free => exact absurd hcheck hnot
  | fixed => exact absurd hcheck (check_ne_fixed hfixed hall.placement h.reserved hp m.reg)
  | occupied os =>
    obtain ⟨hover, hocc⟩ := (Allocating.check_spec hr).2 os hcheck
    cases os with
    | nil => exact (RegMatrix.check_ne_occupied_nil _ _ _ _ hcheck).elim
    | cons o os =>
      have ho : o ∈ s.matrix.occupants s.intervals li p := hocc ▸ List.mem_cons_self ..
      have hplace := hall.assigned_of_mem_occupants ho
      have hlt := h.early (List.cons_ne_nil _ _) o p hplace
      obtain ⟨lo, hlo⟩ : ∃ lo, start.get? o = some lo := ⟨_, Array.getElem?_eq_getElem hlt⟩
      -- who has a place was not spilled
      have hsame : s.intervals.get? o = some lo := by
        rcases hall.history.origins o lo hlo with hk | hg
        · exact hk.same
        · rw [hg.unplaced] at hplace
          cases hplace
      have hmeet : li.Meets lo := by
        have hov := (List.mem_filter.1 ho).2
        rw [hsame] at hov
        exact (Interval.overlaps_iff (hall.sound.separated _ _ hr)
          (hall.sound.separated _ _ hsame)).1 (by simpa using hov)
      have hwait : ∀ m' ∈ m :: ms, m'.reg ≠ o := by
        rintro m' hm' rfl
        rw [h.unplaced m' hm'] at hplace
        cases hplace
      refine ⟨o, hplace, ⟨hwait m (List.mem_cons_self ..), li, lo, hli, hlo, hmeet⟩, ?_⟩
      intro hmem
      obtain ⟨m', hm', he⟩ := List.mem_map.1 hmem
      exact hwait m' (List.mem_cons_of_mem _ hm') he

/-- A register that was removed with fewer neighbours than there are colours finds a free place:
otherwise each candidate would be held by a neighbour of its own. -/
lemma exists_free (hall : Allocating t start (fun _ => False) s) (hfixed : t.fixed = [])
    (hm : Counts start colors ms m) (htrivial : m.spill = false)
    (h : Pending t start (m :: ms) s) {c : Nat} (hregs : colors ≤ (t.candidates c).dedup.length) :
    ∃ p ∈ t.candidates c, s.matrix.check s.intervals m.reg p = .free := by
  by_contra hnone
  push Not at hnone
  obtain ⟨li, hli, -⟩ := hm.live
  have hholder := fun p (hp : p ∈ t.candidates c) =>
    h.exists_holder hall hfixed hli hp (hnone p hp)
  choose! holder hplace hcross hnot using hholder
  have hnodup : ((t.candidates c).dedup.map holder).Nodup := by
    refine List.Nodup.map_on ?_ (List.nodup_dedup _)
    intro p hp p' hp' he
    have h1 := hplace p (List.mem_dedup.1 hp)
    rw [he, hplace p' (List.mem_dedup.1 hp')] at h1
    exact (Option.some.inj h1).symm
  have hcount := hm.degree _ hnodup (by
    intro q hq
    obtain ⟨p, hp, rfl⟩ := List.mem_map.1 hq
    exact ⟨hcross p (List.mem_dedup.1 hp), hnot p (List.mem_dedup.1 hp)⟩)
  have hfew := hm.trivial htrivial
  rw [List.length_map] at hcount
  omega

/-- So it is put into a free place, and nobody is driven out. -/
lemma takes (hall : Allocating t start (fun _ => False) s) (hfixed : t.fixed = [])
    (hm : Counts start colors ms m) (htrivial : m.spill = false)
    (h : Pending t start (m :: ms) s) {c : Nat} (hclass : ∀ r li, start.get? r = some li →
      li.regClass = c) (hregs : colors ≤ (t.candidates c).dedup.length) (rest : List Waiting) :
    ∃ p ∈ t.candidates c, s.matrix.check s.intervals m.reg p = .free ∧
      (AllocState.selectOrSpill t m.reg).run { s with queue := rest } =
        (AllocState.assign m.reg p).run { s with queue := rest } := by
  obtain ⟨p, hp, hfree⟩ := h.exists_free hall hfixed hm htrivial hregs
  obtain ⟨li, hli, hlive⟩ := hm.live
  obtain ⟨p', hchoice⟩ : ∃ p', AllocState.choose { s with queue := rest } m.reg li.weight .giveUp
      (t.candidates c) = .take p' := AllocState.exists_choose_take .giveUp hp hfree
  obtain ⟨hp', hfree'⟩ := Allocating.choose_take (by simp) hchoice
  refine ⟨p', hp', hfree', ?_⟩
  have hr : s.intervals.get? m.reg = some li := h.kept m (List.mem_cons_self ..) li hli
  have hnone := h.unplaced m (List.mem_cons_self ..)
  have hneed : ¬ (li.isEmpty || (s.matrix.assigned? m.reg).isSome) = true := by
    simp [hnone, Interval.isEmpty, hlive]
  unfold AllocState.selectOrSpill
  rw [EStateM.run_bind, EStateM.run_get]
  simp only [AllocState.intervals] at hr ⊢
  simp only [hr]
  rw [if_neg hneed, hclass m.reg li hli]
  simp only [hchoice]

/-! ## All turns -/

/-- Who is put into a place at its turn changes nothing but its place and the queue. -/
lemma exists_turn (hall : Allocating t start (fun _ => False) s) (hfixed : t.fixed = [])
    (hm : Counts start colors ms m) (htrivial : m.spill = false)
    (h : Pending t start (m :: ms) s) {c : Nat} (hclass : ∀ r li, start.get? r = some li →
      li.regClass = c) (hregs : colors ≤ (t.candidates c).dedup.length) :
    ∃ s', s.Turn t s' ∧ s'.intervals = s.intervals ∧ s'.spills = s.spills ∧
      s'.queue = s.queue.tail := by
  obtain ⟨front, back, hqueue, hfront, -⟩ := h.queue
  obtain ⟨w, front, rfl, hw, -⟩ := List.map_eq_cons_iff.1 hfront
  obtain ⟨p, -, -, hrun⟩ := h.takes hall hfixed hm htrivial hclass hregs (front ++ back)
  obtain ⟨s', hassign, hivs, hspills, hq⟩ :=
    AllocState.assign_run m.reg p { s with queue := front ++ back }
  refine ⟨s', ⟨w, front ++ back, hqueue, ?_⟩, hivs, hspills, ?_⟩
  · rw [hw]
    exact hrun.trans hassign
  · rw [hq, hqueue]
    rfl

/-- If all that are to have a turn were removed with few neighbours, nobody is spilled. -/
lemma drain (hfixed : t.fixed = []) {c : Nat} (hclass : ∀ r li, start.get? r = some li →
      li.regClass = c) (hregs : colors ≤ (t.candidates c).dedup.length)
    (hall : Allocating t start (fun _ => False) s) (hms : Counted start colors ms)
    (htrivial : ∀ m ∈ ms, m.spill = false) (h : Pending t start ms s)
    (hqueue : s.queue.length = ms.length) {bound : Nat} (hbound : ms.length < bound) :
    ∃ s', (AllocState.drain t bound).run s = .ok ⟨⟩ s' ∧ s'.intervals = s.intervals ∧
      s'.spills = s.spills := by
  induction ms generalizing s bound with
  | nil =>
    obtain ⟨bound, rfl⟩ := Nat.exists_eq_add_one_of_ne_zero (Nat.ne_of_gt hbound)
    refine ⟨s, ?_, rfl, rfl⟩
    rw [AllocState.drain, EStateM.run_bind, EStateM.run_get]
    simp only [List.length_eq_zero_iff.1 hqueue]
    rfl
  | cons m ms ih =>
    obtain ⟨bound, rfl⟩ := Nat.exists_eq_add_one_of_ne_zero (Nat.ne_of_gt (Nat.zero_lt_of_lt hbound))
    obtain ⟨s1, hturn, hivs, hspills, hq⟩ := h.exists_turn hall hfixed hms.head
      (htrivial m (List.mem_cons_self ..)) hclass hregs
    obtain ⟨s', hrun, hivs', hspills'⟩ := ih (hall.turn hturn) hms.tail
      (fun m' hm' => htrivial m' (List.mem_cons_of_mem _ hm')) (h.turn hall hms hturn)
      (by rw [hq, List.length_tail, hqueue]; rfl) (Nat.lt_of_succ_lt_succ hbound)
    exact ⟨s', (hturn.drain bound).trans hrun, hivs'.trans hivs, hspills'.trans hspills⟩

end Pending

/-- At the start everybody is still to have a first turn, in the reverse order of removals. -/
lemma pending_prepare {t : Target} {st : SpillState} {colors : Nat} {s : AllocState}
    (hsound : st.intervals.Sound)
    (hrun : (AllocState.prepare colors).run ⟨st, .ofTarget t, [], []⟩ = .ok ⟨⟩ s) :
    Pending t st.intervals
      ((InterferenceGraph.build st.intervals).simplify st.intervals colors).1.removals.reverse s ∧
      s.intervals = st.intervals ∧ s.spills = [] ∧ s.queue.length =
        ((InterferenceGraph.build st.intervals).simplify st.intervals colors).1.removals.length := by
  have hcounted := InterferenceGraph.simplify_counted hsound colors
  set simple := ((InterferenceGraph.build st.intervals).simplify st.intervals colors).1
  cases hrun
  have hnodup : simple.order.Nodup := by
    have := hcounted.nodup
    rw [List.map_reverse, List.nodup_reverse] at this
    exact this
  have hrising := simple.pairwise_priority hnodup
  have hqueue := Waiting.enqueueAll_rising (f := fun r => ⟨simple.priority r, r⟩)
    (l := simple.order) (q := []) hrising (fun _ _ _ hv => nomatch hv)
  have hunplaced : ∀ r, (RegMatrix.ofTarget t).assigned? r = none :=
    fun r => NatMap.get?_empty r.index
  refine ⟨⟨rfl, Nat.le_refl _, ⟨_, [], hqueue, ?_, ?_, fun w hw => nomatch hw⟩,
    fun m _ => hunplaced m.reg, fun m _ li hli => hli, ?_⟩, rfl, rfl, ?_⟩
  · rw [List.map_reverse, List.map_map, List.map_reverse]
    congr 1
    exact List.map_id _
  · intro w hw
    obtain ⟨r, hr, rfl⟩ := List.mem_map.1 (List.mem_reverse.1 hw)
    exact simple.priority_pos hr
  · intro _ q p hq
    cases (hunplaced q).symm.trans hq
  · refine (congrArg List.length hqueue).trans ?_
    rw [List.append_nil, List.length_reverse, List.length_map]
    exact List.length_map _

lemma AllocState.size_lt_turns (ivs : Intervals) : ivs.size < AllocState.turns ivs := by
  have hsum := total_map_le (f := fun _ => 1) (g := fun li : Interval => li.usedAt.length + 2)
    (l := ivs.toList) fun _ _ => by omega
  have hones : ∀ l : List Interval, total (l.map fun _ => 1) = l.length := by
    intro l
    induction l with
    | nil => rfl
    | cons _ rest ih =>
      rw [List.map_cons, total_cons, ih, List.length_cons]
      omega
  rw [hones] at hsum
  have hlen : ivs.toList.length = ivs.size := Array.length_toList
  unfold AllocState.turns
  omega

/-! ## The whole run -/

/-- A run whose queue runs empty ends well. -/
lemma allocate_run {t : Target} {colors : Nat} {st : SpillState} {s₀ s : AllocState}
    (ht : t.validate = .ok ()) (hcolors : 1 ≤ colors)
    (hprep : (AllocState.prepare colors).run ⟨st, .ofTarget t, [], []⟩ = .ok ⟨⟩ s₀)
    (hdrain : (AllocState.drain t (AllocState.turns st.intervals)).run s₀ = .ok ⟨⟩ s) :
    ∃ st', (allocate t colors).run st = .ok ⟨s.matrix.assignment, s.spills⟩ st' ∧
      st'.intervals = s.intervals := by
  obtain ⟨s', hnote, hivs⟩ : ∃ s', (AllocState.note (.allocated s.matrix.assignment.size
      s.spills.length)).run s = .ok ⟨⟩ s' ∧ s'.intervals = s.intervals := ⟨_, rfl, rfl⟩
  have hwhole := AllocState.whole_ok.2
    ⟨ht, Nat.ne_of_gt hcolors, s₀, s, hprep, hdrain, rfl, hnote⟩
  exact ⟨s'.spilling, allocate_ok.2 ⟨s', hwhole, rfl⟩, hivs⟩

/-- Along the run, some of the removals are still to have their turns. -/
lemma exists_pending {t : Target} {st : SpillState} {colors : Nat} {s₀ s : AllocState}
    (hsound : st.intervals.Sound)
    (hprep : (AllocState.prepare colors).run ⟨st, .ofTarget t, [], []⟩ = .ok ⟨⟩ s₀)
    (hreach : Relation.ReflTransGen (AllocState.Turn t) s₀ s) :
    Allocating t st.intervals (fun _ => False) s ∧ ∃ ms, Pending t st.intervals ms s ∧
      ms <:+ ((InterferenceGraph.build st.intervals).simplify st.intervals
        colors).1.removals.reverse := by
  have hcounted := InterferenceGraph.simplify_counted hsound colors
  induction hreach with
  | refl =>
    exact ⟨Allocating.prepare hsound hprep, _, (pending_prepare hsound hprep).1, List.suffix_rfl⟩
  | tail _ hturn ih =>
    obtain ⟨hall, ms, hpending, hsuf⟩ := ih
    have hms : Counted st.intervals colors ms :=
      fun m before hm => hcounted m before (hm.trans hsuf)
    exact ⟨hall.turn hturn, ms.tail, hpending.turn hall hms hturn,
      (List.tail_suffix ms).trans hsuf⟩

/-- Allocation spills nobody if simplification found no potential spill: with as many registers
to hand out as there are colours, every register that is live somewhere gets one, and the
intervals stay as they are. Whether or not there are potential spills, a register that was
removed with fewer neighbours than there are colours is put into a free place at its turn. -/
theorem allocate_colors {t : Target} {colors c : Nat} {st : SpillState}
    (hbuilt : st.intervals.Built)
    (hclass : ∀ r li, st.intervals.get? r = some li → li.regClass = c)
    (ht : t.validate = .ok ()) (hfixed : t.fixed = []) (hcolors : 1 ≤ colors)
    (hregs : colors ≤ (t.candidates c).dedup.length) :
    let simple := ((InterferenceGraph.build st.intervals).simplify st.intervals colors).1
    (simple.potentialSpills = [] → ∃ a st', (allocate t colors).run st = .ok a st' ∧
      a.spills = [] ∧ st'.intervals = st.intervals ∧
      ∀ r li, st.intervals.get? r = some li → li.isEmpty = false → a.assigned? r ≠ none) ∧
    ∀ s₀ s w rest, (AllocState.prepare colors).run ⟨st, .ofTarget t, [], []⟩ = .ok ⟨⟩ s₀ →
      Relation.ReflTransGen (AllocState.Turn t) s₀ s → s.queue = w :: rest →
      ∀ m ∈ simple.removals, m.reg = w.reg → m.spill = false →
      ∃ p ∈ t.candidates c, s.matrix.check s.intervals w.reg p = .free ∧
        (AllocState.selectOrSpill t w.reg).run { s with queue := rest } =
          (AllocState.assign w.reg p).run { s with queue := rest } := by
  intro simple
  have hsound := hbuilt.sound
  have hcounted : Counted st.intervals colors simple.removals.reverse :=
    InterferenceGraph.simplify_counted hsound colors
  refine ⟨?_, ?_⟩
  · intro hnone
    have htrivial : ∀ m ∈ simple.removals.reverse, m.spill = false := by
      intro m hm
      rw [Simplification.potentialSpills, List.map_eq_nil_iff, List.filter_eq_nil_iff] at hnone
      simpa using hnone m (List.mem_reverse.1 hm)
    obtain ⟨s₀, hprep⟩ : ∃ s₀, (AllocState.prepare colors).run ⟨st, .ofTarget t, [], []⟩ =
      .ok ⟨⟩ s₀ := ⟨_, rfl⟩
    obtain ⟨hpending, hivs₀, hspills₀, hlen⟩ := pending_prepare hsound hprep
    have hall := Allocating.prepare hsound hprep
    have hfew : simple.removals.length ≤ st.intervals.size := by
      have := InterferenceGraph.length_order st.intervals colors
      rwa [Simplification.order, List.length_map] at this
    have hbound : simple.removals.reverse.length < AllocState.turns st.intervals := by
      rw [List.length_reverse]
      exact Nat.lt_of_le_of_lt hfew (AllocState.size_lt_turns _)
    obtain ⟨s, hdrain, hivs, hspills⟩ := hpending.drain hfixed hclass hregs hall hcounted htrivial
      (hlen.trans List.length_reverse.symm) hbound
    obtain ⟨hend, hempty⟩ := hall.drain hdrain
    obtain ⟨st', hrun, hst'⟩ := allocate_run ht hcolors hprep hdrain
    refine ⟨_, st', hrun, hspills.trans hspills₀, hst'.trans (hivs.trans hivs₀), ?_⟩
    intro r li hr hne
    have hget : s.intervals.get? r = some li := by rw [hivs, hivs₀, hr]
    obtain ⟨p, hp, -⟩ := hend.seated hempty r li hget (by simpa [Interval.isEmpty] using hne)
    rw [hp]
    exact Option.some_ne_none p
  · intro s₀ s w rest hprep hreach hqueue m hm hreg htrivial
    obtain ⟨hall, ms, hpending, hsuf⟩ := exists_pending hsound hprep hreach
    obtain ⟨front, back, hq, hregs', -, hback⟩ := hpending.queue
    have hmem : m ∈ simple.removals.reverse := List.mem_reverse.2 hm
    cases ms with
    | nil =>
      -- who waits now is a piece
      exfalso
      rw [List.map_nil, List.map_eq_nil_iff] at hregs'
      subst hregs'
      have hge := hback w (by rw [← List.nil_append back, ← hq, hqueue]; exact List.mem_cons_self ..)
      obtain ⟨before, after, hsplit⟩ := List.append_of_mem hmem
      obtain ⟨li, hli, -⟩ := (hcounted m after ⟨before, hsplit.symm⟩).live
      rw [← hreg] at hge
      exact absurd (Intervals.lt_size hli) (Nat.not_lt.2 hge)
    | cons m' ms =>
      obtain ⟨w', front', rfl, hw, -⟩ := List.map_eq_cons_iff.1 hregs'
      rw [hqueue, List.cons_append, List.cons.injEq] at hq
      obtain ⟨rfl, rfl⟩ := hq
      -- the removal of the register is the one that is due
      have hsame : m' = m := List.inj_on_of_nodup_map hcounted.nodup
        (hsuf.mem (List.mem_cons_self ..)) hmem (hw.symm.trans hreg.symm)
      subst hsame
      rw [← hreg]
      exact hpending.takes hall hfixed (hcounted m' ms hsuf) htrivial hclass hregs _

/-- With two registers to hand out nobody of the crowded is spilled. With one register, the second
of them, which was removed when nobody it meets was left, takes it when the queue is opened. -/
theorem allocate_colors_crowded :
    (∃ a st', (allocate (.uniform 2) 2).run ⟨crowded, 0, #[]⟩ = .ok a st' ∧ a.spills = [] ∧
      st'.intervals = crowded ∧ ∀ r ∈ [⟨0⟩, ⟨1⟩, ⟨2⟩], a.assigned? r ≠ none) ∧
    ∃ s w rest, (AllocState.prepare 1).run ⟨⟨crowded, 0, #[]⟩, .ofTarget (.uniform 1), [], []⟩ =
      .ok ⟨⟩ s ∧ s.queue = w :: rest ∧ w.reg = ⟨1⟩ ∧ ∃ p ∈ (Target.uniform 1).candidates 0,
        s.matrix.check s.intervals w.reg p = .free ∧
        (AllocState.selectOrSpill (.uniform 1) w.reg).run { s with queue := rest } =
          (AllocState.assign w.reg p).run { s with queue := rest } := by
  have hclass : ∀ r li, crowded.get? r = some li → li.regClass = 0 := by
    intro r li h
    rcases r with ⟨_ | _ | _ | n⟩ <;> cases h <;> rfl
  refine ⟨?_, ?_⟩
  · obtain ⟨a, st', hrun, hspills, hivs, hplaced⟩ :=
      (@allocate_colors (.uniform 2) 2 0 ⟨crowded, 0, #[]⟩ crowded_built hclass (by decide) rfl
        (by decide) (by decide)).1 (by decide +kernel)
    refine ⟨a, st', hrun, hspills, hivs, ?_⟩
    intro r hr
    simp only [List.mem_cons, List.not_mem_nil, or_false] at hr
    rcases hr with rfl | rfl | rfl
    · exact hplaced _ _ rfl rfl
    · exact hplaced _ _ rfl rfl
    · exact hplaced _ _ rfl rfl
  · have hqueue : ((AllocState.prepare 1).state ⟨⟨crowded, 0, #[]⟩, .ofTarget (.uniform 1), [],
        []⟩).queue = [⟨3, ⟨1⟩⟩, ⟨2, ⟨0⟩⟩, ⟨1, ⟨2⟩⟩] := by
      decide +kernel
    refine ⟨_, _, _, rfl, hqueue, rfl, ?_⟩
    exact (@allocate_colors (.uniform 1) 1 0 ⟨crowded, 0, #[]⟩ crowded_built hclass (by decide) rfl
      (by decide) (by decide)).2 _ _ _ _ rfl .refl hqueue ⟨⟨1⟩, false, 0, .zero⟩
      (by decide +kernel) rfl rfl

end SsaBackend
