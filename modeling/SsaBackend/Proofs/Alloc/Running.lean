import SsaBackend.Proofs.Alloc.Promised

/-!
# Allocation comes to an end

`Running` is the invariant of an allocation in progress together with what keeps it going: every
piece is one of a register of the start that was spilled, and stands for one slot of it that no
other piece stands for. A spill uses up a register of the start, and leaves no more pieces than
that register has uses and definitions. So the number of turns that are still needed goes down
with every turn (`needed`), and the work is not given up before the queue runs empty; the only
way in which it is refused is that a piece finds no place (`Running.drain`).
-/

namespace SsaBackend

open Segment

/-! ## What allocation begins with -/

/-- The intervals of registers that were not spilled yet. -/
structure Intervals.Computed (ivs : Intervals) : Prop where
  sound : ivs.Sound
  spillable : ∀ r li, ivs.get? r = some li → li.spillable = true
  regClass : ∀ r li, ivs.get? r = some li → li.regClass = 0
  weight : ∀ r li, ivs.get? r = some li → li.weight.le .infinity = true
  defAt : ∀ r li, ivs.get? r = some li → ∀ d, li.defAt = some d → d % 4 = 2
  usedAt : ∀ r li, ivs.get? r = some li → ∀ u ∈ li.usedAt, u % 4 = 1

/-! ## The pieces of a spilled register -/

lemma length_insertAscending {α : Type} (key : α → Nat) (a : α) (l : List α) :
    (insertAscending key a l).length ≤ l.length + 1 := by
  induction l with
  | nil => simp [insertAscending]
  | cons x rest ih =>
    rw [insertAscending]
    split
    · simp
    · split
      · simp
      · simpa using ih

lemma length_ascending {α : Type} (key : α → Nat) (l : List α) :
    (ascending key l).length ≤ l.length := by
  induction l with
  | nil => simp [ascending]
  | cons x rest ih =>
    have := length_insertAscending key x (ascending key rest)
    rw [List.length_cons]
    show (insertAscending key x (ascending key rest)).length ≤ _
    omega

namespace SpillRecord

lemma nodup_starts {li : Interval} (hd : ∀ d, li.defAt = some d → d % 4 = 2) :
    (starts li).Nodup := by
  unfold starts bases
  refine List.nodup_append.2 ⟨?_, ?_, ?_⟩
  · cases li.defAt <;> simp
  · exact (pairwise_ascending id _).imp fun h => Nat.ne_of_lt h
  · -- a definition is at no reload slot
    intro a ha b hb hab
    have h2 := hd a (Option.mem_toList.1 ha)
    obtain ⟨u, -, rfl⟩ := List.mem_map.1 ((mem_ascending fun a b (h : id a = id b) => h).1 hb)
    unfold baseSlot at hab
    omega

lemma length_starts (li : Interval) : (starts li).length ≤ li.usedAt.length + 1 := by
  have hbases := length_ascending id (li.usedAt.map baseSlot)
  rw [List.length_map] at hbases
  unfold starts bases
  rw [List.length_append]
  cases li.defAt with
  | none =>
    simp only [Option.toList_none, List.length_nil]
    omega
  | some d =>
    simp only [Option.toList_some, List.length_cons, List.length_nil]
    omega

lemma size_addPieces (r : VirtReg) (shapes : List (Interval → Interval)) (ivs : Intervals) :
    (shapes.foldl (addPiece r) ivs).size = ivs.size + shapes.length := by
  induction shapes generalizing ivs with
  | nil => rfl
  | cons shape rest ih =>
    rw [List.foldl_cons, ih, size_addPiece, List.length_cons]
    omega

lemma size_apply (ivs : Intervals) (r : VirtReg) (li : Interval) :
    (apply ivs r li).size = ivs.size + (starts li).length := by
  unfold apply
  rw [size_addPieces, Intervals.size_modify, length_pieces]

end SpillRecord

/-- What spilling a register that can be spilled comes to. -/
lemma spill_run {s : SpillState} {r : VirtReg} {li : Interval} (hr : s.intervals.get? r = some li)
    (hs : li.spillable = true) : ∃ record st, (spill r).run s = .ok record st ∧
      st.intervals = SpillRecord.apply s.intervals r li ∧
      record.products.length = (SpillRecord.starts li).length := by
  refine ⟨⟨r, ⟨s.slots⟩, SpillRecord.handles s.intervals li, li.defAt, li.usedAt⟩,
    { intervals := SpillRecord.apply s.intervals r li
      slots := s.slots + 1
      journal := s.journal.push
        (.spilled r ⟨s.slots⟩ (SpillRecord.handles s.intervals li).length) }, ?_, rfl, ?_⟩
  · unfold spill
    rw [EStateM.run_bind, EStateM.run_get]
    simp only [hr, hs]
    rfl
  · unfold SpillRecord.handles
    rw [List.length_map, List.length_range, SpillRecord.length_pieces]

/-! ## Pieces -/

/-- What holds of the registers that came since the start: each of them is a piece of a register
that was spilled, and no two of them stand for one slot of one register. -/
structure Pieces (start ivs : Intervals) : Prop where
  larger : start.size ≤ ivs.size
  products : ∀ q lq, ivs.get? q = some lq → start.size ≤ q.index →
    ∃ r li c, start.get? r = some li ∧ c ∈ SpillRecord.starts li ∧
      SpillRecord.PieceOf r li c q lq ∧ ∃ lr, ivs.get? r = some lr ∧ lr.spillable = false
  distinct : ∀ q q' lq lq', ivs.get? q = some lq → ivs.get? q' = some lq' →
    start.size ≤ q.index → start.size ≤ q'.index → lq.origin = lq'.origin → lq.segments ≠ [] →
    lq.segments = lq'.segments → q = q'

namespace Pieces

variable {start ivs : Intervals} {r : VirtReg} {li : Interval}

lemma refl (ivs : Intervals) : Pieces ivs ivs := by
  refine ⟨Nat.le_refl _, ?_, ?_⟩
  · intro q lq hq hge
    exact absurd (Intervals.lt_size hq) (Nat.not_lt.2 hge)
  · intro q q' lq lq' hq hq' hge
    exact absurd (Intervals.lt_size hq) (Nat.not_lt.2 hge)

/-- A register that can be spilled has no pieces yet. -/
lemma origin_ne (h : Pieces start ivs) (hr : ivs.get? r = some li) (hs : li.spillable = true)
    {q : VirtReg} {lq : Interval} (hq : ivs.get? q = some lq) (hge : start.size ≤ q.index) :
    lq.origin ≠ some r := by
  intro he
  obtain ⟨r', l₀, c, -, -, hpiece, lr, hlr, hsp⟩ := h.products q lq hq hge
  rw [hpiece.origin] at he
  cases he
  rw [hr] at hlr
  cases hlr
  rw [hs] at hsp
  cases hsp

/-- Once a register is spilled, a piece is one there was or one of that register. -/
lemma get?_apply (hr : ivs.get? r = some li) (hs : li.spillable = true)
    (hrlt : r.index < start.size) {q : VirtReg} {lq : Interval}
    (hq : (SpillRecord.apply ivs r li).get? q = some lq) (hge : start.size ≤ q.index) :
    ivs.get? q = some lq ∨ ivs.size ≤ q.index ∧
      ∃ c, (SpillRecord.starts li)[q.index - ivs.size]? = some c ∧
        SpillRecord.PieceOf r li c q lq := by
  have hrep := SpillRecord.replaced_apply hr hs
  by_cases hlt : q.index < ivs.size
  · left
    rw [← hrep.others q (fun he => by rw [he] at hge; omega) hlt]
    exact hq
  · right
    exact ⟨Nat.not_lt.1 hlt, SpillRecord.pieceOf_of_get? hr hq (Nat.not_lt.1 hlt)⟩

lemma spill (h : Pieces start ivs) (hr : ivs.get? r = some li) (hs : li.spillable = true)
    (hstart : start.get? r = some li) (hdef : ∀ d, li.defAt = some d → d % 4 = 2) :
    Pieces start (SpillRecord.apply ivs r li) := by
  have hrep := SpillRecord.replaced_apply hr hs
  have hrlt := Intervals.lt_size hstart
  refine ⟨?_, ?_, ?_⟩
  · rw [SpillRecord.size_apply]
    exact Nat.le_add_right_of_le h.larger
  · intro q lq hq hge
    rcases get?_apply hr hs hrlt hq hge with hq | ⟨-, c, hc, hpiece⟩
    · obtain ⟨r', l₀, c, hl₀, hc, hpiece, lr, hlr, hsp⟩ := h.products q lq hq hge
      refine ⟨r', l₀, c, hl₀, hc, hpiece, lr, ?_, hsp⟩
      rw [hrep.others r' ?_ (Intervals.lt_size hlr)]
      · exact hlr
      · intro he
        exact h.origin_ne hr hs hq hge (he ▸ hpiece.origin)
    · exact ⟨r, li, c, hstart, List.mem_of_getElem? hc, hpiece, _, hrep.emptied, rfl⟩
  · intro q q' lq lq' hq hq' hge hge' horig hlive hseg
    rcases get?_apply hr hs hrlt hq hge with hq | ⟨hlt, c, hc, hpiece⟩
    · rcases get?_apply hr hs hrlt hq' hge' with hq' | ⟨-, c', -, hpiece'⟩
      · exact h.distinct q q' lq lq' hq hq' hge hge' horig hlive hseg
      · exact absurd (horig.trans hpiece'.origin) (h.origin_ne hr hs hq hge)
    · rcases get?_apply hr hs hrlt hq' hge' with hq' | ⟨hlt', c', hc', hpiece'⟩
      · exact absurd (horig.symm.trans hpiece.origin) (h.origin_ne hr hs hq' hge')
      · -- two pieces of the register begin at different slots
        have hlive' := hlive
        rw [hseg] at hlive'
        obtain ⟨hi, hc⟩ := List.getElem?_eq_some_iff.1 hc
        obtain ⟨hi', hc'⟩ := List.getElem?_eq_some_iff.1 hc'
        have hcc : c = c' := by
          rw [hpiece.segments_of_live hlive, hpiece'.segments_of_live hlive'] at hseg
          simp only [List.cons.injEq, Segment.mk.injEq] at hseg
          exact hseg.1.1
        subst hcc
        have hapart := List.pairwise_iff_getElem.1 (SpillRecord.nodup_starts hdef)
        apply VirtReg.index_inj.1
        by_contra hne
        rcases Nat.lt_or_gt_of_ne hne with hl | hl
        · exact hapart _ _ hi hi' (by omega) (hc.trans hc'.symm)
        · exact hapart _ _ hi' hi (by omega) (hc'.trans hc.symm)

end Pieces

/-- A register that can be spilled is one of the start, as it was. -/
lemma History.start_of_spillable {start ivs : Intervals} {m : RegMatrix}
    {spills : List SpillRecord} (h : History start ivs m spills) {r : VirtReg} {li : Interval}
    (hr : ivs.get? r = some li) (hs : li.spillable = true) : start.get? r = some li := by
  have hlt : r.index < start.size := by
    by_contra hge
    rw [h.pieces r li hr (Nat.not_lt.1 hge)] at hs
    cases hs
  obtain ⟨l₀, hl₀⟩ : ∃ l₀, start.get? r = some l₀ := ⟨_, Array.getElem?_eq_getElem hlt⟩
  rcases h.origins r l₀ hl₀ with hk | hg
  · rw [hl₀, ← hk.same, hr]
  · have := hg.emptied
    rw [hr] at this
    cases this
    cases hs

/-! ## Turns -/

/-- The turns that the pieces of a register can still ask for. -/
def price (o : Option Interval) : Nat :=
  o.elim 0 fun li => if li.spillable then li.usedAt.length + 1 else 0

/-- The turns that are still needed at most, beside the one that finds the queue empty. -/
def needed (start : Intervals) (s : AllocState) : Nat :=
  s.queue.length + total ((List.range start.size).map fun i => price (s.intervals.get? ⟨i⟩))

lemma Waiting.length_enqueue (w : Waiting) (q : List Waiting) :
    (w.enqueue q).length = q.length + 1 := by
  induction q with
  | nil => rfl
  | cons v rest ih =>
    unfold enqueue
    split
    · rfl
    · rw [List.length_cons, ih, List.length_cons]

lemma Waiting.length_enqueueAll {α : Type} (f : α → Waiting) (l : List α) (q : List Waiting) :
    (l.foldl (fun q a => (f a).enqueue q) q).length = q.length + l.length := by
  induction l generalizing q with
  | nil => rfl
  | cons a rest ih =>
    rw [List.foldl_cons, ih, length_enqueue, List.length_cons]
    omega

/-- A register that is spilled pays for the turns of its pieces. -/
lemma total_price_apply {start ivs : Intervals} {r : VirtReg} {li : Interval}
    (hlarge : start.size ≤ ivs.size) (hr : ivs.get? r = some li) (hs : li.spillable = true)
    (hrlt : r.index < start.size) :
    (SpillRecord.starts li).length +
        total ((List.range start.size).map fun i =>
          price ((SpillRecord.apply ivs r li).get? ⟨i⟩)) ≤
      total ((List.range start.size).map fun i => price (ivs.get? ⟨i⟩)) := by
  have hrep := SpillRecord.replaced_apply hr hs
  have hchange := total_map_change (f := fun i => price ((SpillRecord.apply ivs r li).get? ⟨i⟩))
    (g := fun i => price (ivs.get? ⟨i⟩)) (l := List.range start.size) (a := r.index)
    List.nodup_range (List.mem_range.2 hrlt) ?_
  · have hnow : price ((SpillRecord.apply ivs r li).get? ⟨r.index⟩) = 0 := by
      rw [show (⟨r.index⟩ : VirtReg) = r from rfl, hrep.emptied]
      rfl
    have hwas : price (ivs.get? ⟨r.index⟩) = li.usedAt.length + 1 := by
      rw [show (⟨r.index⟩ : VirtReg) = r from rfl, hr]
      simp [price, hs]
    have hstarts := SpillRecord.length_starts li
    omega
  · intro i hi hne
    have hne' : (⟨i⟩ : VirtReg) ≠ r := fun he => hne (congrArg VirtReg.index he)
    have hlt : i < ivs.size := Nat.lt_of_lt_of_le (List.mem_range.1 hi) hlarge
    rw [hrep.others ⟨i⟩ hne' hlt]

/-! ## The work goes on -/

/-- What keeps an allocation going that has `turns` turns left. -/
structure Running (t : Target) (start : Intervals) (turns : Nat) (s : AllocState) : Prop where
  once : ∀ i, (s.matrix.units.getD i []).Nodup
  reserved : s.matrix.reserved = (RegMatrix.ofTarget t).reserved
  pieces : Pieces start s.intervals
  enough : needed start s ≤ turns

namespace RegMatrix

lemma nodup_assign {m : RegMatrix} {r : VirtReg} {p : PhysReg}
    (h : ∀ i, (m.units.getD i []).Nodup) (hr : r ∉ m.units.getD p.index []) (i : Nat) :
    ((m.assign r p).units.getD i []).Nodup := by
  unfold assign
  split
  · simp only [getD_modify]
    split
    · rename_i hi
      rw [← hi.1]
      refine List.nodup_append.2 ⟨h p.index, List.pairwise_singleton .., ?_⟩
      intro a ha b hb hab
      rw [List.mem_singleton.1 hb] at hab
      exact hr (hab ▸ ha)
    · exact h i
  · exact h i

lemma nodup_unassign {m : RegMatrix} (h : ∀ i, (m.units.getD i []).Nodup) (r : VirtReg) (i : Nat) :
    ((m.unassign r).units.getD i []).Nodup := by
  unfold unassign
  split
  · exact h i
  · simp only [getD_modify]
    split
    · exact (h i).filter _
    · exact h i

lemma reserved_assign (m : RegMatrix) (r : VirtReg) (p : PhysReg) :
    (m.assign r p).reserved = m.reserved := by
  unfold assign
  split <;> rfl

lemma reserved_unassign (m : RegMatrix) (r : VirtReg) :
    (m.unassign r).reserved = m.reserved := by
  unfold unassign
  split <;> rfl

end RegMatrix

namespace Running

open AllocState

variable {t : Target} {start : Intervals} {busy : VirtReg → Prop} {turns : Nat} {s : AllocState}
  {r : VirtReg} {li : Interval}

/-- Spilling a register of the start that can be spilled is not refused, and costs no turn. -/
lemma spillReg (hstart : start.Computed) (h : Running t start turns s)
    (hr : s.intervals.get? r = some li) (hs : li.spillable = true)
    (hr₀ : start.get? r = some li) (E : Error → Prop) :
    (AllocState.spillReg r).Meets s (fun _ s' => Running t start turns s') E := by
  obtain ⟨record, st, hspill, hivs, hlen⟩ := spill_run (s := s.spilling) hr hs
  have hrun : (AllocState.spillReg r).run s = .ok ⟨⟩ { s with
      spilling := st
      queue := record.products.foldl (fun q v => Waiting.enqueue ⟨productPriority, v⟩ q) s.queue
      spills := s.spills ++ [record] } := by
    unfold AllocState.spillReg
    rw [EStateM.run_bind, EStateM.run_get]
    simp only [hspill]
    rfl
  refine Work.Meets.of_ok hrun ⟨h.once, h.reserved, ?_, ?_⟩
  · show Pieces start st.intervals
    rw [hivs]
    exact h.pieces.spill hr hs hr₀ (hstart.defAt r li hr₀)
  · have hqueue := Waiting.length_enqueueAll (fun v => ⟨productPriority, v⟩) record.products s.queue
    have hpaid := total_price_apply h.pieces.larger hr hs (Intervals.lt_size hr₀)
    have henough := h.enough
    unfold needed at henough ⊢
    simp only [AllocState.intervals] at hpaid henough ⊢
    rw [hivs]
    omega

lemma note (h : Running t start turns s) (e : Event) (E : Error → Prop) :
    (AllocState.note e).Meets s (fun _ s' => Running t start turns s' ∧
      s'.intervals = s.intervals ∧ s'.matrix = s.matrix) E :=
  Work.Meets.of_modify ⟨⟨h.once, h.reserved, h.pieces, h.enough⟩, rfl, rfl⟩

lemma evict (hstart : start.Computed) (h : Running t start turns s)
    (hr : s.intervals.get? r = some li) (hs : li.spillable = true)
    (hr₀ : start.get? r = some li) (p : PhysReg) (winner : VirtReg) (E : Error → Prop) :
    (AllocState.evict p winner r).Meets s (fun _ s' => Running t start turns s') E := by
  unfold AllocState.evict
  refine (h.note _ E).bind ?_
  rintro _ s1 ⟨h1, hivs, -⟩
  refine Work.Meets.modify_bind ?_
  have h2 : Running t start turns { s1 with matrix := s1.matrix.unassign r } := by
    refine ⟨RegMatrix.nodup_unassign h1.once r, ?_, h1.pieces, h1.enough⟩
    rw [RegMatrix.reserved_unassign]
    exact h1.reserved
  refine h2.spillReg hstart ?_ hs hr₀ E
  show s1.intervals.get? r = some li
  rw [hivs]
  exact hr

/-- Occupants that can be spilled can be driven out one after the other. -/
lemma evictAll (hstart : start.Computed) (hall : Allocating t start busy s)
    (h : Running t start turns s) {os : List VirtReg} (hos : os.Nodup)
    (hsp : ∀ o ∈ os, s.isSpillable o = true) (p : PhysReg) (winner : VirtReg)
    (E : Error → Prop) :
    (os.forM (AllocState.evict p winner)).Meets s (fun _ s' => Running t start turns s') E := by
  refine (Work.Meets.forM (f := AllocState.evict p winner) (fun rest s =>
    Allocating t start busy s ∧ Running t start turns s ∧ rest.Nodup ∧
      ∀ o ∈ rest, s.isSpillable o = true) ?_ os ⟨hall, h, hos, hsp⟩).mono
    (fun _ s' hs' => hs'.2.1) fun _ he => he
  rintro o rest s1 ⟨hall1, h1, hnodup, hsp1⟩
  obtain ⟨hnot, hnodup⟩ := List.nodup_cons.1 hnodup
  have ho := hsp1 o (List.mem_cons_self ..)
  unfold isSpillable at ho
  obtain ⟨lo, hlo, hs⟩ := (Option.any_eq_true _ _).1 ho
  have hlo₀ := hall1.history.start_of_spillable hlo hs
  refine (h1.evict hstart hlo hs hlo₀ p winner E).with_run.mono ?_ fun _ he => he
  rintro _ s2 ⟨h2, hrun⟩
  obtain ⟨hall2, -, lo', products, hrep⟩ := hall1.evict hrun
  refine ⟨hall2, h2, hnodup, ?_⟩
  -- the others are as they were
  intro q hq
  have hqs := hsp1 q (List.mem_cons_of_mem _ hq)
  unfold isSpillable at hqs ⊢
  obtain ⟨lq, hlq, hsq⟩ := (Option.any_eq_true _ _).1 hqs
  rw [hrep.others q (fun he => hnot (he ▸ hq)) (Intervals.lt_size hlq)]
  exact hqs

lemma assign (hall : Allocating t start busy s) (h : Running t start turns s)
    (hnone : s.matrix.assigned? r = none) (p : PhysReg) (E : Error → Prop) :
    (AllocState.assign r p).Meets s (fun _ s' => Running t start turns s') E := by
  unfold AllocState.assign
  refine (h.note _ E).bind ?_
  rintro _ s1 ⟨h1, -, hmat⟩
  refine Work.Meets.of_modify ⟨RegMatrix.nodup_assign h1.once ?_, ?_, h1.pieces, h1.enough⟩
  · rw [hmat, hall.placement.listed, hnone]
    exact fun he => nomatch he
  · rw [RegMatrix.reserved_assign]
    exact h1.reserved

end Running

/-- The register is live and has no place, finds none, and may not be spilled. -/
structure AllocState.Stuck (t : Target) (s : AllocState) (r : VirtReg) (li : Interval) : Prop where
  found : s.intervals.get? r = some li
  live : li.segments ≠ []
  unplaced : s.matrix.assigned? r = none
  crowded : s.choose r li.weight .giveUp (t.candidates li.regClass) = .giveUp
  unspillable : li.spillable = false

namespace AllocState

/-- A place that is taken from its occupants is one whose occupants can be driven out. -/
lemma evictable_of_choose {s : AllocState} {r : VirtReg} {weight : Weight} {p : PhysReg}
    {os : List VirtReg} {site : Choice} {cands : List PhysReg}
    (hsite : ∀ p os, site = .evictFrom p os → s.evictable weight os = true)
    (h : s.choose r weight site cands = .evictFrom p os) : s.evictable weight os = true := by
  induction cands generalizing site with
  | nil => exact hsite p os h
  | cons c rest ih =>
    unfold choose at h
    split at h
    · cases h
    · refine ih ?_ h
      intro p' os' he
      split at he
      · rename_i hev
        cases he
        exact hev
      · cases he
    · exact ih hsite h

end AllocState

namespace Running

open AllocState

variable {t : Target} {start : Intervals} {busy : VirtReg → Prop} {turns : Nat} {s : AllocState}

/-- A turn is refused only where a register is stuck, and costs no further turn. -/
lemma selectOrSpill (hstart : start.Computed) {r : VirtReg}
    (hall : Allocating t start (fun q => busy q ∨ q = r) s) (h : Running t start turns s)
    {E : Error → Prop} (hE : ∀ li, s.Stuck t r li → E (.allocationFailed r)) :
    (AllocState.selectOrSpill t r).Meets s (fun _ s' => Running t start turns s') E := by
  unfold AllocState.selectOrSpill
  refine Work.Meets.get_bind ?_
  cases hr : s.intervals.get? r with
  | none => exact Work.Meets.of_pure h
  | some li =>
    simp only
    -- a register without slots, or with a place already, needs none
    by_cases hneed : (li.isEmpty || (s.matrix.assigned? r).isSome) = true
    · rw [if_pos hneed]
      exact Work.Meets.of_pure h
    · rw [if_neg hneed]
      simp only [Bool.or_eq_true, not_or, Interval.isEmpty, List.isEmpty_iff,
        Option.isSome_iff_ne_none, not_not] at hneed
      obtain ⟨hlive, hnone⟩ := hneed
      cases hchoice : s.choose r li.weight .giveUp (t.candidates li.regClass) with
      | take p => exact assign hall h hnone p E
      | evictFrom p os =>
        rcases Allocating.choose_evict hchoice with hsite | ⟨-, hcheck⟩
        · cases hsite
        · obtain ⟨-, hocc⟩ := (Allocating.check_spec hr).2 os hcheck
          -- all that stand in the way can be spilled, and none of them is listed twice
          have hev := evictable_of_choose (fun _ _ he => by cases he) hchoice
          have hsp : ∀ o ∈ os, s.isSpillable o = true := fun o ho =>
            (Bool.and_eq_true_iff.1 (List.all_eq_true.1 hev o ho)).1
          have hnodup : os.Nodup := by
            rw [← hocc]
            exact (h.once p.index).filter _
          refine (evictAll hstart hall h hnodup hsp p r E).with_run.bind ?_
          rintro _ s1 ⟨h1, hrun⟩
          obtain ⟨hall1, -, hnone1, -⟩ := hall.evictAll hr hnone hocc hrun
          exact assign hall1 h1 hnone1 p E
      | giveUp =>
        simp only
        cases hs : li.spillable with
        | true =>
          rw [if_pos (by simp [isSpillable, hr, hs])]
          exact h.spillReg hstart hr hs (hall.history.start_of_spillable hr hs) E
        | false =>
          rw [if_neg (by simp [isSpillable, hr, hs])]
          exact Work.Meets.of_throw (hE li ⟨hr, hlive, hnone, hchoice, hs⟩)

/-- With enough turns left, the work is refused only where a register is stuck. -/
lemma drain (hstart : start.Computed) {bound : Nat}
    (hall : Allocating t start (fun _ => False) s) (h : Running t start turns s)
    (hbound : turns < bound) {E : Error → Prop}
    (hE : ∀ s busy turns r li, Allocating t start busy s → Running t start turns s →
      s.Stuck t r li → E (.allocationFailed r)) :
    (AllocState.drain t bound).Meets s (fun _ _ => True) E := by
  induction bound generalizing s turns with
  | zero => omega
  | succ bound ih =>
    unfold AllocState.drain
    refine Work.Meets.get_bind ?_
    cases hq : s.queue with
    | nil => exact Work.Meets.of_pure trivial
    | cons w rest =>
      have henough := h.enough
      unfold needed at henough
      rw [hq, List.length_cons] at henough
      have hall1 := hall.dequeue hq
      have h1 : Running t start (turns - 1) { s with queue := rest } := by
        refine ⟨h.once, h.reserved, h.pieces, ?_⟩
        unfold needed
        simp only [AllocState.intervals] at henough ⊢
        omega
      refine Work.Meets.modify_bind (g := fun _ => { s with queue := rest }) ?_
      refine (selectOrSpill hstart hall1 h1 fun li hstuck => ?_).with_run.bind ?_
      · exact hE _ _ _ _ li hall1 h1 hstuck
      · rintro _ s2 ⟨h2, hrun⟩
        exact ih (hall1.selectOrSpill hrun) h2 (by omega)

/-- At the start there are enough turns for every register and for all pieces there can be. -/
lemma prepare {st : SpillState} {colors : Nat} (hstart : st.intervals.Computed)
    (E : Error → Prop) :
    (AllocState.prepare colors).Meets ⟨st, .ofTarget t, [], []⟩
      (fun _ s' => Running t st.intervals (AllocState.turns st.intervals - 1) s') E := by
  refine Work.Meets.get_bind (Work.Meets.of_modify ⟨?_, rfl, Pieces.refl _, ?_⟩)
  · intro i
    show ((Array.replicate t.numRegs []).getD i []).Nodup
    rw [getD_replicate]
    exact List.Pairwise.nil
  · have horder := InterferenceGraph.length_order st.intervals colors
    have hprice : total ((List.range st.intervals.size).map fun i =>
        price (st.intervals.get? ⟨i⟩)) =
        total (st.intervals.toList.map fun li => li.usedAt.length + 1) := by
      congr 1
      refine List.ext_getElem (by simp [Intervals.size, Intervals.toList]) ?_
      intro i hi hi'
      have hlt : i < st.intervals.intervals.size := by
        simpa [Intervals.size] using hi
      have hget : st.intervals.get? ⟨i⟩ = some st.intervals.intervals[i] :=
        Array.getElem?_eq_getElem hlt
      simp [price, hget, hstart.spillable _ _ hget, Intervals.toList]
    have hsum : ∀ l : List Interval, total (l.map fun li => li.usedAt.length + 2) =
        total (l.map fun li => li.usedAt.length + 1) + l.length := by
      intro l
      induction l with
      | nil => rfl
      | cons li rest ih =>
        rw [List.map_cons, List.map_cons, total_cons, total_cons, ih, List.length_cons]
        omega
    have hlen : st.intervals.toList.length = st.intervals.size := by
      simp [Intervals.toList, Intervals.size]
    unfold needed
    simp only [AllocState.intervals, AllocState.turns]
    rw [Waiting.length_enqueueAll, hprice, hsum, hlen, List.length_nil]
    omega

end Running

/-- Where the target has a register of each class to hand out and there is a colour, allocation
is refused only if a register is stuck. -/
lemma allocate_meets {t : Target} {colors : Nat} {st : SpillState}
    (hstart : st.intervals.Computed) (hvalid : t.validate = .ok ()) (hcolors : 1 ≤ colors)
    {E : Error → Prop}
    (hE : ∀ s busy turns r li, Allocating t st.intervals busy s →
      Running t st.intervals turns s → s.Stuck t r li → E (.allocationFailed r)) :
    (allocate t colors).Meets st (fun _ _ => True) E := by
  have hwhole : (AllocState.whole t colors (AllocState.prepare colors)
      (AllocState.drain t (AllocState.turns st.intervals))).Meets ⟨st, .ofTarget t, [], []⟩
      (fun _ _ => True) E := by
    refine Work.Meets.ofExcept_bind hvalid ?_
    rw [if_neg (by omega)]
    refine (Running.prepare hstart E).with_run.bind ?_
    rintro _ s1 ⟨h1, hrun⟩
    have hall := Allocating.prepare hstart.sound hrun
    refine (h1.drain hstart hall ?_ hE).bind fun _ s2 _ => ?_
    · unfold AllocState.turns
      omega
    · exact Work.Meets.get_bind (Work.Meets.modify_bind (Work.Meets.of_pure trivial))
  exact (meets_of_whole hwhole).mono (fun _ _ _ => trivial) fun _ he => he

end SsaBackend
