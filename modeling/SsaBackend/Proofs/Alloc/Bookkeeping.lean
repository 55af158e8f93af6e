import Mathlib.Data.List.Nodup
import SsaBackend.Proofs.Checked.Allocation

/-!
# The books of an allocation

Allocation ends, whatever the intervals are that it begins with. Only a register of the start can
be spilled, since the pieces of a register may not be, and it is spilled once at most. Each spill
pays for the turns of its pieces (`Booked.spillReg`), so the queue runs empty in the turns that
there are.

What was spilled is on record, in order: the `i`-th record has the `i`-th slot that was handed out,
and its pieces come behind those of the records before it. `Booked` says so of an allocation in
progress, whether or not it fails later, and `allocate_keeps_books` reads it at the end. The same
holds of the allocation with every access looked at, unless a piece that has no slot to end at stops
it.
-/

namespace SsaBackend

/-! ## What the pieces hold -/

namespace Intervals

/-- Every register has a place for the value it holds. -/
def Aligned (ivs : Intervals) : Prop := ivs.values.size = ivs.size

lemma aligned_modify {ivs : Intervals} (h : ivs.Aligned) (r : VirtReg) (f : Interval → Interval) :
    (ivs.modify r f).Aligned := by
  unfold Aligned
  rw [size_modify]
  exact h

end Intervals

namespace SpillRecord

lemma aligned_addPiece {ivs : Intervals} (h : ivs.Aligned) (r : VirtReg)
    (shape : Interval → Interval) : (addPiece r ivs shape).Aligned := by
  unfold Intervals.Aligned
  rw [size_addPiece]
  show (ivs.values.push _).size = _
  rw [Array.size_push, h]

/-- The pieces hold the value of their register, and the others hold what they held. -/
lemma valueOf?_addPieces {ivs : Intervals} (h : ivs.Aligned) {r : VirtReg}
    (hr : r.index < ivs.size) (shapes : List (Interval → Interval)) :
    (shapes.foldl (addPiece r) ivs).Aligned ∧
      ∀ q, q.index < ivs.size + shapes.length →
        (shapes.foldl (addPiece r) ivs).valueOf? q =
          if q.index < ivs.size then ivs.valueOf? q else ivs.valueOf? r := by
  induction shapes generalizing ivs with
  | nil => exact ⟨h, fun q hq => (if_pos hq).symm⟩
  | cons shape rest ih =>
    have hadd : ∀ q, (addPiece r ivs shape).valueOf? q =
        if q.index = ivs.size then ivs.valueOf? r else ivs.valueOf? q := by
      intro q
      show ((ivs.values.push (ivs.valueOf? r))[q.index]?).join = _
      rw [Array.getElem?_push, h]
      split <;> rfl
    obtain ⟨haligned, hvalues⟩ := ih (aligned_addPiece h r shape)
      (by rw [size_addPiece]; omega)
    rw [List.foldl_cons]
    refine ⟨haligned, fun q hq => ?_⟩
    rw [List.length_cons] at hq
    rw [hvalues q (by rw [size_addPiece]; omega), size_addPiece, hadd q, hadd r,
      if_neg (Nat.ne_of_lt hr)]
    by_cases hlt : q.index < ivs.size
    · rw [if_pos (by omega), if_neg (by omega), if_pos hlt]
    · rw [if_neg hlt]
      split
      · rw [if_pos (by omega)]
      · rfl

/-- The same for a spill. -/
lemma valueOf?_apply {ivs : Intervals} (h : ivs.Aligned) {r : VirtReg} {li : Interval}
    (hr : ivs.get? r = some li) : (apply ivs r li).Aligned ∧
      ∀ q, q.index < (apply ivs r li).size → (apply ivs r li).valueOf? q =
        if q.index < ivs.size then ivs.valueOf? q else ivs.valueOf? r := by
  have hadded := valueOf?_addPieces
    (Intervals.aligned_modify h r fun li => { li.clear with spillable := false })
    (by rw [Intervals.size_modify]; exact Intervals.lt_size hr) (pieces li)
  rw [Intervals.size_modify] at hadded
  refine ⟨hadded.1, fun q hq => hadded.2 q ?_⟩
  rw [size_apply, ← length_pieces] at hq
  exact hq

end SpillRecord

/-! ## Looking at a spill -/

/-- The register of which an event tells that it was spilled. -/
def Event.spilled? : Event → Option VirtReg
  | spilled r _ _ => some r
  | _ => none

/-- The registers of which a journal tells that they were spilled, in order. -/
def spilledIn (j : Journal) : List VirtReg := j.toList.filterMap Event.spilled?

lemma spilledIn_push (j : Journal) (e : Event) :
    spilledIn (j.push e) = spilledIn j ++ e.spilled?.toList := by
  unfold spilledIn
  rw [Array.toList_push, List.filterMap_append]
  cases h : e.spilled? <;> simp [h]

/-- A spill that ends well hands out the next slot and adds the pieces behind the registers. -/
lemma spill_ok {r : VirtReg} {s s' : SpillState} {record : SpillRecord}
    (h : (spill r).run s = .ok record s') : ∃ li, s.intervals.get? r = some li ∧
      li.spillable = true ∧
      record = ⟨r, ⟨s.slots⟩, SpillRecord.handles s.intervals li, li.defAt, li.usedAt⟩ ∧
      s' = ⟨SpillRecord.apply s.intervals r li, s.slots + 1, s.journal.push
        (.spilled r ⟨s.slots⟩ (SpillRecord.handles s.intervals li).length)⟩ := by
  unfold spill at h
  rw [Work.get_bind_ok] at h
  simp only at h
  split at h
  · cases h
  · rename_i li hli
    cases hs : li.spillable with
    | false =>
      rw [hs] at h
      cases h
    | true =>
      rw [hs] at h
      cases h
      exact ⟨li, hli, hs, rfl, rfl⟩

/-- A spill that is refused changes nothing. -/
lemma spill_error {r : VirtReg} {s s' : SpillState} {e : Error}
    (h : (spill r).run s = .error e s') : s' = s ∧ e ≠ .endless := by
  unfold spill at h
  rw [EStateM.run_bind, EStateM.run_get] at h
  simp only at h
  split at h
  · cases h
    exact ⟨rfl, nofun⟩
  · rename_i li hli
    cases hs : li.spillable with
    | false =>
      rw [hs] at h
      cases h
      exact ⟨rfl, nofun⟩
    | true =>
      rw [hs] at h
      cases h

/-! ## The books -/

/-- The register `q` was made for the record: it is a piece of the register that was spilled. -/
def SpillRecord.Made (start ivs : Intervals) (record : SpillRecord) (q : VirtReg) : Prop :=
  ∃ lq li, ivs.get? q = some lq ∧ start.get? record.reg = some li ∧
    ∃ c ∈ starts li, PieceOf record.reg li c q lq

/-- Registers of the start hold what they held, and pieces what their register holds. -/
structure Valued (start ivs : Intervals) (spills : List SpillRecord) : Prop where
  aligned : ivs.Aligned
  old : ∀ r, r.index < start.size → ivs.valueOf? r = start.valueOf? r
  pieces : ∀ record ∈ spills, ∀ q ∈ record.products, ivs.valueOf? q = start.valueOf? record.reg

/-- The records of an allocation in progress that began with `st`. -/
structure Booked (st : SpillState) (s : AllocState) : Prop where
  larger : st.intervals.size ≤ s.intervals.size
  slots : s.spilling.slots = st.slots + s.spills.length
  slotOf : ∀ i (record : SpillRecord), s.spills[i]? = some record → record.slot = ⟨st.slots + i⟩
  /-- The products of the records, one after another, are the registers that were made. -/
  products : s.spills.flatMap (·.products) =
    (List.range' st.intervals.size (s.intervals.size - st.intervals.size)).map VirtReg.mk
  once : (s.spills.map (·.reg)).Nodup
  journal : spilledIn s.spilling.journal = spilledIn st.journal ++ s.spills.map (·.reg)
  spilled : ∀ record ∈ s.spills, ∃ li, st.intervals.get? record.reg = some li ∧
    li.spillable = true ∧
    s.intervals.get? record.reg = some { li.clear with spillable := false }
  others : ∀ r li, st.intervals.get? r = some li → r ∉ s.spills.map (·.reg) →
    s.intervals.get? r = some li
  pieces : ∀ record ∈ s.spills, ∀ q ∈ record.products, record.Made st.intervals s.intervals q
  values : st.intervals.Aligned → Valued st.intervals s.intervals s.spills

namespace Booked

open AllocState

variable {st : SpillState} {s : AllocState} {r : VirtReg} {li : Interval} {turns : Nat}
  {t : Target}

/-- The registers that were made are the products. -/
lemma mem_products (h : Booked st s) {q : VirtReg} :
    q ∈ s.spills.flatMap (·.products) ↔
      st.intervals.size ≤ q.index ∧ q.index < s.intervals.size := by
  have hlarger := h.larger
  rw [h.products, List.mem_map]
  constructor
  · rintro ⟨n, hn, rfl⟩
    have hn := List.mem_range'_1.1 hn
    exact ⟨hn.1, by simp only; omega⟩
  · rintro ⟨hge, hlt⟩
    exact ⟨q.index, List.mem_range'_1.2 ⟨hge, by omega⟩, rfl⟩

/-- A register that can be spilled is one of the start, as it was, and was not spilled before. -/
lemma start_of_spillable (h : Booked st s) (hr : s.intervals.get? r = some li)
    (hs : li.spillable = true) :
    st.intervals.get? r = some li ∧ r ∉ s.spills.map (·.reg) := by
  have hnot : r ∉ s.spills.map (·.reg) := by
    intro hmem
    obtain ⟨record, hrecord, rfl⟩ := List.mem_map.1 hmem
    obtain ⟨l₀, -, -, hgone⟩ := h.spilled record hrecord
    rw [hr] at hgone
    cases hgone
    cases hs
  refine ⟨?_, hnot⟩
  by_cases hlt : r.index < st.intervals.size
  · obtain ⟨l₀, hl₀⟩ : ∃ l₀, st.intervals.get? r = some l₀ := ⟨_, Array.getElem?_eq_getElem hlt⟩
    have hsame := h.others r l₀ hl₀ hnot
    rw [hr] at hsame
    cases hsame
    exact hl₀
  · -- a register that was made since is a piece
    have hmem := h.mem_products.2 ⟨Nat.not_lt.1 hlt, Intervals.lt_size hr⟩
    obtain ⟨record, hrecord, hq⟩ := List.mem_flatMap.1 hmem
    obtain ⟨lq, _, hlq, -, c, -, hpiece⟩ := h.pieces record hrecord r hq
    rw [hr] at hlq
    cases hlq
    have hunspillable := hpiece.spillable
    rw [hs] at hunspillable
    cases hunspillable

/-- The queue, the matrix and other events are not on the books. -/
lemma congr {s' : AllocState} (h : Booked st s) (hivs : s'.intervals = s.intervals)
    (hslots : s'.spilling.slots = s.spilling.slots) (hspills : s'.spills = s.spills)
    (hjournal : spilledIn s'.spilling.journal = spilledIn s.spilling.journal) : Booked st s' := by
  refine ⟨?_, ?_, ?_, ?_, ?_, ?_, ?_, ?_, ?_, ?_⟩
  · rw [hivs]
    exact h.larger
  · rw [hslots, hspills]
    exact h.slots
  · rw [hspills]
    exact h.slotOf
  · rw [hivs, hspills]
    exact h.products
  · rw [hspills]
    exact h.once
  · rw [hjournal, hspills]
    exact h.journal
  · rw [hivs, hspills]
    exact h.spilled
  · rw [hivs, hspills]
    exact h.others
  · rw [hivs, hspills]
    exact h.pieces
  · rw [hivs, hspills]
    exact h.values

/-! ## One spill -/

/-- The handles of the pieces come right behind the registers. -/
lemma handles_eq (ivs : Intervals) (li : Interval) : SpillRecord.handles ivs li =
    (List.range' ivs.size (SpillRecord.starts li).length).map VirtReg.mk := by
  unfold SpillRecord.handles
  rw [SpillRecord.length_pieces, List.range'_eq_map_range, List.map_map]
  rfl

/-- With the pieces of one more spill, the handles made so far still leave no gap. -/
lemma handles_append {n : Nat} (ivs : Intervals) (r : VirtReg) (li : Interval)
    (hn : n ≤ ivs.size) :
    (List.range' n (ivs.size - n)).map VirtReg.mk ++ SpillRecord.handles ivs li =
      (List.range' n ((SpillRecord.apply ivs r li).size - n)).map VirtReg.mk := by
  have happend := List.range'_append_1 (s := n) (m := ivs.size - n)
    (n := (SpillRecord.starts li).length)
  rw [Nat.add_sub_cancel' hn] at happend
  rw [handles_eq, ← List.map_append, happend, SpillRecord.size_apply,
    show ivs.size - n + (SpillRecord.starts li).length =
      ivs.size + (SpillRecord.starts li).length - n by omega]

/-- What was made before a spill is there after it. -/
lemma made_apply {start ivs : Intervals} (hr : ivs.get? r = some li) (hs : li.spillable = true)
    {record : SpillRecord} {q : VirtReg} (h : record.Made start ivs q) :
    record.Made start (SpillRecord.apply ivs r li) q := by
  obtain ⟨lq, l₀, hlq, hl₀, c, hc, hpiece⟩ := h
  refine ⟨lq, l₀, ?_, hl₀, c, hc, hpiece⟩
  rw [(SpillRecord.replaced_apply hr hs).others q ?_ (Intervals.lt_size hlq)]
  · exact hlq
  · rintro rfl
    rw [hr] at hlq
    cases hlq
    have hunspillable := hpiece.spillable
    rw [hs] at hunspillable
    cases hunspillable

/-- The pieces of a register that is spilled are made for its record. -/
lemma made_handles {start ivs : Intervals} (hr : ivs.get? r = some li) (hs : li.spillable = true)
    (hstart : start.get? r = some li) {record : SpillRecord} (hreg : record.reg = r) {q : VirtReg}
    (hq : q ∈ SpillRecord.handles ivs li) :
    record.Made start (SpillRecord.apply ivs r li) q := by
  subst hreg
  obtain ⟨-, lq, hlq, hpiece⟩ := (SpillRecord.replaced_apply hr hs).fresh q hq
  exact ⟨lq, li, hlq, hstart, hpiece⟩

lemma valued_apply {start ivs : Intervals} {spills : List SpillRecord} {record : SpillRecord}
    (h : Valued start ivs spills) (hlarger : start.size ≤ ivs.size)
    (hr : ivs.get? r = some li) (hrlt : r.index < start.size) (hreg : record.reg = r)
    (hold : ∀ record ∈ spills, ∀ q ∈ record.products, q.index < ivs.size)
    (hproducts : record.products = SpillRecord.handles ivs li) :
    Valued start (SpillRecord.apply ivs r li) (spills ++ [record]) := by
  obtain ⟨haligned, hvalues⟩ := SpillRecord.valueOf?_apply h.aligned hr
  have hkeep : ∀ q, q.index < ivs.size →
      (SpillRecord.apply ivs r li).valueOf? q = ivs.valueOf? q := by
    intro q hq
    rw [hvalues q (by rw [SpillRecord.size_apply]; omega), if_pos hq]
  refine ⟨haligned, fun q hq => ?_, fun e he q hq => ?_⟩
  · rw [hkeep q (Nat.lt_of_lt_of_le hq hlarger)]
    exact h.old q hq
  · rcases List.mem_append.1 he with he | he
    · rw [hkeep q (hold e he q hq)]
      exact h.pieces e he q hq
    · rw [List.mem_singleton.1 he, hproducts, handles_eq] at hq
      obtain ⟨n, hn, rfl⟩ := List.mem_map.1 hq
      obtain ⟨hge, hlt⟩ := List.mem_range'_1.1 hn
      rw [List.mem_singleton.1 he, hreg, ← h.old r hrlt,
        hvalues ⟨n⟩ (by rw [SpillRecord.size_apply]; exact hlt), if_neg (Nat.not_lt.2 hge)]

/-- A spill is put on the books. -/
lemma spill (h : Booked st s) (hr : s.intervals.get? r = some li) (hs : li.spillable = true)
    {n : Nat} {queue : List Waiting} :
    Booked st { s with
      spilling := ⟨SpillRecord.apply s.intervals r li, s.spilling.slots + 1,
        s.spilling.journal.push (.spilled r ⟨s.spilling.slots⟩ n)⟩
      queue
      spills := s.spills ++
        [⟨r, ⟨s.spilling.slots⟩, SpillRecord.handles s.intervals li, li.defAt, li.usedAt⟩] } := by
  obtain ⟨hstart, hnot⟩ := h.start_of_spillable hr hs
  have hrep := SpillRecord.replaced_apply hr hs
  have hlarger := h.larger
  refine ⟨?_, ?_, ?_, ?_, ?_, ?_, ?_, ?_, ?_, ?_⟩
  · show st.intervals.size ≤ (SpillRecord.apply s.intervals r li).size
    rw [SpillRecord.size_apply]
    omega
  · show s.spilling.slots + 1 = _
    rw [List.length_append, List.length_singleton, h.slots]
    rfl
  · intro i record hi
    rw [List.getElem?_append] at hi
    split at hi
    · exact h.slotOf i record hi
    · rename_i hge
      obtain ⟨hlt, he⟩ := List.getElem?_eq_some_iff.1 hi
      rw [List.length_singleton] at hlt
      rw [List.getElem_singleton] at he
      rw [← he, h.slots, show i = s.spills.length by omega]
  · rw [List.flatMap_append, h.products, List.flatMap_singleton]
    exact handles_append s.intervals r li hlarger
  · rw [List.map_append, List.map_singleton]
    refine List.nodup_append.2 ⟨h.once, List.pairwise_singleton .., fun a ha b hb hab => ?_⟩
    rw [List.mem_singleton.1 hb] at hab
    exact hnot ((show a = r from hab) ▸ ha)
  · show spilledIn (s.spilling.journal.push _) = _
    rw [spilledIn_push, h.journal, List.map_append, List.append_assoc]
    rfl
  · intro record hmem
    rcases List.mem_append.1 hmem with hmem | hmem
    · -- what was spilled before is another register, so its interval stays empty
      obtain ⟨l₀, hl₀, hs₀, hgone⟩ := h.spilled record hmem
      refine ⟨l₀, hl₀, hs₀, ?_⟩
      show (SpillRecord.apply s.intervals r li).get? record.reg = _
      rw [hrep.others record.reg ?_ (Intervals.lt_size hgone)]
      · exact hgone
      · exact fun he => hnot (he ▸ List.mem_map_of_mem hmem)
    · rw [List.mem_singleton.1 hmem]
      exact ⟨li, hstart, hs, hrep.emptied⟩
  · intro q lq hq hmem
    rw [List.map_append, List.mem_append, not_or, List.map_singleton, List.mem_singleton] at hmem
    -- registers that are not spilled keep their intervals
    have hold := h.others q lq hq hmem.1
    show (SpillRecord.apply s.intervals r li).get? q = _
    rw [hrep.others q hmem.2 (Intervals.lt_size hold)]
    exact hold
  · intro record hmem q hq
    rcases List.mem_append.1 hmem with hmem | hmem
    · exact made_apply hr hs (h.pieces record hmem q hq)
    · rw [List.mem_singleton.1 hmem] at hq ⊢
      exact made_handles hr hs hstart rfl hq
  · intro haligned
    refine valued_apply (h.values haligned) hlarger hr (Intervals.lt_size hstart) rfl ?_ rfl
    intro record hmem q hq
    exact (h.mem_products.1 (List.mem_flatMap.2 ⟨record, hmem, hq⟩)).2

/-- A register that is spilled pays for the turns of its pieces. -/
lemma spillReg (h : Booked st s) (henough : needed st.intervals s ≤ turns) :
    (AllocState.spillReg r).Ends s
      (fun _ s' => Booked st s' ∧ needed st.intervals s' ≤ turns) (Booked st) := by
  unfold AllocState.spillReg
  refine Work.Ends.get_bind ?_
  split
  · rename_i e sp hspill
    obtain ⟨rfl, -⟩ := spill_error hspill
    exact Work.Ends.modify_bind (g := fun _ => s) (Work.Ends.of_throw h)
  · rename_i record sp hspill
    obtain ⟨li, hr, hs, rfl, rfl⟩ := spill_ok hspill
    refine Work.Ends.of_modify (g := fun _ => _) ⟨h.spill hr hs, ?_⟩
    have hrlt := Intervals.lt_size (h.start_of_spillable hr hs).1
    have hpaid := total_price_apply h.larger hr hs hrlt
    have hqueue := Waiting.length_enqueueAll (fun v => ⟨productPriority, v⟩)
      (SpillRecord.handles s.intervals li) s.queue
    have hlen : (SpillRecord.handles s.intervals li).length = (SpillRecord.starts li).length := by
      rw [handles_eq, List.length_map, List.length_range']
    unfold needed at henough ⊢
    simp only [AllocState.intervals] at hpaid hqueue hlen henough ⊢
    omega

/-! ## All turns -/

lemma evict {p : PhysReg} {winner : VirtReg} (h : Booked st s)
    (henough : needed st.intervals s ≤ turns) :
    (AllocState.evict p winner r).Ends s
      (fun _ s' => Booked st s' ∧ needed st.intervals s' ≤ turns) (Booked st) := by
  unfold AllocState.evict
  refine Work.Ends.modify_bind (Work.Ends.modify_bind ?_)
  refine spillReg (h.congr rfl rfl rfl ?_) henough
  exact (spilledIn_push ..).trans (List.append_nil _)

lemma assign {p : PhysReg} (h : Booked st s) (henough : needed st.intervals s ≤ turns) :
    (AllocState.assign r p).Ends s
      (fun _ s' => Booked st s' ∧ needed st.intervals s' ≤ turns) (Booked st) := by
  unfold AllocState.assign
  refine Work.Ends.modify_bind (Work.Ends.of_modify ⟨h.congr rfl rfl rfl ?_, henough⟩)
  exact (spilledIn_push ..).trans (List.append_nil _)

/-- Whatever becomes of a register, the books are kept, and no more turns are needed. -/
lemma selectOrSpill (h : Booked st s) (henough : needed st.intervals s ≤ turns) :
    (AllocState.selectOrSpill t r).Ends s
      (fun _ s' => Booked st s' ∧ needed st.intervals s' ≤ turns) (Booked st) := by
  unfold AllocState.selectOrSpill
  refine Work.Ends.get_bind ?_
  split
  · exact Work.Ends.of_pure ⟨h, henough⟩
  · split
    · exact Work.Ends.of_pure ⟨h, henough⟩
    · split
      · exact assign h henough
      · rename_i p os _
        refine (Work.Ends.forM (fun _ s' => Booked st s' ∧ needed st.intervals s' ≤ turns)
          (fun o rest s' h' => evict h'.1 h'.2) os ⟨h, henough⟩).bind fun _ s' h' => ?_
        exact assign h'.1 h'.2
      · split
        · exact spillReg h henough
        · exact Work.Ends.of_throw h

/-- A register that finds no place is refused for a reason; no turn goes on for ever. -/
lemma selectOrSpill_ends (s : AllocState) (t : Target) (r : VirtReg) :
    (AllocState.selectOrSpill t r).Meets s (fun _ _ => True) (· ≠ .endless) := by
  have hspill : ∀ r s, (AllocState.spillReg r).Meets s (fun _ _ => True) (· ≠ .endless) := by
    intro r s
    unfold AllocState.spillReg
    refine Work.Meets.get_bind ?_
    split
    · rename_i e sp hspill
      exact Work.Meets.modify_bind (g := fun _ => _) (Work.Meets.of_throw (spill_error hspill).2)
    · exact Work.Meets.of_modify (g := fun _ => _) trivial
  have hassign : ∀ p s, (AllocState.assign r p).Meets s (fun _ _ => True) (· ≠ .endless) :=
    fun p s => Work.Meets.modify_bind (Work.Meets.of_modify trivial)
  unfold AllocState.selectOrSpill
  refine Work.Meets.get_bind ?_
  split
  · exact Work.Meets.of_pure trivial
  · split
    · exact Work.Meets.of_pure trivial
    · split
      · exact hassign _ s
      · rename_i p os _
        refine (Work.Meets.forM (fun _ _ => True) (fun o rest s' _ => ?_) os trivial).bind
          fun _ s' _ => hassign p s'
        exact Work.Meets.modify_bind (Work.Meets.modify_bind (hspill o _))
      · split
        · exact hspill r s
        · exact Work.Meets.of_throw nofun

/-- The queue runs empty or a register is refused, with the books kept. -/
lemma drain {bound : Nat} (h : Booked st s) (henough : needed st.intervals s < bound) :
    (AllocState.drain t bound).Ends s (fun _ s' => Booked st s') (Booked st) ∧
      (AllocState.drain t bound).Meets s (fun _ _ => True) (· ≠ .endless) := by
  induction bound generalizing s with
  | zero => exact absurd henough (Nat.not_lt_zero _)
  | succ bound ih =>
    unfold AllocState.drain
    cases hq : s.queue with
    | nil =>
      constructor
      · refine Work.Ends.get_bind ?_
        rw [hq]
        exact Work.Ends.of_pure h
      · refine Work.Meets.get_bind ?_
        rw [hq]
        exact Work.Meets.of_pure trivial
    | cons w rest =>
      have hless : needed st.intervals { s with queue := rest } < bound := by
        unfold needed at henough ⊢
        rw [hq, List.length_cons] at henough
        simp only [AllocState.intervals] at henough ⊢
        omega
      have hpopped : Booked st { s with queue := rest } := h.congr rfl rfl rfl rfl
      have hturn := selectOrSpill (t := t) (r := w.reg) hpopped (Nat.le_refl _)
      constructor
      · refine Work.Ends.get_bind ?_
        rw [hq]
        refine Work.Ends.modify_bind (g := fun _ => { s with queue := rest }) ?_
        exact hturn.bind fun _ s' h' => (ih h'.1 (Nat.lt_of_le_of_lt h'.2 hless)).1
      · refine Work.Meets.get_bind ?_
        rw [hq]
        refine Work.Meets.modify_bind (g := fun _ => { s with queue := rest }) ?_
        refine (selectOrSpill_ends _ t w.reg).with_run.bind fun _ s' h' => ?_
        have hs' := hturn.ok h'.2
        exact (ih hs'.1 (Nat.lt_of_le_of_lt hs'.2 hless)).2

/-- At the start nothing is on the books. -/
lemma start (st : SpillState) (t : Target) : Booked st ⟨st, .ofTarget t, [], []⟩ := by
  refine ⟨Nat.le_refl _, rfl, nofun, ?_, List.nodup_nil, (List.append_nil _).symm, nofun,
    fun _ _ hr _ => hr, nofun, fun h => ⟨h, fun _ _ => rfl, nofun⟩⟩
  show [] = (List.range' _ (st.intervals.size - st.intervals.size)).map _
  rw [Nat.sub_self]
  rfl

/-- There are turns enough for every register and for all pieces there can be. -/
lemma prepare (st : SpillState) (t : Target) (colors : Nat) :
    (AllocState.prepare colors).Meets ⟨st, .ofTarget t, [], []⟩
      (fun _ s' => Booked st s' ∧ needed st.intervals s' < AllocState.turns st.intervals)
      fun _ => False := by
  refine Work.Meets.get_bind (Work.Meets.of_modify ⟨(start st t).congr rfl rfl rfl ?_, ?_⟩)
  · -- what is told of the graph is not about spills
    show spilledIn (st.journal ++
      ((InterferenceGraph.build st.intervals).simplify st.intervals colors).1.events) = _
    unfold spilledIn
    rw [Array.toList_appendList, List.filterMap_append]
    refine (congrArg _ (List.filterMap_eq_nil_iff.2 fun e he => ?_)).trans (List.append_nil _)
    obtain ⟨m, -, rfl⟩ := List.mem_map.1 he
    rfl
  · have horder := InterferenceGraph.length_order st.intervals colors
    have hprice : ((List.range st.intervals.size).map fun i =>
        price (st.intervals.get? ⟨i⟩)) = st.intervals.toList.map (fun li => price (some li)) := by
      refine List.ext_getElem (by simp [Intervals.size, Intervals.toList]) ?_
      intro i hi hi'
      have hlt : i < st.intervals.intervals.size := by
        simpa [Intervals.size] using hi
      have hget : st.intervals.get? ⟨i⟩ = some st.intervals.intervals[i] :=
        Array.getElem?_eq_getElem hlt
      simp [hget, Intervals.toList]
    have hsum : ∀ l : List Interval, total (l.map fun li => price (some li)) + l.length ≤
        total (l.map fun li => li.usedAt.length + 2) := by
      intro l
      induction l with
      | nil => exact Nat.le_refl _
      | cons li rest ih =>
        have hle : price (some li) ≤ li.usedAt.length + 1 := by
          show (if li.spillable then _ else 0) ≤ _
          split <;> omega
        rw [List.map_cons, List.map_cons, total_cons, total_cons, List.length_cons]
        omega
    have hlist := hsum st.intervals.toList
    have hlen : st.intervals.toList.length = st.intervals.size := by
      simp [Intervals.toList, Intervals.size]
    unfold needed AllocState.turns
    simp only [AllocState.intervals]
    rw [Waiting.length_enqueueAll, hprice, List.length_nil]
    omega

/-- The books are kept through all stages of an allocation, and these end. -/
lemma whole (t : Target) (colors : Nat) (st : SpillState) :
    (AllocState.whole t colors (AllocState.prepare colors)
        (AllocState.drain t (AllocState.turns st.intervals))).Ends ⟨st, .ofTarget t, [], []⟩
      (fun a s => Booked st s ∧ s.spills = a.spills) (Booked st) ∧
    (AllocState.whole t colors (AllocState.prepare colors)
        (AllocState.drain t (AllocState.turns st.intervals))).Meets ⟨st, .ofTarget t, [], []⟩
      (fun _ _ => True) (· ≠ .endless) := by
  obtain ⟨_, s₁, hprepare, h₁, henough⟩ := (prepare st t colors).exists_ok
  obtain ⟨hends, hmeets⟩ := h₁.drain henough
  unfold AllocState.whole
  constructor
  · refine Work.Ends.ofExcept_bind (fun _ _ => ?_) (start st t)
    split
    · exact Work.Ends.of_throw (start st t)
    · refine (Work.Ends.of_ok (Q := fun _ s => s = s₁) hprepare rfl).bind ?_
      rintro _ _ rfl
      refine hends.bind fun _ s₂ h₂ => Work.Ends.get_bind (Work.Ends.modify_bind
        (Work.Ends.of_pure ⟨h₂.congr rfl rfl rfl ?_, rfl⟩))
      exact (spilledIn_push ..).trans (List.append_nil _)
  · refine Work.Meets.bind (Q := fun _ s => s = ⟨st, .ofTarget t, [], []⟩)
      (Work.Meets.of_ofExcept (fun _ _ => rfl) fun e he => ?_) ?_
    · rw [Target.validate_error he]
      nofun
    · rintro _ _ rfl
      split
      · exact Work.Meets.of_throw nofun
      · refine (Work.Meets.of_ok (Q := fun _ s => s = s₁) hprepare rfl).bind ?_
        rintro _ _ rfl
        exact hmeets.bind fun _ s₂ _ =>
          Work.Meets.get_bind (Work.Meets.modify_bind (Work.Meets.of_pure trivial))

end Booked

end SsaBackend
