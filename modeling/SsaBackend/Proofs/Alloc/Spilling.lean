import SsaBackend.Alloc.Spill
import SsaBackend.Proofs.Live.Segments
import SsaBackend.Proofs.Work

/-!
# What spilling does to the intervals

`Replaced` lists everything that a spill does: the register was there and could be spilled,
it is live nowhere afterwards, its pieces are added behind the registers there were, one for
its definition and one for each position that uses it, and no other register changes.
`spill_replaces` says that this is what `spill` does whenever it ends well.

A piece is live over two slots (`SpillRecord.twoSlots`), unless it begins at one of the last two
there are: then it is live nowhere. No piece for a use begins there, as reload slots are multiples
of four.
-/

namespace SsaBackend

open Segment

namespace SpillRecord

/-- A piece before it has a shape. -/
def blank (origin : VirtReg) (regClass : Nat) (q : VirtReg) : Interval :=
  { reg := q, weight := .infinity, spillable := false, regClass, origin := some origin }

/-! ## Shapes -/

/-- The slots at which the pieces of a register begin. -/
def starts (li : Interval) : List Nat := li.defAt.toList ++ bases li.usedAt

lemma mem_starts {li : Interval} {c : Nat} :
    c ∈ starts li ↔ li.defAt = some c ∨ ∃ u ∈ li.usedAt, baseSlot u = c := by
  unfold starts bases
  rw [List.mem_append, Option.mem_toList, mem_ascending fun a b (h : id a = id b) => h,
    List.mem_map]

lemma length_pieces (li : Interval) : (pieces li).length = (starts li).length := by
  simp [pieces, starts]

/-- The slot is one of the last two. -/
def LastTwo (slot : Nat) : Prop := slot < slotLimit ∧ slotLimit ≤ slot + 2

instance : DecidablePred LastTwo := fun slot => by
  unfold LastTwo
  infer_instance

lemma not_lastTwo {slot : Nat} (h : slot % 4 ≤ 1) : ¬ LastTwo slot := by
  unfold LastTwo slotLimit UInt32.size
  omega

/-- The two slots from `start` on. -/
def twoSlots (start : Nat) : List Segment :=
  if LastTwo start then [] else [⟨start, start + 2⟩]

lemma separated_twoSlots (start : Nat) : Separated (twoSlots start) := by
  unfold twoSlots
  split
  · exact .nil
  · exact ⟨by simp, List.pairwise_singleton _ _⟩

lemma liveAt_twoSlots {start slot : Nat} : LiveAt (twoSlots start) slot ↔
    ¬ LastTwo start ∧ start ≤ slot ∧ slot < start + 2 := by
  unfold twoSlots LiveAt Has
  split <;> simp [*]

/-- The register `q` has the interval of a piece of `r`, which had the interval `li`, and the piece
begins at slot `c`. -/
structure PieceOf (r : VirtReg) (li : Interval) (c : Nat) (q : VirtReg) (lq : Interval) :
    Prop where
  reg : lq.reg = q
  origin : lq.origin = some r
  regClass : lq.regClass = li.regClass
  weight : lq.weight = .infinity
  spillable : lq.spillable = false
  segments : lq.segments = twoSlots c

lemma PieceOf.segments_of_live {r q : VirtReg} {li lq : Interval} {c : Nat}
    (h : PieceOf r li c q lq) (hlive : lq.segments ≠ []) : lq.segments = [⟨c, c + 2⟩] := by
  have hsegments := h.segments
  unfold twoSlots at hsegments
  split at hsegments
  · exact absurd hsegments hlive
  · exact hsegments

/-- What is live nowhere is live over the two slots of the piece afterwards. -/
lemma segments_addSegment {li : Interval} (h : li.segments = []) (c : Nat) :
    (li.addSegment c (pieceStop c)).segments = twoSlots c := by
  unfold Interval.addSegment twoSlots
  by_cases hc : LastTwo c
  · -- what comes round to the first slots is not past `c`
    have hstop : pieceStop c ≤ c := by
      unfold pieceStop
      unfold LastTwo slotLimit UInt32.size at *
      split <;> omega
    rw [if_pos hstop, if_pos hc, h]
  · have hstop : pieceStop c = c + 2 := by
      unfold pieceStop
      unfold LastTwo slotLimit UInt32.size at *
      split <;> omega
    rw [hstop, if_neg (by omega), if_neg hc, h]
    rfl

lemma addSegment_eq (li : Interval) (start stop : Nat) : li.addSegment start stop =
    { li with segments := (li.addSegment start stop).segments } := by
  unfold Interval.addSegment
  split <;> rfl

section Shapes

variable {r : VirtReg} {li : Interval}

lemma pieceOf_defPiece (r q : VirtReg) (li : Interval) (c : Nat) :
    PieceOf r li c q (defPiece c (blank r li.regClass q)) := by
  have hempty : { blank r li.regClass q with defAt := some c }.segments = [] := rfl
  unfold defPiece
  rw [addSegment_eq]
  exact ⟨rfl, rfl, rfl, rfl, rfl, segments_addSegment hempty c⟩

/-- Recording uses touches nothing but the uses. -/
lemma PieceOf.addUses {c : Nat} {q : VirtReg} {lq : Interval} (h : PieceOf r li c q lq)
    (uses : List Nat) : PieceOf r li c q (uses.foldl Interval.addUse lq) := by
  induction uses generalizing lq with
  | nil => exact h
  | cons u rest ih =>
    exact ih ⟨h.reg, h.origin, h.regClass, h.weight, h.spillable, h.segments⟩

lemma pieceOf_usePiece (r q : VirtReg) (li : Interval) (c : Nat) (usedAt : List Nat) :
    PieceOf r li c q (usePiece usedAt c (blank r li.regClass q)) := by
  unfold usePiece
  apply PieceOf.addUses
  have hempty : (blank r li.regClass q).segments = [] := rfl
  rw [addSegment_eq]
  exact ⟨rfl, rfl, rfl, rfl, rfl, segments_addSegment hempty c⟩

/-- The shapes are those of pieces, in the order of their slots. -/
lemma pieceOf_shape {i : Nat} {shape : Interval → Interval} (h : (pieces li)[i]? = some shape)
    (r q : VirtReg) :
    ∃ c, (starts li)[i]? = some c ∧ PieceOf r li c q (shape (blank r li.regClass q)) := by
  unfold pieces at h
  unfold starts
  rw [List.getElem?_append, List.length_map] at h
  rw [List.getElem?_append]
  split at h
  · rename_i hlt
    rw [List.getElem?_map] at h
    obtain ⟨c, hc, rfl⟩ := Option.map_eq_some_iff.1 h
    exact ⟨c, by rw [if_pos hlt, hc], pieceOf_defPiece ..⟩
  · rename_i hlt
    rw [List.getElem?_map] at h
    obtain ⟨c, hc, rfl⟩ := Option.map_eq_some_iff.1 h
    exact ⟨c, by rw [if_neg hlt, hc], pieceOf_usePiece ..⟩

end Shapes

/-! ## Adding the pieces -/

lemma size_addPiece (r : VirtReg) (ivs : Intervals) (shape : Interval → Interval) :
    (addPiece r ivs shape).size = ivs.size + 1 := by
  unfold addPiece
  rw [Intervals.size_modify]
  simp [Intervals.size, Intervals.addProduct]

/-- The piece comes right behind the registers there were. -/
lemma get?_addPiece (r : VirtReg) (ivs : Intervals) (shape : Interval → Interval) (q : VirtReg) :
    (addPiece r ivs shape).get? q =
      if q.index = ivs.size then some (shape (blank r ((ivs.get? r).elim 0 (·.regClass)) q))
      else ivs.get? q := by
  unfold addPiece
  rw [Intervals.get?_modify]
  have hpush : (ivs.addProduct r).get? q =
      if q.index = ivs.size then some (blank r ((ivs.get? r).elim 0 (·.regClass)) ivs.nextReg)
      else ivs.get? q := by
    unfold Intervals.addProduct Intervals.get?
    exact Array.getElem?_push
  rw [hpush]
  have hname : ivs.nextReg = q ↔ q.index = ivs.size := by
    cases q
    simp [Intervals.nextReg, eq_comm]
  by_cases hq : q.index = ivs.size
  · rw [if_pos (hname.2 hq), if_pos hq, if_pos hq, Option.map_some, hname.2 hq]
  · rw [if_neg (fun h => hq (hname.1 h)), if_neg hq, if_neg hq]

/-- The pieces come right behind the registers there were, in order. -/
lemma get?_addPieces {r : VirtReg} {ivs : Intervals} {lr : Interval} (hr : ivs.get? r = some lr)
    (shapes : List (Interval → Interval)) (q : VirtReg) :
    (shapes.foldl (addPiece r) ivs).get? q =
      if q.index < ivs.size then ivs.get? q
      else shapes[q.index - ivs.size]?.map fun shape => shape (blank r lr.regClass q) := by
  induction shapes generalizing ivs with
  | nil =>
    simp only [List.foldl_nil, List.getElem?_nil, Option.map_none]
    split
    · rfl
    · unfold Intervals.get? Intervals.size at *
      exact Array.getElem?_eq_none (by omega)
  | cons shape rest ih =>
    have hlt := Intervals.lt_size hr
    have hr' : (addPiece r ivs shape).get? r = some lr := by
      rw [get?_addPiece, if_neg (by omega), hr]
    rw [List.foldl_cons, ih hr', size_addPiece, get?_addPiece, hr]
    by_cases h1 : q.index < ivs.size
    · rw [if_pos (by omega), if_neg (by omega), if_pos h1]
    · by_cases h2 : q.index = ivs.size
      · rw [if_pos (by omega), if_pos h2, if_neg h1, h2, Nat.sub_self]
        rfl
      · rw [if_neg (by omega), if_neg h1,
          show q.index - ivs.size = (q.index - (ivs.size + 1)) + 1 by omega,
          List.getElem?_cons_succ]

end SpillRecord

/-! ## Spilling a register -/

/-- Everything that spilling `r`, which had the interval `li`, does to the intervals. -/
structure Replaced (ivs ivs' : Intervals) (r : VirtReg) (li : Interval)
    (products : List VirtReg) : Prop where
  was : ivs.get? r = some li
  spillable : li.spillable = true
  emptied : ivs'.get? r = some { li.clear with spillable := false }
  others : ∀ q, q ≠ r → q.index < ivs.size → ivs'.get? q = ivs.get? q
  added : ∀ q lq, ivs'.get? q = some lq → ivs.size ≤ q.index → q ∈ products
  fresh : ∀ q ∈ products, ivs.size ≤ q.index ∧ ∃ lq, ivs'.get? q = some lq ∧
    ∃ c ∈ SpillRecord.starts li, SpillRecord.PieceOf r li c q lq
  cut : ∀ c ∈ SpillRecord.starts li, ∃ q ∈ products, ∃ lq, ivs'.get? q = some lq ∧
    SpillRecord.PieceOf r li c q lq

namespace SpillRecord

/-- The handles of the pieces. -/
def handles (ivs : Intervals) (li : Interval) : List VirtReg :=
  (List.range (pieces li).length).map fun i => ⟨ivs.size + i⟩

section Apply

variable {ivs : Intervals} {r : VirtReg} {li : Interval}

/-- After a spill the pieces stand behind the registers there were. -/
lemma get?_apply (hr : ivs.get? r = some li) (q : VirtReg) : (apply ivs r li).get? q =
    if q.index < ivs.size then if q = r then some { li.clear with spillable := false } else ivs.get? q
    else (pieces li)[q.index - ivs.size]?.map fun shape => shape (blank r li.regClass q) := by
  have hr' : (ivs.modify r fun li => { li.clear with spillable := false }).get? r =
      some { li.clear with spillable := false } := by
    rw [Intervals.get?_modify, if_pos rfl, hr, Option.map_some]
  unfold apply
  rw [get?_addPieces hr', Intervals.size_modify, Intervals.get?_modify]
  by_cases hq : q = r
  · rw [hq, if_pos rfl, if_pos rfl, hr]
    rfl
  · rw [if_neg (Ne.symm hq), if_neg hq]
    rfl

/-- The pieces stand in the order of their slots. -/
lemma pieceOf_of_get? {q : VirtReg} {lq : Interval} (hr : ivs.get? r = some li)
    (hq : (apply ivs r li).get? q = some lq) (hge : ivs.size ≤ q.index) :
    ∃ c, (starts li)[q.index - ivs.size]? = some c ∧ PieceOf r li c q lq := by
  rw [get?_apply hr, if_neg (Nat.not_lt.2 hge)] at hq
  obtain ⟨shape, hshape, rfl⟩ := Option.map_eq_some_iff.1 hq
  exact pieceOf_shape hshape r q

/-- At every handle there is a piece. -/
lemma get?_handle (hr : ivs.get? r = some li) {i : Nat} (hi : i < (pieces li).length) :
    ∃ lq, (apply ivs r li).get? ⟨ivs.size + i⟩ = some lq := by
  rw [get?_apply hr, if_neg (by simp)]
  simp [hi]

/-- Spilling a register that can be spilled replaces it by its pieces. -/
lemma replaced_apply (h : ivs.get? r = some li) (hs : li.spillable = true) :
    Replaced ivs (apply ivs r li) r li (handles ivs li) := by
  have hlt := Intervals.lt_size h
  refine ⟨h, hs, ?_, ?_, ?_, ?_, ?_⟩
  · rw [get?_apply h, if_pos hlt, if_pos rfl]
  · intro q hq hqlt
    rw [get?_apply h, if_pos hqlt, if_neg hq]
  · intro q lq hget hge
    rw [get?_apply h, if_neg (Nat.not_lt.2 hge)] at hget
    obtain ⟨shape, hshape, -⟩ := Option.map_eq_some_iff.1 hget
    have hi := (List.getElem?_eq_some_iff.1 hshape).1
    refine List.mem_map.2 ⟨q.index - ivs.size, List.mem_range.2 hi, ?_⟩
    show VirtReg.mk (ivs.size + (q.index - ivs.size)) = q
    rw [Nat.add_sub_cancel' hge]
  · intro q hq
    obtain ⟨i, hi, rfl⟩ := List.mem_map.1 hq
    obtain ⟨lq, hget⟩ := get?_handle h (List.mem_range.1 hi)
    have hge : ivs.size ≤ ivs.size + i := Nat.le_add_right ..
    obtain ⟨c, hc, hpiece⟩ := pieceOf_of_get? h hget hge
    exact ⟨hge, lq, hget, c, List.mem_of_getElem? hc, hpiece⟩
  · intro c hc
    obtain ⟨i, hi, hget⟩ := List.mem_iff_getElem.1 hc
    obtain ⟨lq, hlq⟩ := get?_handle h ((length_pieces li).symm ▸ hi)
    obtain ⟨c', hc', hpiece⟩ := pieceOf_of_get? h hlq (Nat.le_add_right ..)
    have hsame : c' = c := by
      rw [Nat.add_sub_cancel_left, List.getElem?_eq_getElem hi, hget] at hc'
      exact (Option.some.inj hc').symm
    refine ⟨⟨ivs.size + i⟩, ?_, lq, hlq, hsame ▸ hpiece⟩
    exact List.mem_map.2 ⟨i, List.mem_range.2 ((length_pieces li).symm ▸ hi), rfl⟩

end Apply

end SpillRecord

/-- A spill that ends well replaces the register by its pieces and tells of its definition
and its uses. -/
lemma spill_replaces {r : VirtReg} {s s' : SpillState} {record : SpillRecord}
    (h : (spill r).run s = .ok record s') :
    ∃ li, Replaced s.intervals s'.intervals r li record.products ∧ record.reg = r ∧
      record.defAt = li.defAt ∧ record.usedAt = li.usedAt := by
  unfold spill at h
  rw [Work.get_bind_ok] at h
  simp only at h
  split at h
  · cases h
  · rename_i li hli
    cases hs : li.spillable with
    | false =>
      rw [hs] at h
      cases h
    | true =>
      rw [hs] at h
      cases h
      exact ⟨li, SpillRecord.replaced_apply hli hs, rfl, rfl, rfl⟩

end SsaBackend
