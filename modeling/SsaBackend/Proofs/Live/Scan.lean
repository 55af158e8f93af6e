import SsaBackend.Live.Liveness
import SsaBackend.Proofs.BitSet
import SsaBackend.Proofs.Live.Segments
import SsaBackend.Proofs.Tables

/-!
# Going back over a block, one register at a time

What the scan of a block does to one register depends on that register alone: on its interval,
and on the slot up to which it is live, if it is live at the point reached. `Trace` has these two,
and `LiveScan.get?_block` reads the scan of a block off the trace of each register.

A slot of the block is then found to be covered exactly if the register is needed there
(`Trace.found_points`): at the reload and use slots of a point if it is needed before the point,
at the slots behind them if it is needed after the point, and at the slot where it is written in
any case. `Needed` says when a register is needed before some points: one of them reads it, or it
is live behind them, and none of them writes it before that.
-/

namespace SsaBackend

open Segment

/-! ## One register -/

/-- What the scan knows of one register: its interval so far, and the slot up to which it is live
if it is live at the point reached. -/
structure Trace where
  interval : Interval
  stop : Option Nat

namespace Trace

/-- Goes back over a position that writes the register. -/
def write (t : Trace) (pos : Nat) : Trace where
  interval := { t.interval with defAt := some (defSlot pos) }.addSegment (defSlot pos)
    (t.stop.getD (defSlot pos + 1))
  stop := none

/-- Goes back over a position that reads the register. -/
def read (t : Trace) (pos : Nat) : Trace where
  interval := t.interval.addUse (useSlot pos)
  stop := some (t.stop.getD (defSlot pos))

/-- Goes back over a point. -/
def point (r : VirtReg) (e : Point × Nat) (t : Trace) : Trace :=
  let t := if e.1.writes = some r then t.write e.2 else t
  if r ∈ e.1.reads then t.read e.2 else t

/-- The trace of a register behind a block that ends before position `next`. -/
def behind (next : Nat) (out : Bool) (li : Interval) : Trace :=
  ⟨li, if out then some (next * 4) else none⟩

/-- The interval in front of a block that begins at position `start`. -/
def enter (start : Nat) (t : Trace) : Interval :=
  t.stop.elim t.interval (t.interval.addSegment (start * 4))

/-- Goes back over the points of a block that begins at position `start`. -/
def block (r : VirtReg) (start : Nat) (points : List Point) (out : Bool) (li : Interval) :
    Interval :=
  ((points.zipIdx start).foldr (point r) (behind (start + points.length) out li)).enter start

end Trace

/-! ## The trace of a register in the scan -/

/-- The registers of a point are among the first `n`, and it reads each of them once. -/
structure Point.Over (n : Nat) (p : Point) : Prop where
  reads : ∀ r ∈ p.reads, r.index < n
  once : p.reads.Nodup
  writes : ∀ r, p.writes = some r → r.index < n

namespace LiveScan

/-- Two tables of intervals that differ in the intervals alone. -/
structure SameNames (regs ivs : Intervals) : Prop where
  size : ivs.size = regs.size
  values : ivs.values = regs.values
  holders : ivs.holders = regs.holders

lemma SameNames.modify {regs ivs : Intervals} (h : SameNames regs ivs) (r : VirtReg)
    (g : Interval → Interval) : SameNames regs (ivs.modify r g) :=
  ⟨(Intervals.size_modify ivs r g).trans h.size, h.values, h.holders⟩

/-- The tables of a scan for the registers `regs`. -/
structure Over (regs : Intervals) (s : LiveScan) : Prop where
  names : SameNames regs s.intervals
  live : s.live.Over regs.size
  stopAt : s.stopAt.size = regs.size

/-- What the scan knows of a register. -/
def trace? (s : LiveScan) (r : VirtReg) : Option Trace :=
  (s.intervals.get? r).map fun li => ⟨li, if s.live.bit r.index then some (s.stopOf r) else none⟩

variable {regs : Intervals} {s : LiveScan}

lemma over_write (h : s.Over regs) (c : Weight) (pos : Nat) {q : VirtReg}
    (hq : q.index < regs.size) : (write c pos s q).Over regs :=
  ⟨h.names.modify .., h.live.erase hq, h.stopAt⟩

lemma trace?_write (h : s.Over regs) (c : Weight) (pos : Nat) {q : VirtReg}
    (hq : q.index < regs.size) (r : VirtReg) :
    (write c pos s q).trace? r =
      (s.trace? r).map fun t => if q = r then t.write pos else t := by
  unfold trace? write
  simp only [Intervals.get?_modify, charge, h.live.contains, h.live.bit_erase hq]
  by_cases hqr : q = r
  · subst hqr
    cases s.intervals.get? q with
    | none => simp
    | some li => cases hb : s.live.bit q.index <;> simp [Trace.write, stopOf]
  · have hne : q.index ≠ r.index := fun he => hqr (VirtReg.index_inj.1 he)
    cases s.intervals.get? r with
    | none => simp [hqr]
    | some li => simp [hqr, hne, stopOf]

lemma over_read (h : s.Over regs) (c : Weight) (pos : Nat) (q : VirtReg) :
    (read c pos s q).Over regs := by
  unfold read
  simp only
  split
  · exact ⟨h.names.modify .., h.live, h.stopAt⟩
  · exact ⟨h.names.modify .., h.live.insert _, by simpa [charge] using h.stopAt⟩

lemma trace?_read (h : s.Over regs) (c : Weight) (pos : Nat) {q : VirtReg}
    (hq : q.index < regs.size) (r : VirtReg) :
    (read c pos s q).trace? r =
      (s.trace? r).map fun t => if q = r then t.read pos else t := by
  have hlive : (s.charge q c).live = s.live := rfl
  have hstop : (s.charge q c).stopAt = s.stopAt := rfl
  unfold trace? read
  simp only [hlive, hstop, h.live.contains]
  by_cases hqr : q = r
  · subst hqr
    cases hb : s.live.bit q.index with
    | true =>
      simp only [if_true, Intervals.get?_modify]
      cases s.intervals.get? q with
      | none => simp
      | some li => simp [Trace.read, stopOf, hb]
    | false =>
      simp only [Bool.false_eq_true, if_false, Intervals.get?_modify, if_true]
      cases s.intervals.get? q with
      | none => simp
      | some li =>
        simp [Trace.read, stopOf, h.live.bit_insert hq, h.stopAt, hq]
  · have hne : q.index ≠ r.index := fun he => hqr (VirtReg.index_inj.1 he)
    simp only [if_neg hqr, Option.map_id']
    split
    · simp [Intervals.get?_modify, hqr, stopOf]
    · simp [Intervals.get?_modify, hqr, stopOf, h.live.bit_insert hq, hne]

lemma over_reads (h : s.Over regs) (c : Weight) (pos : Nat) (l : List VirtReg) :
    (l.foldl (read c pos) s).Over regs := by
  induction l generalizing s with
  | nil => exact h
  | cons q rest ih => exact ih (over_read h c pos q)

lemma trace?_reads (h : s.Over regs) (c : Weight) (pos : Nat) {l : List VirtReg}
    (hl : ∀ q ∈ l, q.index < regs.size) (honce : l.Nodup) (r : VirtReg) :
    (l.foldl (read c pos) s).trace? r =
      (s.trace? r).map fun t => if r ∈ l then t.read pos else t := by
  induction l generalizing s with
  | nil => simp
  | cons q rest ih =>
    obtain ⟨hnot, honce⟩ := List.nodup_cons.1 honce
    rw [List.foldl_cons, ih (over_read h c pos q) (fun x hx => hl x (List.mem_cons_of_mem _ hx))
      honce, trace?_read h c pos (hl q (List.mem_cons_self ..)), Option.map_map]
    congr 1
    funext t
    by_cases hqr : q = r
    · subst hqr
      simp [hnot]
    · simp [hqr, Ne.symm hqr]

lemma over_point (h : s.Over regs) (c : Weight) {e : Point × Nat} (he : e.1.Over regs.size) :
    (s.point c e).Over regs := by
  unfold point
  apply over_reads
  cases hw : e.1.writes with
  | none => exact h
  | some q => exact over_write h c e.2 (he.writes q hw)

lemma trace?_point (h : s.Over regs) (c : Weight) {e : Point × Nat} (he : e.1.Over regs.size)
    (r : VirtReg) : (s.point c e).trace? r = (s.trace? r).map (Trace.point r e) := by
  unfold point
  cases hw : e.1.writes with
  | none =>
    rw [Option.elim_none, trace?_reads h c e.2 he.reads he.once]
    congr 1
    funext t
    simp [Trace.point, hw]
  | some q =>
    rw [Option.elim_some, trace?_reads (over_write h c e.2 (he.writes q hw)) c e.2 he.reads he.once,
      trace?_write h c e.2 (he.writes q hw), Option.map_map]
    congr 1
    funext t
    simp [Trace.point, hw]

/-- The scan of points follows the trace of each register. -/
lemma trace?_points (h : s.Over regs) (c : Weight) {l : List (Point × Nat)}
    (hl : ∀ e ∈ l, e.1.Over regs.size) :
    (l.foldr (fun e s => s.point c e) s).Over regs ∧ ∀ r,
      (l.foldr (fun e s => s.point c e) s).trace? r =
        (s.trace? r).map fun t => l.foldr (Trace.point r) t := by
  induction l with
  | nil => exact ⟨h, fun r => by simp⟩
  | cons e rest ih =>
    obtain ⟨hover, htrace⟩ := ih fun x hx => hl x (List.mem_cons_of_mem _ hx)
    have he := hl e (List.mem_cons_self ..)
    refine ⟨over_point hover c he, fun r => ?_⟩
    rw [List.foldr_cons, trace?_point hover c he, htrace, Option.map_map]
    rfl

lemma SameNames.modifyAll {ivs : Intervals} (h : SameNames regs ivs) (l : List Nat)
    (g : Nat → Interval → Interval) :
    SameNames regs (l.foldl (fun ivs i => ivs.modify ⟨i⟩ (g i)) ivs) := by
  induction l generalizing ivs with
  | nil => exact h
  | cons i rest ih => exact ih (h.modify ..)

/-- Changing the intervals of several registers, each once. -/
lemma get?_modifyAll {l : List Nat} (hl : l.Nodup) (g : Nat → Interval → Interval)
    (ivs : Intervals) (r : VirtReg) :
    (l.foldl (fun ivs i => ivs.modify ⟨i⟩ (g i)) ivs).get? r =
      (ivs.get? r).map fun li => if r.index ∈ l then g r.index li else li := by
  induction l generalizing ivs with
  | nil => simp
  | cons i rest ih =>
    obtain ⟨hnot, hl⟩ := List.nodup_cons.1 hl
    rw [List.foldl_cons, ih hl, Intervals.get?_modify]
    by_cases hir : i = r.index
    · subst hir
      simp only [if_true, Option.map_map, List.mem_cons_self, if_neg hnot]
      rfl
    · have hne : (⟨i⟩ : VirtReg) ≠ r := fun he => hir (congrArg VirtReg.index he)
      simp [hne, Ne.symm hir]

/-- Setting several places of a table to one number. -/
lemma getD_setAll (l : List Nat) (v : Nat) (a : Array Nat) (i : Nat) (hi : i < a.size) :
    (l.foldl (fun m r => m.setIfInBounds r v) a).getD i 0 = if i ∈ l then v else a.getD i 0 := by
  induction l generalizing a with
  | nil => simp
  | cons j rest ih =>
    rw [List.foldl_cons, ih _ (by simpa using hi), getD_setIfInBounds]
    by_cases hij : j = i
    · subst hij
      simp [hi]
    · simp [hij, Ne.symm hij]

lemma size_setAll (l : List Nat) (v : Nat) (a : Array Nat) :
    (l.foldl (fun m r => m.setIfInBounds r v) a).size = a.size := by
  induction l generalizing a with
  | nil => rfl
  | cons j rest ih => rw [List.foldl_cons, ih, Array.size_setIfInBounds]

/-- The scan behind a block out of which the registers `out` are live. -/
def behind (s : LiveScan) (b : BlockLayout) (out : BitSet) : LiveScan :=
  { s with
    live := out
    stopAt := out.toList.foldl (fun m r => m.setIfInBounds r (b.next * 4)) s.stopAt }

/-- The scan in front of a block: who is still live is so from the start of the block. -/
def enter (s : LiveScan) (start : Nat) : LiveScan :=
  { s with
    intervals := s.live.toList.foldl
      (fun ivs r => ivs.modify ⟨r⟩ (·.addSegment (start * 4) (s.stopOf ⟨r⟩))) s.intervals }

lemma block_eq (s : LiveScan) (b : BlockLayout) (out : BitSet) :
    s.block b out = ((b.points.zipIdx b.start).foldr (fun e s => s.point (costAt b.depth) e)
      (s.behind b out)).enter b.start := by
  rw [← List.foldl_reverse]
  rfl

lemma over_behind (h : s.Over regs) (b : BlockLayout) {out : BitSet} (hout : out.Over regs.size) :
    (s.behind b out).Over regs :=
  ⟨h.names, hout, (size_setAll ..).trans h.stopAt⟩

lemma trace?_behind (h : s.Over regs) (b : BlockLayout) {out : BitSet} {r : VirtReg}
    (hr : r.index < regs.size) : (s.behind b out).trace? r =
      (s.intervals.get? r).map (Trace.behind b.next (out.bit r.index)) := by
  unfold trace? stopOf behind
  congr 1
  funext li
  simp only [Trace.behind, getD_setAll _ _ _ _ (h.stopAt.symm ▸ hr), BitSet.mem_toList_iff_bit]
  split
  · rfl
  · rfl

lemma get?_enter (s : LiveScan) (start : Nat) (r : VirtReg) :
    (s.enter start).intervals.get? r = (s.trace? r).map (Trace.enter start) := by
  unfold enter trace?
  simp only
  rw [get?_modifyAll (BitSet.nodup_toList _)
    (fun i li => li.addSegment (start * 4) (s.stopOf ⟨i⟩)), Option.map_map]
  congr 1
  funext li
  simp only [Function.comp, Trace.enter, BitSet.mem_toList_iff_bit]
  split
  · rfl
  · rfl

/-- The scan of a block follows the trace of each register. -/
lemma get?_block (h : s.Over regs) {b : BlockLayout} {out : BitSet} (hout : out.Over regs.size)
    (hb : ∀ p ∈ b.points, p.Over regs.size) :
    (s.block b out).Over regs ∧ ∀ r : VirtReg, r.index < regs.size →
      (s.block b out).intervals.get? r =
        (s.intervals.get? r).map (Trace.block r b.start b.points (out.bit r.index)) := by
  obtain ⟨hover, htrace⟩ := trace?_points (over_behind h b hout) (costAt b.depth)
    (l := b.points.zipIdx b.start) fun e he => hb e.1 (List.fst_mem_of_mem_zipIdx he)
  rw [block_eq]
  refine ⟨⟨hover.names.modifyAll _ _, hover.live, hover.stopAt⟩, fun r hr => ?_⟩
  rw [get?_enter, htrace, trace?_behind h b hr, Option.map_map, Option.map_map]
  rfl

/-- The scan of several blocks, each with the registers that are live out of it. -/
lemma get?_blocks (h : s.Over regs) {l : List (BlockLayout × BitSet)}
    (hl : ∀ e ∈ l, e.2.Over regs.size ∧ ∀ p ∈ e.1.points, p.Over regs.size) :
    (l.foldl (fun s e => s.block e.1 e.2) s).Over regs ∧ ∀ r : VirtReg, r.index < regs.size →
      (l.foldl (fun s e => s.block e.1 e.2) s).intervals.get? r = (s.intervals.get? r).map fun li =>
        l.foldl (fun li e => Trace.block r e.1.start e.1.points (e.2.bit r.index) li) li := by
  induction l generalizing s with
  | nil => exact ⟨h, fun r _ => by simp⟩
  | cons e rest ih =>
    obtain ⟨hout, hpoints⟩ := hl e (List.mem_cons_self ..)
    obtain ⟨hover, hget⟩ := get?_block h hout hpoints
    obtain ⟨hover', hget'⟩ := ih hover fun x hx => hl x (List.mem_cons_of_mem _ hx)
    refine ⟨hover', fun r hr => ?_⟩
    rw [List.foldl_cons, hget' r hr, hget r hr, Option.map_map]
    rfl

end LiveScan

/-! ## Where a register is needed -/

/-- The register is needed before the points: one of them reads it, or it is live behind them, and
none of them writes it before that. -/
def Needed (r : VirtReg) (out : Prop) : List Point → Prop
  | [] => out
  | p :: rest => r ∈ p.reads ∨ p.writes ≠ some r ∧ Needed r out rest

/-- The slot is one of a point from position `pos` on at which the register holds a value: one
before the writing if the register is needed before the point, one from the writing on if it is
needed after the point, or the slot at which it is written. -/
def HeldAt (r : VirtReg) (out : Prop) : Nat → List Point → Nat → Prop
  | _, [], _ => False
  | pos, p :: rest, slot =>
    (slot / 4 = pos ∧ (slot % 4 < 2 ∧ Needed r out (p :: rest) ∨
      2 ≤ slot % 4 ∧ Needed r out rest ∨ slot = defSlot pos ∧ p.writes = some r)) ∨
    HeldAt r out (pos + 1) rest slot

namespace Trace

/-- What has been found of a register once the points from position `pos` on were gone over,
beginning with the interval `li`. -/
structure Found (r : VirtReg) (out : Bool) (pos : Nat) (points : List Point) (li : Interval)
    (t : Trace) : Prop where
  /-- Only slots were added. -/
  same : { t.interval with segments := li.segments, defAt := li.defAt, usedAt := li.usedAt } = li
  separated : Separated t.interval.segments
  live : t.stop.isSome = true ↔ Needed r (out = true) points
  later : ∀ stop, t.stop = some stop → pos * 4 ≤ stop
  /-- The slots found so far, and those up to which the register is live. -/
  slots : ∀ slot, (LiveAt t.interval.segments slot ∨
      ∃ stop, t.stop = some stop ∧ pos * 4 ≤ slot ∧ slot < stop) ↔
    LiveAt li.segments slot ∨ HeldAt r (out = true) pos points slot
  uses : ∀ u, u ∈ t.interval.usedAt ↔ u ∈ li.usedAt ∨
    ∃ k p, points[k]? = some p ∧ r ∈ p.reads ∧ u = useSlot (pos + k)
  defs : (t.interval.defAt = li.defAt ∧ ∀ p ∈ points, p.writes ≠ some r) ∨
    ∃ k p, points[k]? = some p ∧ p.writes = some r ∧ t.interval.defAt = some (defSlot (pos + k))

section Point

variable {r : VirtReg} {out : Bool} {pos : Nat} {p : Point} {rest : List Point} {li : Interval}
  {t : Trace}

/-- A point adds slots only if it writes the register. -/
lemma liveAt_point (h : Separated t.interval.segments) (slot : Nat) :
    LiveAt (point r (p, pos) t).interval.segments slot ↔ LiveAt t.interval.segments slot ∨
      p.writes = some r ∧ defSlot pos ≤ slot ∧ slot < t.stop.getD (defSlot pos + 1) := by
  have hseg : (point r (p, pos) t).interval.segments =
      (if p.writes = some r then t.write pos else t).interval.segments := by
    unfold point
    simp only
    split
    · rfl
    · rfl
  rw [hseg]
  split
  · rename_i hw
    have hnamed : Separated ({ t.interval with defAt := some (defSlot pos) } : Interval).segments :=
      h
    refine (Interval.liveAt_addSegment hnamed _ _ slot).trans ?_
    simp [hw]
  · rename_i hw
    simp [hw]

lemma stop_point (r : VirtReg) (p : Point) (pos : Nat) (t : Trace) :
    (point r (p, pos) t).stop =
      if r ∈ p.reads then some ((if p.writes = some r then none else t.stop).getD (defSlot pos))
      else if p.writes = some r then none else t.stop := by
  unfold point
  simp only
  split
  · split
    · rfl
    · rfl
  · split
    · rfl
    · rfl

lemma usedAt_point (u : Nat) : u ∈ (point r (p, pos) t).interval.usedAt ↔
    u ∈ t.interval.usedAt ∨ r ∈ p.reads ∧ u = useSlot pos := by
  have hwrite : (if p.writes = some r then t.write pos else t).interval.usedAt =
      t.interval.usedAt := by
    split
    · unfold write Interval.addSegment
      split
      · rfl
      · rfl
    · rfl
  unfold point
  simp only
  split
  · rename_i hr
    unfold read Interval.addUse
    simp only
    rw [mem_insertAscending fun a b (h : id a = id b) => h, hwrite]
    simp only [hr, true_and]
    exact or_comm
  · rename_i hr
    rw [hwrite]
    simp [hr]

lemma defAt_point : (point r (p, pos) t).interval.defAt =
    if p.writes = some r then some (defSlot pos) else t.interval.defAt := by
  have hread : ∀ t : Trace, (if r ∈ p.reads then t.read pos else t).interval.defAt =
      t.interval.defAt := by
    intro t
    split
    · rfl
    · rfl
  unfold point
  simp only
  rw [hread]
  split
  · unfold write Interval.addSegment
    split
    · rfl
    · rfl
  · rfl

lemma separated_point (h : Separated t.interval.segments) :
    Separated (point r (p, pos) t).interval.segments := by
  have hwrite : Separated (if p.writes = some r then t.write pos else t).interval.segments := by
    split
    · have hnamed : Separated
          ({ t.interval with defAt := some (defSlot pos) } : Interval).segments := h
      exact Interval.separated_addSegment hnamed _ _
    · exact h
  unfold point
  simp only
  split
  · exact hwrite
  · exact hwrite

/-- A point changes nothing but the slots of an interval. -/
lemma same_point (r : VirtReg) (p : Point) (pos : Nat) (t : Trace) (segments : List Segment)
    (defAt : Option Nat) (usedAt : List Nat) :
    { (point r (p, pos) t).interval with segments, defAt, usedAt } =
      { t.interval with segments, defAt, usedAt } := by
  have hwrite : { (if p.writes = some r then t.write pos else t).interval with
      segments, defAt, usedAt } = { t.interval with segments, defAt, usedAt } := by
    split
    · unfold write Interval.addSegment
      split
      · rfl
      · rfl
    · rfl
  unfold point
  simp only
  split
  · exact hwrite
  · exact hwrite

namespace Found

lemma live_point (h : Found r out (pos + 1) rest li t) :
    (point r (p, pos) t).stop.isSome = true ↔ Needed r (out = true) (p :: rest) := by
  rw [stop_point]
  show _ ↔ r ∈ p.reads ∨ p.writes ≠ some r ∧ Needed r (out = true) rest
  rw [← h.live]
  by_cases hr : r ∈ p.reads
  · simp [hr]
  · by_cases hw : p.writes = some r
    · simp [hr, hw]
    · simp [hr, hw]

lemma later_point (h : Found r out (pos + 1) rest li t) (stop : Nat)
    (hstop : (point r (p, pos) t).stop = some stop) : pos * 4 ≤ stop := by
  rw [stop_point] at hstop
  have hlater := h.later
  unfold defSlot at hstop
  by_cases hr : r ∈ p.reads
  · by_cases hw : p.writes = some r
    · simp [hr, hw] at hstop
      omega
    · cases ht : t.stop with
      | none =>
        simp [hr, hw, ht] at hstop
        omega
      | some stop' =>
        simp [hr, hw, ht] at hstop
        have := hlater stop' ht
        omega
  · by_cases hw : p.writes = some r
    · simp [hr, hw] at hstop
    · simp [hr, hw] at hstop
      have := hlater stop hstop
      omega

/-- The point adds the slots that are its own, to what was found behind it. -/
lemma slots_point (h : Found r out (pos + 1) rest li t) (slot : Nat) :
    (LiveAt (point r (p, pos) t).interval.segments slot ∨
      ∃ stop, (point r (p, pos) t).stop = some stop ∧ pos * 4 ≤ slot ∧ slot < stop) ↔
    LiveAt li.segments slot ∨ HeldAt r (out = true) pos (p :: rest) slot := by
  have hhere : HeldAt r (out = true) pos (p :: rest) slot ↔
      (slot / 4 = pos ∧ (slot % 4 < 2 ∧ (r ∈ p.reads ∨ p.writes ≠ some r ∧ t.stop.isSome = true) ∨
        2 ≤ slot % 4 ∧ t.stop.isSome = true ∨ slot = pos * 4 + 2 ∧ p.writes = some r)) ∨
      HeldAt r (out = true) (pos + 1) rest slot := by
    rw [h.live]
    exact Iff.rfl
  rw [liveAt_point h.separated, stop_point, hhere, or_left_comm, ← h.slots slot]
  unfold defSlot
  by_cases hlive : LiveAt t.interval.segments slot
  · simp only [hlive, true_or, or_true]
  · simp only [hlive, false_or]
    -- what is left is about the four slots of the point
    cases ht : t.stop with
    | none =>
      by_cases hr : r ∈ p.reads
      · by_cases hw : p.writes = some r
        · simp [hr, hw]
          omega
        · simp [hr, hw]
          omega
      · by_cases hw : p.writes = some r
        · simp [hr, hw]
          omega
        · simp [hr, hw]
    | some stop =>
      have hlater := h.later stop ht
      by_cases hr : r ∈ p.reads
      · by_cases hw : p.writes = some r
        · simp [hr, hw]
          omega
        · simp [hr, hw]
          omega
      · by_cases hw : p.writes = some r
        · simp [hr, hw]
          omega
        · simp [hr, hw]
          omega

lemma uses_point (h : Found r out (pos + 1) rest li t) (u : Nat) :
    u ∈ (point r (p, pos) t).interval.usedAt ↔ u ∈ li.usedAt ∨
      ∃ k q, (p :: rest)[k]? = some q ∧ r ∈ q.reads ∧ u = useSlot (pos + k) := by
  rw [usedAt_point, h.uses]
  constructor
  · rintro ((hu | ⟨k, q, hq, hrq, rfl⟩) | ⟨hr, rfl⟩)
    · exact .inl hu
    · exact .inr ⟨k + 1, q, hq, hrq, by rw [Nat.add_right_comm, Nat.add_assoc]⟩
    · exact .inr ⟨0, p, rfl, hr, rfl⟩
  · rintro (hu | ⟨k, q, hq, hrq, rfl⟩)
    · exact .inl (.inl hu)
    · cases k with
      | zero =>
        cases hq
        exact .inr ⟨hrq, rfl⟩
      | succ k =>
        refine .inl (.inr ⟨k, q, hq, hrq, ?_⟩)
        rw [Nat.add_right_comm, Nat.add_assoc]

/-- The first writing is the definition: a point before the others takes the place of theirs. -/
lemma defs_point (h : Found r out (pos + 1) rest li t) :
    ((point r (p, pos) t).interval.defAt = li.defAt ∧ ∀ q ∈ p :: rest, q.writes ≠ some r) ∨
      ∃ k q, (p :: rest)[k]? = some q ∧ q.writes = some r ∧
        (point r (p, pos) t).interval.defAt = some (defSlot (pos + k)) := by
  rw [defAt_point]
  by_cases hw : p.writes = some r
  · exact .inr ⟨0, p, rfl, hw, by rw [if_pos hw, Nat.add_zero]⟩
  · rw [if_neg hw]
    rcases h.defs with ⟨hdef, hnone⟩ | ⟨k, q, hq, hwq, hdef⟩
    · exact .inl ⟨hdef, List.forall_mem_cons.2 ⟨hw, hnone⟩⟩
    · refine .inr ⟨k + 1, q, hq, hwq, ?_⟩
      rw [hdef, Nat.add_right_comm, Nat.add_assoc]

/-- Going back over one more point. -/
lemma point (h : Found r out (pos + 1) rest li t) :
    Found r out pos (p :: rest) li (Trace.point r (p, pos) t) where
  same := (same_point ..).trans h.same
  separated := separated_point h.separated
  live := h.live_point
  later := h.later_point
  slots := h.slots_point
  uses := h.uses_point
  defs := h.defs_point

end Found

end Point

/-- Going back over all points of a block. -/
lemma found_points {li : Interval} (hli : Separated li.segments) (r : VirtReg) (out : Bool)
    (pos : Nat) (points : List Point) :
    Found r out pos points li
      ((points.zipIdx pos).foldr (point r) (behind (pos + points.length) out li)) := by
  induction points generalizing pos with
  | nil =>
    refine ⟨rfl, hli, ?_, ?_, ?_, ?_, .inl ⟨rfl, ?_⟩⟩
    · cases out <;> simp [behind, Needed]
    · intro stop hstop
      cases out with
      | false => simp [behind] at hstop
      | true =>
        simp [behind] at hstop
        omega
    · intro slot
      cases out with
      | false => simp [behind, HeldAt]
      | true =>
        refine or_congr_right (iff_of_false ?_ fun h => h)
        rintro ⟨stop, hstop, hlo, hhi⟩
        cases hstop
        rw [List.length_nil] at hhi
        omega
    · simp [behind]
    · simp
  | cons p rest ih =>
    have h := ih (pos + 1)
    rw [show pos + 1 + rest.length = pos + (p :: rest).length by
      rw [List.length_cons]; omega] at h
    exact h.point

end Trace

/-! ## The scan of blocks -/

/-- The block reads the register at the position. -/
def BlockLayout.ReadsAt (b : BlockLayout) (r : VirtReg) (pos : Nat) : Prop :=
  ∃ k p, b.points[k]? = some p ∧ r ∈ p.reads ∧ pos = b.start + k

/-- The block writes the register at the position. -/
def BlockLayout.WritesAt (b : BlockLayout) (r : VirtReg) (pos : Nat) : Prop :=
  ∃ k p, b.points[k]? = some p ∧ p.writes = some r ∧ pos = b.start + k

/-- What the scan of blocks, each with the registers that are live out of it, makes of the
interval `li` of a register. -/
structure Scanned (r : VirtReg) (l : List (BlockLayout × BitSet)) (li li' : Interval) : Prop where
  same : { li' with segments := li.segments, defAt := li.defAt, usedAt := li.usedAt } = li
  separated : Separated li'.segments
  slots : ∀ slot, LiveAt li'.segments slot ↔ LiveAt li.segments slot ∨
    ∃ e ∈ l, HeldAt r (e.2.bit r.index = true) e.1.start e.1.points slot
  uses : ∀ u, u ∈ li'.usedAt ↔ u ∈ li.usedAt ∨ ∃ e ∈ l, ∃ pos, e.1.ReadsAt r pos ∧ u = useSlot pos
  defs : (li'.defAt = li.defAt ∧ ∀ e ∈ l, ∀ pos, ¬ e.1.WritesAt r pos) ∨
    ∃ e ∈ l, ∃ pos, e.1.WritesAt r pos ∧ li'.defAt = some (defSlot pos)

namespace Scanned

variable {r : VirtReg}

lemma nil {li : Interval} (h : Separated li.segments) : Scanned r [] li li :=
  ⟨rfl, h, by simp, by simp, .inl ⟨rfl, by simp⟩⟩

/-- The scan of one block. -/
lemma block {li : Interval} (h : Separated li.segments) (e : BlockLayout × BitSet) :
    Scanned r [e] li (Trace.block r e.1.start e.1.points (e.2.bit r.index) li) := by
  have hfound := Trace.found_points h r (e.2.bit r.index) e.1.start e.1.points
  unfold Trace.block
  generalize (e.1.points.zipIdx e.1.start).foldr (Trace.point r)
    (Trace.behind (e.1.start + e.1.points.length) (e.2.bit r.index) li) = t at hfound
  -- what is open at the start of the block is live from there on
  have hsegs : ∀ slot, LiveAt (t.enter e.1.start).segments slot ↔ LiveAt t.interval.segments slot ∨
      ∃ stop, t.stop = some stop ∧ e.1.start * 4 ≤ slot ∧ slot < stop := by
    intro slot
    unfold Trace.enter
    cases t.stop with
    | none => simp
    | some stop =>
      rw [Option.elim_some, Interval.liveAt_addSegment hfound.separated]
      simp
  have hrest : ∃ segments, t.enter e.1.start = { t.interval with segments } := by
    unfold Trace.enter Interval.addSegment
    cases t.stop with
    | none => exact ⟨t.interval.segments, rfl⟩
    | some stop =>
      rw [Option.elim_some]
      split
      · exact ⟨t.interval.segments, rfl⟩
      · exact ⟨_, rfl⟩
  obtain ⟨segments, hrest⟩ := hrest
  refine ⟨?_, ?_, ?_, ?_, ?_⟩
  · rw [hrest]
    exact hfound.same
  · unfold Trace.enter
    cases t.stop with
    | none => exact hfound.separated
    | some stop => exact Interval.separated_addSegment hfound.separated _ _
  · intro slot
    rw [hsegs, hfound.slots]
    simp
  · intro u
    rw [hrest, hfound.uses]
    simp only [List.mem_singleton, exists_eq_left, BlockLayout.ReadsAt]
    refine or_congr_right ?_
    constructor
    · rintro ⟨k, p, hp, hr, rfl⟩
      exact ⟨_, ⟨k, p, hp, hr, rfl⟩, rfl⟩
    · rintro ⟨_, ⟨k, p, hp, hr, rfl⟩, rfl⟩
      exact ⟨k, p, hp, hr, rfl⟩
  · rw [hrest]
    simp only [List.mem_singleton, forall_eq, exists_eq_left, BlockLayout.WritesAt]
    rcases hfound.defs with ⟨hdef, hnone⟩ | ⟨k, p, hp, hw, hdef⟩
    · refine .inl ⟨hdef, ?_⟩
      rintro pos ⟨k, p, hp, hw, -⟩
      exact hnone p (List.mem_of_getElem? hp) hw
    · exact .inr ⟨_, ⟨k, p, hp, hw, rfl⟩, hdef⟩

/-- One scan after another. -/
lemma trans {l l' : List (BlockLayout × BitSet)} {li li' li'' : Interval}
    (h : Scanned r l li li') (h' : Scanned r l' li' li'') : Scanned r (l ++ l') li li'' := by
  refine ⟨?_, h'.separated, ?_, ?_, ?_⟩
  · have hsame := congrArg (fun x : Interval => { x with
      segments := li.segments, defAt := li.defAt, usedAt := li.usedAt }) h'.same
    exact hsame.trans h.same
  · intro slot
    rw [h'.slots, h.slots, or_assoc]
    simp only [List.mem_append, or_and_right, exists_or]
  · intro u
    rw [h'.uses, h.uses, or_assoc]
    simp only [List.mem_append, or_and_right, exists_or]
  · rcases h'.defs with ⟨hdef', hnone'⟩ | ⟨e, he, hw⟩
    · rcases h.defs with ⟨hdef, hnone⟩ | ⟨e, he, pos, hw, hdef⟩
      · refine .inl ⟨hdef'.trans hdef, fun e he => ?_⟩
        exact (List.mem_append.1 he).elim (hnone e) (hnone' e)
      · exact .inr ⟨e, List.mem_append_left _ he, pos, hw, hdef'.trans hdef⟩
    · exact .inr ⟨e, List.mem_append_right _ he, hw⟩

lemma blocks {li : Interval} (h : Separated li.segments) (l : List (BlockLayout × BitSet)) :
    Scanned r l li
      (l.foldl (fun li e => Trace.block r e.1.start e.1.points (e.2.bit r.index) li) li) := by
  induction l generalizing li with
  | nil => exact nil h
  | cons e rest ih =>
    have hone := block (r := r) h e
    exact hone.trans (ih hone.separated)

end Scanned

end SsaBackend
