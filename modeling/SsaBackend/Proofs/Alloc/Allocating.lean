import SsaBackend.Alloc.Run
import SsaBackend.Proofs.Alloc.Placement
import SsaBackend.Proofs.Alloc.Simplification

/-!
# Allocation, step by step

`Allocating` is the invariant of an allocation in progress. Beside the `Placement` of the
registers it has their `History`: a register there was at the start is as it was, or has been
spilled once and is live nowhere. And it says who waits: a register that is live somewhere and
has no place is in the queue, apart from the ones that are being dealt with.

Each part of the work hands the invariant on: `Allocating.assign`, `Allocating.spillReg` and
`Allocating.evict`, from them `Allocating.selectOrSpill`, and by induction over the turns
`Allocating.drain`, at whose end nobody waits any more.
-/

namespace SsaBackend

open Segment SpillRecord

/-! ## History -/

/-- A piece that may not be spilled is live at the slot. -/
def SpillRecord.Shelters (ivs : Intervals) (record : SpillRecord) (slot : Nat) : Prop :=
  ∃ q ∈ record.products, ∃ lq, ivs.get? q = some lq ∧ lq.spillable = false ∧ LiveAt lq.segments slot

/-- The register has the interval it had, and was not spilled. -/
structure Kept (ivs : Intervals) (spills : List SpillRecord) (r : VirtReg) (li : Interval) :
    Prop where
  same : ivs.get? r = some li
  unspilled : ∀ record ∈ spills, record.reg ≠ r

/-- The register, which had the interval `li`, was spilled once: it is live nowhere and has no
place, and its pieces are live at the slots where they begin and at the next ones, but for a piece
that begins at one of the last two slots. -/
structure Gone (ivs : Intervals) (m : RegMatrix) (spills : List SpillRecord) (r : VirtReg)
    (li : Interval) : Prop where
  emptied : ivs.get? r = some { li.clear with spillable := false }
  unplaced : m.assigned? r = none
  record : ∃ record, spills.filter (·.reg = r) = [record] ∧
    record.defAt = li.defAt ∧ record.usedAt = li.usedAt ∧
    ∀ c ∈ SpillRecord.starts li, ¬ SpillRecord.LastTwo c →
      record.Shelters ivs c ∧ record.Shelters ivs (c + 1)

/-- Every register of the start was kept or is gone, and the pieces that came since may not be
spilled. -/
structure History (start ivs : Intervals) (m : RegMatrix) (spills : List SpillRecord) : Prop where
  origins : ∀ r li, start.get? r = some li → Kept ivs spills r li ∨ Gone ivs m spills r li
  pieces : ∀ q lq, ivs.get? q = some lq → start.size ≤ q.index → lq.spillable = false
  records : ∀ record ∈ spills, record.reg.index < start.size

lemma SpillRecord.PieceOf.shelters {ivs : Intervals} {record : SpillRecord} {r q : VirtReg}
    {li lq : Interval} {c : Nat} (h : SpillRecord.PieceOf r li c q lq)
    (hq : q ∈ record.products) (hget : ivs.get? q = some lq) (hc : ¬ LastTwo c) {slot : Nat}
    (h1 : c ≤ slot) (h2 : slot < c + 2) : record.Shelters ivs slot :=
  ⟨q, hq, lq, hget, h.spillable, h.segments ▸ liveAt_twoSlots.2 ⟨hc, h1, h2⟩⟩

/-- Pieces stay as they are while other registers are spilled. -/
lemma SpillRecord.Shelters.spill {ivs ivs' : Intervals} {record : SpillRecord} {slot : Nat}
    (h : record.Shelters ivs slot) {r : VirtReg} {li : Interval} {products : List VirtReg}
    (hrep : Replaced ivs ivs' r li products) : record.Shelters ivs' slot := by
  obtain ⟨q, hq, lq, hget, hsp, hlive⟩ := h
  refine ⟨q, hq, lq, ?_, hsp, hlive⟩
  rw [hrep.others q ?_ (Intervals.lt_size hget)]
  · exact hget
  · intro he
    rw [he, hrep.was] at hget
    cases hget
    rw [hrep.spillable] at hsp
    cases hsp

section Spilling

variable {ivs ivs' : Intervals} {m : RegMatrix} {spills : List SpillRecord} {q r : VirtReg}
  {li lq : Interval} {record : SpillRecord}

/-- A register that was kept is gone once it is spilled. -/
lemma Kept.gone (h : Kept ivs spills r lq) (hrep : Replaced ivs ivs' r li record.products)
    (hnone : m.assigned? r = none) (hreg : record.reg = r) (hdef : record.defAt = li.defAt)
    (huse : record.usedAt = li.usedAt) : Gone ivs' m (spills ++ [record]) r lq := by
  have hli := h.same
  rw [hrep.was] at hli
  cases hli
  have hnot : spills.filter (·.reg = r) = [] := by
    apply List.filter_eq_nil_iff.2
    intro e he
    simpa using h.unspilled e he
  refine ⟨hrep.emptied, hnone, record, ?_, hdef, huse, ?_⟩
  · rw [List.filter_append, hnot]
    simp [hreg]
  · intro c hc hlast
    obtain ⟨p, hp, lp, hlp, hpiece⟩ := hrep.cut c hc
    exact ⟨hpiece.shelters hp hlp hlast (Nat.le_refl _) (by omega),
      hpiece.shelters hp hlp hlast (by omega) (by omega)⟩

/-- A register stays as it is while another is spilled. -/
lemma Kept.spill (h : Kept ivs spills q lq) (hrep : Replaced ivs ivs' r li record.products)
    (hqr : q ≠ r) (hreg : record.reg = r) : Kept ivs' (spills ++ [record]) q lq := by
  refine ⟨?_, ?_⟩
  · rw [hrep.others q hqr (Intervals.lt_size h.same)]
    exact h.same
  · intro e he
    rcases List.mem_append.1 he with he | he
    · exact h.unspilled e he
    · rw [List.mem_singleton.1 he, hreg]
      exact Ne.symm hqr

/-- A register that is gone stays so while another is spilled. -/
lemma Gone.spill (h : Gone ivs m spills q lq) (hrep : Replaced ivs ivs' r li record.products)
    (hqr : q ≠ r) (hreg : record.reg = r) : Gone ivs' m (spills ++ [record]) q lq := by
  have hne : record.reg ≠ q := by
    rw [hreg]
    exact Ne.symm hqr
  obtain ⟨rec, hrec, hd, hu, hs⟩ := h.record
  refine ⟨?_, h.unplaced, rec, ?_, hd, hu, fun c hc hlast =>
    ⟨(hs c hc hlast).1.spill hrep, (hs c hc hlast).2.spill hrep⟩⟩
  · rw [hrep.others q hqr (Intervals.lt_size h.emptied)]
    exact h.emptied
  · rw [List.filter_append, hrec]
    simp [hne]

end Spilling

namespace History

variable {start ivs ivs' : Intervals} {m : RegMatrix} {spills : List SpillRecord}

lemma spill (h : History start ivs m spills) {r : VirtReg} {li : Interval} {record : SpillRecord}
    (hrep : Replaced ivs ivs' r li record.products) (hnone : m.assigned? r = none)
    (hreg : record.reg = r) (hdef : record.defAt = li.defAt) (huse : record.usedAt = li.usedAt) :
    History start ivs' m (spills ++ [record]) := by
  refine ⟨?_, ?_, ?_⟩
  · intro q lq hq
    by_cases hqr : q = r
    · subst hqr
      rcases h.origins q lq hq with hk | hg
      · exact .inr (hk.gone hrep hnone hreg hdef huse)
      · -- a register that can be spilled has not been spilled before
        exfalso
        have hsp := hrep.spillable
        have hli := hg.emptied
        rw [hrep.was] at hli
        cases hli
        cases hsp
    · rcases h.origins q lq hq with hk | hg
      · exact .inl (hk.spill hrep hqr hreg)
      · exact .inr (hg.spill hrep hqr hreg)
  · intro q lq hq hge
    by_cases hqr : q = r
    · subst hqr
      rw [hrep.emptied] at hq
      cases hq
      rfl
    · by_cases hlt : q.index < ivs.size
      · rw [hrep.others q hqr hlt] at hq
        exact h.pieces q lq hq hge
      · obtain ⟨-, l, hl, c, -, hpiece⟩ := hrep.fresh q (hrep.added q lq hq (by omega))
        rw [hl] at hq
        cases hq
        exact hpiece.spillable
  · -- what is spilled is no piece, so it was there at the start
    intro e he
    rcases List.mem_append.1 he with he | he
    · exact h.records e he
    · rw [List.mem_singleton.1 he, hreg]
      by_contra hge
      have := h.pieces r li hrep.was (by omega)
      rw [hrep.spillable] at this
      cases this

lemma assign (h : History start ivs m spills) {r : VirtReg} {li : Interval} {p : PhysReg}
    (hr : ivs.get? r = some li) (hlive : li.segments ≠ []) (hp : p.index < m.units.size) :
    History start ivs (m.assign r p) spills := by
  refine ⟨?_, h.pieces, h.records⟩
  intro q lq hq
  rcases h.origins q lq hq with hk | hg
  · exact .inl hk
  · right
    refine ⟨hg.emptied, ?_, hg.record⟩
    rw [RegMatrix.assigned?_assign hp, if_neg ?_]
    · exact hg.unplaced
    · -- who is gone is live nowhere, and is not the one that gets a place
      intro he
      have hempty := hg.emptied
      rw [he, hr] at hempty
      cases hempty
      exact hlive rfl

lemma unassign (h : History start ivs m spills) (r : VirtReg) :
    History start ivs (m.unassign r) spills := by
  refine ⟨?_, h.pieces, h.records⟩
  intro q lq hq
  rcases h.origins q lq hq with hk | hg
  · exact .inl hk
  · right
    refine ⟨hg.emptied, ?_, hg.record⟩
    rw [RegMatrix.assigned?_unassign, hg.unplaced]
    simp

end History

/-! ## The invariant -/

/-- The invariant of an allocation that began with the intervals `start`, while the registers
in `busy` are being dealt with. -/
structure Allocating (t : Target) (start : Intervals) (busy : VirtReg → Prop) (s : AllocState) :
    Prop where
  sound : s.intervals.Sound
  placement : Placement t s.intervals s.matrix
  history : History start s.intervals s.matrix s.spills
  waits : ∀ r li, s.intervals.get? r = some li → li.segments ≠ [] →
    busy r ∨ s.matrix.assigned? r ≠ none ∨ ∃ w ∈ s.queue, w.reg = r

/-! ## The queue -/

lemma Waiting.mem_enqueue {w v : Waiting} {q : List Waiting} :
    v ∈ w.enqueue q ↔ v = w ∨ v ∈ q := by
  induction q with
  | nil => simp [enqueue]
  | cons u rest ih =>
    unfold enqueue
    split
    · simp
    · rw [List.mem_cons, ih, List.mem_cons]
      exact or_left_comm

/-- Everything that is enqueued waits, and so does everything that waited. -/
lemma Waiting.mem_enqueueAll {α : Type} {f : α → Waiting} {v : Waiting} {l : List α}
    {q : List Waiting} :
    v ∈ l.foldl (fun q a => (f a).enqueue q) q ↔ (∃ a ∈ l, v = f a) ∨ v ∈ q := by
  induction l generalizing q with
  | nil => simp
  | cons a rest ih =>
    rw [List.foldl_cons, ih, mem_enqueue]
    simp only [List.mem_cons, exists_eq_or_imp]
    rw [← or_assoc, or_comm (a := ∃ b ∈ rest, v = f b)]

namespace Allocating

open AllocState

variable {t : Target} {start : Intervals} {busy : VirtReg → Prop} {s s' : AllocState}

/-- The journal plays no part. -/
lemma note (h : Allocating t start busy s) {e : Event} (hrun : (note e).run s = .ok ⟨⟩ s') :
    Allocating t start busy s' ∧ s'.intervals = s.intervals ∧ s'.matrix = s.matrix := by
  cases hrun
  exact ⟨⟨h.sound, h.placement, h.history, h.waits⟩, rfl, rfl⟩

/-- A register that was being dealt with is put where it fits and meets nobody. -/
lemma assign {r : VirtReg} (h : Allocating t start (fun q => busy q ∨ q = r) s) {li : Interval}
    {p : PhysReg} (hr : s.intervals.get? r = some li) (hlive : li.segments ≠ [])
    (hnone : s.matrix.assigned? r = none) (hfits : t.Seats li p)
    (hfree : ∀ q lq, s.matrix.assigned? q = some p → s.intervals.get? q = some lq →
      ¬ li.Meets lq)
    (hrun : (AllocState.assign r p).run s = .ok ⟨⟩ s') : Allocating t start busy s' := by
  cases hrun
  have hsize : p.index < s.matrix.units.size := by
    rw [h.placement.size]
    exact Target.lt_numRegs hfits.inClass
  refine ⟨h.sound, h.placement.assign hr hnone hfits hfree, h.history.assign hr hlive hsize, ?_⟩
  intro q lq hq hne
  show busy q ∨ (s.matrix.assign r p).assigned? q ≠ none ∨ _
  rw [RegMatrix.assigned?_assign hsize]
  by_cases hqr : q = r
  · right
    left
    simp [hqr]
  · rcases h.waits q lq hq hne with (hb | hb) | hp | hw
    · exact .inl hb
    · exact absurd hb hqr
    · rw [if_neg hqr]
      exact .inr (.inl hp)
    · exact .inr (.inr hw)

/-- A register that was being dealt with and has no place is spilled; its pieces wait. -/
lemma spillReg {r : VirtReg} (h : Allocating t start (fun q => busy q ∨ q = r) s)
    (hnone : s.matrix.assigned? r = none)
    (hrun : (AllocState.spillReg r).run s = .ok ⟨⟩ s') :
    Allocating t start busy s' ∧ s'.matrix = s.matrix ∧
      ∃ li products, Replaced s.intervals s'.intervals r li products := by
  unfold AllocState.spillReg at hrun
  rw [Work.get_bind_ok] at hrun
  split at hrun
  · cases hrun
  · rename_i record st hspill
    cases hrun
    obtain ⟨li, hrep, hreg, hdef, huse⟩ := spill_replaces hspill
    refine ⟨⟨h.sound.spill hrep, h.placement.spill hrep hnone,
      h.history.spill hrep hnone hreg hdef huse, ?_⟩, rfl, li, record.products, hrep⟩
    intro q lq hq hne
    change st.intervals.get? q = some lq at hq
    by_cases hqr : q = r
    · -- the spilled register is live nowhere any more
      subst hqr
      rw [hrep.emptied] at hq
      cases hq
      exact absurd rfl hne
    · by_cases hlt : q.index < s.intervals.size
      · have hold : s.intervals.get? q = some lq := (hrep.others q hqr hlt) ▸ hq
        rcases h.waits q lq hold hne with (hb | hb) | hp | ⟨w, hw, hwq⟩
        · exact .inl hb
        · exact absurd hb hqr
        · exact .inr (.inl hp)
        · exact .inr (.inr ⟨w, Waiting.mem_enqueueAll.2 (.inr hw), hwq⟩)
      · -- a piece
        have hmem := hrep.added q lq hq (Nat.not_lt.1 hlt)
        exact .inr (.inr ⟨⟨productPriority, q⟩,
          Waiting.mem_enqueueAll.2 (.inl ⟨q, hmem, rfl⟩), rfl⟩)

/-- A register that is taken from its place is spilled. -/
lemma evict {p : PhysReg} {winner o : VirtReg} (h : Allocating t start busy s)
    (hrun : (AllocState.evict p winner o).run s = .ok ⟨⟩ s') :
    Allocating t start busy s' ∧ s'.matrix = s.matrix.unassign o ∧
      ∃ li products, Replaced s.intervals s'.intervals o li products := by
  unfold AllocState.evict at hrun
  obtain ⟨_, s1, hnote, hrun⟩ := Work.bind_ok.1 hrun
  obtain ⟨_, s2, hmod, hrun⟩ := Work.bind_ok.1 hrun
  cases hmod
  obtain ⟨h1, hivs, hmat⟩ := h.note hnote
  have hnone : (s1.matrix.unassign o).assigned? o = none := by
    rw [RegMatrix.assigned?_unassign, if_pos rfl]
  -- while it has no place, the occupant is one of those that are being dealt with
  have h2 : Allocating t start (fun q => busy q ∨ q = o)
      { s1 with matrix := s1.matrix.unassign o } := by
    refine ⟨h1.sound, h1.placement.unassign o, h1.history.unassign o, ?_⟩
    intro q lq hq hne
    rcases h1.waits q lq hq hne with hb | hp | hw
    · exact .inl (.inl hb)
    · by_cases hqo : q = o
      · exact .inl (.inr hqo)
      · right
        left
        show (s1.matrix.unassign o).assigned? q ≠ none
        rw [RegMatrix.assigned?_unassign, if_neg hqo]
        exact hp
    · exact .inr (.inr hw)
  obtain ⟨h3, hmat3, li, products, hrep⟩ := h2.spillReg hnone hrun
  refine ⟨h3, ?_, li, products, ?_⟩
  · rw [hmat3, ← hmat]
  · rw [← hivs]
    exact hrep

/-! ## Finding a place -/

/-- What the test of a physical register says when it is not taken anyway. -/
lemma check_spec {m : RegMatrix} {ivs : Intervals} {r : VirtReg} {li : Interval} {p : PhysReg}
    (hr : ivs.get? r = some li) :
    (m.check ivs r p = .free → segmentsOverlap li.segments (m.fixed.getD p.index []) = false ∧
      m.occupants ivs li p = []) ∧
    ∀ os, m.check ivs r p = .occupied os →
      segmentsOverlap li.segments (m.fixed.getD p.index []) = false ∧
        m.occupants ivs li p = os := by
  unfold RegMatrix.check
  rw [hr]
  simp only
  cases hover : segmentsOverlap li.segments (m.fixed.getD p.index []) with
  | true => simp
  | false =>
    cases m.reserved.getD p.index true with
    | true => simp
    | false =>
      cases m.occupants ivs li p with
      | nil => simp
      | cons o os => simp

/-- A place that is taken at once is a candidate that was found free. -/
lemma choose_take {r : VirtReg} {weight : Weight} {p : PhysReg} {site : Choice}
    {cands : List PhysReg} (hsite : ∀ p, site ≠ .take p)
    (h : s.choose r weight site cands = .take p) :
    p ∈ cands ∧ s.matrix.check s.intervals r p = .free := by
  induction cands generalizing site with
  | nil => exact absurd h (hsite p)
  | cons c rest ih =>
    unfold choose at h
    split at h
    · cases h
      rename_i hfree
      exact ⟨List.mem_cons_self .., hfree⟩
    · have hnot : ∀ (os : List VirtReg) (p : PhysReg),
          (if s.evictable weight os = true then Choice.evictFrom c os else .giveUp) ≠ .take p := by
        intro os p
        split <;> simp
      obtain ⟨hmem, hc⟩ := ih (hnot _) h
      exact ⟨List.mem_cons_of_mem _ hmem, hc⟩
    · obtain ⟨hmem, hc⟩ := ih hsite h
      exact ⟨List.mem_cons_of_mem _ hmem, hc⟩

/-- A place that is taken from its occupants is a candidate that was found occupied by them. -/
lemma choose_evict {r : VirtReg} {weight : Weight} {p : PhysReg} {os : List VirtReg}
    {site : Choice} {cands : List PhysReg}
    (h : s.choose r weight site cands = .evictFrom p os) :
    site = .evictFrom p os ∨
      p ∈ cands ∧ s.matrix.check s.intervals r p = .occupied os := by
  induction cands generalizing site with
  | nil => exact .inl h
  | cons c rest ih =>
    unfold choose at h
    split at h
    · cases h
    · rename_i os' hocc
      right
      rcases ih h with hsite | ⟨hmem, hc⟩
      · split at hsite
        · cases hsite
          exact ⟨List.mem_cons_self .., hocc⟩
        · cases hsite
      · exact ⟨List.mem_cons_of_mem _ hmem, hc⟩
    · rcases ih h with hsite | ⟨hmem, hc⟩
      · exact .inl hsite
      · exact .inr ⟨List.mem_cons_of_mem _ hmem, hc⟩

/-- A register in a place that is live together with `li` is one of the occupants. -/
lemma mem_occupants (h : Allocating t start busy s) {r q : VirtReg} {li lq : Interval}
    {p : PhysReg} (hr : s.intervals.get? r = some li) (hq : s.matrix.assigned? q = some p)
    (hlq : s.intervals.get? q = some lq) (hmeet : li.Meets lq) :
    q ∈ s.matrix.occupants s.intervals li p := by
  unfold RegMatrix.occupants
  apply List.mem_filter.2
  refine ⟨(h.placement.listed q p).2 hq, ?_⟩
  rw [hlq]
  simpa using (Interval.overlaps_iff (h.sound.separated r li hr)
    (h.sound.separated q lq hlq)).2 hmeet

/-- An occupant is in the place it occupies. -/
lemma assigned_of_mem_occupants (h : Allocating t start busy s) {q : VirtReg} {li : Interval}
    {p : PhysReg} (hq : q ∈ s.matrix.occupants s.intervals li p) :
    s.matrix.assigned? q = some p := by
  unfold RegMatrix.occupants at hq
  exact (h.placement.listed q p).1 (List.mem_filter.1 hq).1

/-- Once all occupants in the way of `r` are spilled, `r` meets nobody in the place. -/
lemma evictAll {r : VirtReg} {li : Interval} {p : PhysReg} {os : List VirtReg}
    (h : Allocating t start busy s) (hr : s.intervals.get? r = some li)
    (hnone : s.matrix.assigned? r = none) (hos : s.matrix.occupants s.intervals li p = os)
    (hrun : (os.forM (AllocState.evict p r)).run s = .ok ⟨⟩ s') :
    Allocating t start busy s' ∧ s'.intervals.get? r = some li ∧
      s'.matrix.assigned? r = none ∧
      ∀ q lq, s'.matrix.assigned? q = some p → s'.intervals.get? q = some lq → ¬ li.Meets lq := by
  -- along the loop, whoever is still in the way is still to come
  have hloop := Work.forM_induct (f := AllocState.evict p r)
    (fun rest s => Allocating t start busy s ∧ s.intervals.get? r = some li ∧
      s.matrix.assigned? r = none ∧ r ∉ rest ∧
      ∀ q lq, s.matrix.assigned? q = some p → s.intervals.get? q = some lq → li.Meets lq →
        q ∈ rest) ?_ os s s' ?_ hrun
  · obtain ⟨h', hr', hnone', -, hfree⟩ := hloop
    refine ⟨h', hr', hnone', ?_⟩
    intro q lq hq hlq hmeet
    cases hfree q lq hq hlq hmeet
  · intro o rest s1 s2 hs1 hev
    obtain ⟨h1, hr1, hnone1, hnot, hway⟩ := hs1
    obtain ⟨h2, hmat, lo, products, hrep⟩ := h1.evict hev
    have hro : r ≠ o := by
      intro he
      exact hnot (he ▸ List.mem_cons_self ..)
    refine ⟨h2, ?_, ?_, fun hmem => hnot (List.mem_cons_of_mem _ hmem), ?_⟩
    · rw [hrep.others r hro (Intervals.lt_size hr1)]
      exact hr1
    · rw [hmat, RegMatrix.assigned?_unassign, if_neg hro]
      exact hnone1
    · intro q lq hq hlq hmeet
      rw [hmat, RegMatrix.assigned?_unassign] at hq
      split at hq
      · cases hq
      · rename_i hqo
        obtain ⟨l, hl, -⟩ := h1.placement.placed q p hq
        rw [hrep.others q hqo (Intervals.lt_size hl)] at hlq
        rcases List.mem_cons.1 (hway q lq hq hlq hmeet) with he | hmem
        · exact absurd he hqo
        · exact hmem
  · refine ⟨h, hr, hnone, ?_, ?_⟩
    · intro hmem
      rw [← hos] at hmem
      rw [h.assigned_of_mem_occupants hmem] at hnone
      cases hnone
    · intro q lq hq hlq hmeet
      rw [← hos]
      exact h.mem_occupants hr hq hlq hmeet

/-! ## One turn -/

/-- After its turn a register has a place or is live nowhere, and the others are as well off
as before. -/
lemma selectOrSpill {r : VirtReg}
    (h : Allocating t start (fun q => busy q ∨ q = r) s)
    (hrun : (AllocState.selectOrSpill t r).run s = .ok ⟨⟩ s') : Allocating t start busy s' := by
  unfold AllocState.selectOrSpill at hrun
  rw [Work.get_bind_ok] at hrun
  -- nothing is done for a register that needs no place
  have hidle : (∀ li, s.intervals.get? r = some li → li.segments ≠ [] →
      s.matrix.assigned? r ≠ none) → Allocating t start busy s := by
    intro hr
    refine ⟨h.sound, h.placement, h.history, ?_⟩
    intro q lq hq hne
    rcases h.waits q lq hq hne with (hb | hb) | hp | hw
    · exact .inl hb
    · subst hb
      exact .inr (.inl (hr lq hq hne))
    · exact .inr (.inl hp)
    · exact .inr (.inr hw)
  cases hr : s.intervals.get? r with
  | none =>
    simp only [hr] at hrun
    cases hrun
    exact hidle (fun li hli => by rw [hr] at hli; cases hli)
  | some li =>
    simp only [hr] at hrun
    by_cases hneed : (li.isEmpty || (s.matrix.assigned? r).isSome) = true
    · rw [if_pos hneed] at hrun
      cases hrun
      apply hidle
      intro l hl hne
      rw [hr] at hl
      cases hl
      intro hn
      simp [hn, Interval.isEmpty, hne] at hneed
    · rw [if_neg hneed] at hrun
      simp only [Bool.or_eq_true, not_or, Interval.isEmpty, List.isEmpty_iff,
        Option.isSome_iff_ne_none, not_not] at hneed
      obtain ⟨hlive, hnone⟩ := hneed
      split at hrun
      · -- a free place
        rename_i p hchoice
        obtain ⟨hmem, hcheck⟩ := choose_take (by simp) hchoice
        obtain ⟨hover, hocc⟩ := (check_spec hr).1 hcheck
        refine h.assign hr hlive hnone
          (h.placement.seats_of_check h.sound hr hmem hover) ?_ hrun
        intro q lq hq hlq hmeet
        have := h.mem_occupants hr hq hlq hmeet
        rw [hocc] at this
        cases this
      · -- a place that is taken from its occupants
        rename_i p os hchoice
        rcases choose_evict hchoice with hsite | ⟨hmem, hcheck⟩
        · cases hsite
        · obtain ⟨hover, hocc⟩ := (check_spec hr).2 os hcheck
          have hfits := h.placement.seats_of_check h.sound hr hmem hover
          obtain ⟨_, s1, hev, hrun⟩ := Work.bind_ok.1 hrun
          obtain ⟨h1, hr1, hnone1, hfree⟩ := h.evictAll hr hnone hocc hev
          exact h1.assign hr1 hlive hnone1 hfits hfree hrun
      · -- no place
        split at hrun
        · exact (h.spillReg hnone hrun).1
        · cases hrun

/-! ## All turns -/

/-- Who leaves the queue is being dealt with. -/
lemma dequeue (h : Allocating t start busy s) {w : Waiting} {rest : List Waiting}
    (hq : s.queue = w :: rest) :
    Allocating t start (fun q => busy q ∨ q = w.reg) { s with queue := rest } := by
  refine ⟨h.sound, h.placement, h.history, ?_⟩
  intro q lq hget hne
  rcases h.waits q lq hget hne with hb | hp | ⟨v, hv, hvq⟩
  · exact .inl (.inl hb)
  · exact .inr (.inl hp)
  · rw [hq] at hv
    rcases List.mem_cons.1 hv with he | hv
    · exact .inl (.inr (he ▸ hvq.symm))
    · exact .inr (.inr ⟨v, hv, hvq⟩)

/-- When the queue has run empty, everybody has had a turn. -/
lemma drain {bound : Nat}
    (h : Allocating t start (fun _ => False) s)
    (hrun : (AllocState.drain t bound).run s = .ok ⟨⟩ s') :
    Allocating t start (fun _ => False) s' ∧ s'.queue = [] := by
  induction bound generalizing s with
  | zero => cases hrun
  | succ bound ih =>
    unfold AllocState.drain at hrun
    rw [Work.get_bind_ok] at hrun
    cases hq : s.queue with
    | nil =>
      simp only [hq] at hrun
      cases hrun
      exact ⟨h, hq⟩
    | cons w rest =>
      simp only [hq] at hrun
      obtain ⟨_, s1, hset, hrun⟩ := Work.bind_ok.1 hrun
      cases hset
      obtain ⟨_, s2, hsel, hrun⟩ := Work.bind_ok.1 hrun
      exact ih ((h.dequeue hq).selectOrSpill hsel) hrun

/-- At the start every register that is live somewhere waits. -/
lemma prepare {st : SpillState} {colors : Nat} (hsound : st.intervals.Sound)
    (hrun : (AllocState.prepare colors).run ⟨st, .ofTarget t, [], []⟩ = .ok ⟨⟩ s') :
    Allocating t st.intervals (fun _ => False) s' := by
  cases hrun
  refine ⟨hsound, placement_ofTarget t _, ⟨?_, ?_, ?_⟩, ?_⟩
  · intro r li hr
    exact .inl ⟨hr, by simp⟩
  · intro q lq hq hge
    exact absurd (Intervals.lt_size hq) (Nat.not_lt.2 hge)
  · simp
  · intro r li hr hne
    right
    right
    have hmem : li ∈ st.intervals.toList := by
      unfold Intervals.toList
      exact Array.mem_toList_iff.2 (Array.mem_of_getElem? hr)
    have hord := InterferenceGraph.mem_order st.intervals colors hmem hne
    rw [hsound.named r li hr] at hord
    exact ⟨_, Waiting.mem_enqueueAll.2 (.inl ⟨r, hord, rfl⟩), rfl⟩

end Allocating

end SsaBackend
