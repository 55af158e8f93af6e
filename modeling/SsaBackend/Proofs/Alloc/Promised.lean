import SsaBackend.Proofs.Alloc.Allocating
import SsaBackend.Proofs.Alloc.Whole

/-!
# What is promised of an allocation

Every register that is live somewhere has a place that it fits in, registers that are live together
have different places, and the pieces of a spilled register are live at its definition and its
uses. The check of allocations accepts what keeps these promises: this walks through the check with
the registers already met in view (`foldlM_verifyInterval`). An allocation that is found keeps the
first two, as the invariant of `Allocating` says at the end of the run, when nobody waits
(`Finished.fitting`, `Allocating.distinct`), and its pieces are live where they begin
(`Allocating.covers`).
-/

namespace SsaBackend

open Segment

/-- The registers are numbered in order, and the segments of each came about by adding
ranges. -/
structure Intervals.Built (ivs : Intervals) : Prop where
  named : ∀ r li, ivs.get? r = some li → li.reg = r
  segments : ∀ r li, ivs.get? r = some li → li.Built

lemma Intervals.Built.sound {ivs : Intervals} (h : ivs.Built) : ivs.Sound :=
  ⟨h.named, fun r li hr => (h.segments r li hr).separated⟩

namespace Allocation

/-! ## What is promised of an allocation -/

/-- The register has a place, was not spilled, and is live where `li` was. -/
structure Keeps (a : Allocation) (ivs : Intervals) (r : VirtReg) (li : Interval) : Prop where
  placed : a.assigned? r ≠ none
  unspilled : a.isSpilled r = false
  same : ∃ lr, ivs.get? r = some lr ∧ lr.segments = li.segments

/-- Some piece of the record is live at the slot. -/
def Covers (ivs : Intervals) (record : SpillRecord) (slot : Nat) : Prop :=
  ∃ q ∈ record.products, ∃ lq, ivs.get? q = some lq ∧ LiveAt lq.segments slot

/-- Every register that is live somewhere fits in its place. -/
def Fitting (a : Allocation) (t : Target) (ivs : Intervals) : Prop :=
  ∀ r li, ivs.get? r = some li → li.segments ≠ [] → ∃ p, a.assigned? r = some p ∧ t.Fits li p

/-- The same by the tests of the allocator. -/
def Seated (a : Allocation) (t : Target) (ivs : Intervals) : Prop :=
  ∀ r li, ivs.get? r = some li → li.segments ≠ [] → ∃ p, a.assigned? r = some p ∧ t.Seats li p

/-- Registers that are live at a common slot have different places. -/
def Apart (a : Allocation) (ivs : Intervals) : Prop :=
  ∀ r q li lq, r ≠ q → ivs.get? r = some li → ivs.get? q = some lq → li.Meets lq →
    a.assigned? r ≠ a.assigned? q

/-! ## The check accepts what is promised -/

lemma require_ok {cond : Bool} {defect : AllocDefect} (h : cond = true) :
    require cond defect = .ok () := by
  unfold require
  rw [if_pos h]

lemma require_error {cond : Bool} {defect : AllocDefect} {e : Error}
    (h : require cond defect = .error e) :
    cond = false ∧ e = .malformed (.inAllocation defect) := by
  unfold require at h
  split at h
  · cases h
  · rename_i hcond
    cases h
    exact ⟨Bool.eq_false_iff.2 hcond, rfl⟩

/-- The registers met so far are listed in their places. -/
structure Met (a : Allocation) (t : Target) (before : List Interval)
    (met : Array (List VirtReg)) : Prop where
  size : met.size = t.numRegs
  listed : ∀ i o, o ∈ met.getD i [] → a.assigned? o = some ⟨i⟩ ∧ ∃ lo ∈ before, lo.reg = o

section Checks

variable {a : Allocation} {t : Target} {ivs : Intervals} {li : Interval} {p : PhysReg}

/-- A register in its place crosses none of the place's fixed ranges. -/
lemma fixedRanges_ok (hf : t.Seats li p) :
    (t.fixed.forM fun e => require (!(e.1 = p && segmentsOverlap li.segments [e.2]))
      (.overlapsFixed li.reg e.2 p)) = .ok () := by
  apply forM_ok.2
  intro e he
  apply require_ok
  by_cases hep : e.1 = p
  · simp [hf.clear e he hep]
  · simp [hep]

/-- Nobody met in the place before is live together with the register. -/
lemma occupants_ok (hsound : ivs.Sound) (hapart : a.Apart ivs) {before : List Interval}
    {met : Array (List VirtReg)} (hmet : a.Met t before met) (hli : ivs.get? li.reg = some li)
    (hp : a.assigned? li.reg = some p) (hnew : ∀ lo ∈ before, lo.reg ≠ li.reg) :
    ((met.getD p.index []).forM fun o =>
      require (!(ivs.get? o).any (·.overlaps li)) (.sharedRegister o li.reg p)) = .ok () := by
  apply forM_ok.2
  intro o ho
  apply require_ok
  obtain ⟨hop, lo, hlo, hname⟩ := hmet.listed p.index o ho
  cases hget : ivs.get? o with
  | none => rfl
  | some lo' =>
    have hne : o ≠ li.reg := fun he => hnew lo hlo (hname.trans he)
    have hno : lo'.overlaps li = false := by
      by_contra hover
      rw [Bool.not_eq_false, Interval.overlaps_iff (hsound.separated o lo' hget)
        (hsound.separated li.reg li hli)] at hover
      exact hapart o li.reg lo' li hne hget hli hover (hop.trans hp.symm)
    simp [hno]

end Checks

/-- A register that is in its place is listed there. -/
lemma Met.add {a : Allocation} {t : Target} {before : List Interval} {met : Array (List VirtReg)}
    (hmet : a.Met t before met) {li : Interval} {p : PhysReg} (hp : a.assigned? li.reg = some p) :
    a.Met t (before ++ [li]) (met.modify p.index (· ++ [li.reg])) := by
  have hold : ∀ i o, o ∈ met.getD i [] →
      a.assigned? o = some ⟨i⟩ ∧ ∃ lo ∈ before ++ [li], lo.reg = o := by
    intro i o ho
    obtain ⟨hop, lo, hlo, hname⟩ := hmet.listed i o ho
    exact ⟨hop, lo, List.mem_append_left _ hlo, hname⟩
  refine ⟨by rw [Array.size_modify, hmet.size], ?_⟩
  intro i o ho
  rw [getD_modify] at ho
  split at ho
  · rename_i hi
    rcases List.mem_append.1 ho with ho | ho
    · exact hold i o ho
    · rw [List.mem_singleton.1 ho]
      refine ⟨?_, li, List.mem_append_right _ (List.mem_singleton.2 rfl), rfl⟩
      rw [hp, ← hi.1]
  · exact hold i o ho

/-- The check of one register succeeds, and it is listed. -/
lemma verifyInterval_ok {a : Allocation} {t : Target} {ivs : Intervals}
    (hsound : ivs.Sound) (hfit : a.Seated t ivs)
    (hapart : a.Apart ivs) {before : List Interval} {met : Array (List VirtReg)}
    (hmet : a.Met t before met) {li : Interval} (hli : ivs.get? li.reg = some li)
    (hlive : li.segments ≠ []) (hnew : ∀ lo ∈ before, lo.reg ≠ li.reg) :
    ∃ met', a.verifyInterval t ivs met li = .ok met' ∧ a.Met t (before ++ [li]) met' := by
  obtain ⟨p, hp, hf⟩ := hfit li.reg li hli hlive
  refine ⟨met.modify p.index (· ++ [li.reg]), ?_, hmet.add hp⟩
  have hsize : decide (p.index < met.size) = true := by
    rw [hmet.size]
    simpa using Target.lt_numRegs hf.inClass
  have h1 : require (!t.isReserved p) (.assignedReserved li.reg p) = .ok () :=
    require_ok (by rw [hf.unreserved]; rfl)
  have h2 : require (t.inClass li.regClass p) (.outsideClass p li.reg) = .ok () :=
    require_ok hf.inClass
  have h3 : require (p.index < met.size) (.outsideFile p) = .ok () := require_ok hsize
  unfold verifyInterval
  simp only [hp, h1, h2, h3, fixedRanges_ok hf,
    occupants_ok hsound hapart hmet hli hp hnew]
  rfl

/-- The check of registers of different names, all of them live somewhere, succeeds. -/
lemma foldlM_verifyInterval {a : Allocation} {t : Target} {ivs : Intervals}
    (hsound : ivs.Sound) (hfit : a.Seated t ivs)
    (hapart : a.Apart ivs) {before l : List Interval} {met : Array (List VirtReg)}
    (hmet : a.Met t before met)
    (hl : ∀ li ∈ l, ivs.get? li.reg = some li ∧ li.segments ≠ [])
    (hnew : (before ++ l).Pairwise fun x y => x.reg ≠ y.reg) :
    ∃ met', l.foldlM (a.verifyInterval t ivs) met = .ok met' := by
  induction l generalizing before met with
  | nil => exact ⟨met, rfl⟩
  | cons li rest ih =>
    obtain ⟨hli, hlive⟩ := hl li (List.mem_cons_self ..)
    have hdiff : ∀ lo ∈ before, lo.reg ≠ li.reg := fun lo hlo =>
      (List.pairwise_append.1 hnew).2.2 lo hlo li (List.mem_cons_self ..)
    obtain ⟨met1, hrun, hmet1⟩ := verifyInterval_ok hsound hfit hapart hmet hli hlive hdiff
    rw [List.foldlM_cons, hrun]
    apply ih hmet1 (fun l hmem => hl l (List.mem_cons_of_mem _ hmem))
    rw [List.append_assoc]
    exact hnew

/-- A slot counts as covered exactly if some piece is live there. -/
lemma covered_iff {ivs : Intervals} (hsound : ivs.Sound) {record : SpillRecord} {slot : Nat} :
    covered ivs record slot = true ↔ Covers ivs record slot := by
  unfold covered Covers
  rw [List.any_eq_true]
  constructor
  · rintro ⟨lq, hlq, hcovers⟩
    obtain ⟨q, hq, hget⟩ := List.mem_filterMap.1 hlq
    exact ⟨q, hq, lq, hget, (Interval.covers_iff (hsound.separated q lq hget) slot).1 hcovers⟩
  · rintro ⟨q, hq, lq, hget, hlive⟩
    refine ⟨lq, List.mem_filterMap.2 ⟨q, hq, hget⟩, ?_⟩
    exact (Interval.covers_iff (hsound.separated q lq hget) slot).2 hlive

/-- If every slot that uses the spilled register is covered, the check of the spill fails only
because the definition is not. -/
lemma verifySpill_error {ivs : Intervals} (hsound : ivs.Sound) {record : SpillRecord}
    (huses : ∀ u ∈ record.usedAt, Covers ivs record u) {e : Error}
    (h : verifySpill ivs record = .error e) :
    ∃ d, record.defAt = some d ∧ ¬ Covers ivs record d ∧
      e = .malformed (.inAllocation (.uncoveredDef d record.reg)) := by
  have huse : (record.usedAt.forM fun u =>
      require (covered ivs record u) (.uncoveredUse u record.reg)) = .ok () :=
    forM_ok.2 fun u hu => require_ok ((covered_iff hsound).2 (huses u hu))
  unfold verifySpill at h
  rcases forM_cases (fun d => require (covered ivs record d) (.uncoveredDef d record.reg))
    record.defAt.toList with hdef | ⟨d, hd, e', hfail, hdef⟩
  · rw [hdef] at h
    change _ = Except.error e at h
    exact absurd (huse.symm.trans h) (by simp)
  · rw [hdef] at h
    cases h
    obtain ⟨hnot, rfl⟩ := require_error hfail
    refine ⟨d, Option.mem_toList.1 hd, fun hcovers => ?_, rfl⟩
    rw [(covered_iff hsound).2 hcovers] at hnot
    cases hnot

/-- The check accepts an allocation that passes the tests of the allocator and whose uses are
covered, or finds a definition that is not. -/
lemma verify_seated {a : Allocation} {t : Target} {ivs : Intervals}
    (hsound : ivs.Sound) (hfit : a.Seated t ivs) (hapart : a.Apart ivs)
    (huses : ∀ record ∈ a.spills, ∀ u ∈ record.usedAt, Covers ivs record u) :
    a.verify ivs t = .ok () ∨ ∃ record ∈ a.spills, ∃ d, record.defAt = some d ∧
      ¬ Covers ivs record d ∧
      a.verify ivs t = .error (.malformed (.inAllocation (.uncoveredDef d record.reg))) := by
  have hmet : a.Met t [] (Array.replicate t.numRegs []) := by
    refine ⟨by simp, ?_⟩
    intro i o ho
    rw [getD_replicate] at ho
    cases ho
  have hall : ∀ li ∈ ivs.toList.filter (!·.isEmpty),
      ivs.get? li.reg = some li ∧ li.segments ≠ [] := by
    intro li hli
    obtain ⟨hmem, hne⟩ := List.mem_filter.1 hli
    exact ⟨hsound.get?_of_mem hmem, by simpa [Interval.isEmpty] using hne⟩
  have hnew : (ivs.toList.filter (!·.isEmpty)).Pairwise fun x y => x.reg ≠ y.reg :=
    hsound.pairwise_reg.sublist List.filter_sublist
  obtain ⟨met, hrun⟩ := foldlM_verifyInterval hsound hfit hapart hmet hall hnew
  unfold verify
  simp only [hrun]
  rcases forM_cases (verifySpill ivs) a.spills with hok | ⟨record, hrec, e, hfail, herror⟩
  · exact .inl hok
  · obtain ⟨d, hd, hnot, rfl⟩ := verifySpill_error hsound (huses record hrec) hfail
    exact .inr ⟨record, hrec, d, hd, hnot, herror⟩

/-- The check accepts an allocation that keeps the promises. -/
lemma verify_ok {a : Allocation} {t : Target} {ivs : Intervals}
    (hfix : ∀ e ∈ t.fixed, e.2.start < e.2.stop) (hsound : ivs.Sound) (hfit : a.Fitting t ivs)
    (hapart : a.Apart ivs)
    (hcover : ∀ record ∈ a.spills, ∀ slot, record.defAt = some slot ∨ slot ∈ record.usedAt →
      Covers ivs record slot) : a.verify ivs t = .ok () := by
  have hseated : a.Seated t ivs := by
    intro r li hr hlive
    obtain ⟨p, hp, hf⟩ := hfit r li hr hlive
    exact ⟨p, hp, (Target.seats_iff hfix (hsound.separated r li hr)).2 hf⟩
  rcases verify_seated hsound hseated hapart
    (fun record hrec u hu => hcover record hrec u (.inr hu)) with hok | ⟨record, hrec, d, hd, hnot, -⟩
  · exact hok
  · exact absurd (hcover record hrec d (.inl hd)) hnot

end Allocation

/-! ## The end of a run -/

/-- An allocation that was found is read off a state in which the invariant holds and nobody
waits. -/
lemma allocate_finishes {t : Target} {colors : Nat} {st st' : SpillState} {a : Allocation}
    (hsound : st.intervals.Sound) (hrun : (allocate t colors).run st = .ok a st') :
    ∃ s : AllocState, Allocating t st.intervals (fun _ => False) s ∧ s.queue = [] ∧
      s.intervals = st'.intervals ∧ a = ⟨s.matrix.assignment, s.spills⟩ := by
  obtain ⟨s', hwhole, rfl⟩ := allocate_ok.1 hrun
  obtain ⟨-, -, s₁, s₂, hprepare, hdrain, rfl, hnote⟩ := AllocState.whole_ok.1 hwhole
  obtain ⟨hinv, hqueue⟩ := (Allocating.prepare hsound hprepare).drain hdrain
  cases hnote
  exact ⟨s₂, hinv, hqueue, rfl, rfl⟩

namespace Allocating

variable {t : Target} {start : Intervals} {s : AllocState}

/-- When nobody waits, every register that is live somewhere has a place. -/
lemma seated (h : Allocating t start (fun _ => False) s) (hq : s.queue = []) :
    Allocation.Seated ⟨s.matrix.assignment, s.spills⟩ t s.intervals := by
  intro r li hr hlive
  rcases h.waits r li hr hlive with hb | hp | ⟨w, hw, -⟩
  · exact hb.elim
  · obtain ⟨p, hp⟩ := Option.ne_none_iff_exists'.1 hp
    obtain ⟨lr, hlr, hseats⟩ := h.placement.placed r p hp
    rw [hr] at hlr
    cases hlr
    exact ⟨p, hp, hseats⟩
  · rw [hq] at hw
    cases hw

/-- When nobody waits, registers that are live at a common slot have different places. -/
lemma distinct (h : Allocating t start (fun _ => False) s) (hq : s.queue = []) :
    Allocation.Apart ⟨s.matrix.assignment, s.spills⟩ s.intervals := by
  intro r q li lq hne hr hlq hmeet heq
  have hlive : li.segments ≠ [] := by
    intro he
    obtain ⟨slot, ⟨x, hx, -⟩, -⟩ := hmeet
    rw [he] at hx
    cases hx
  obtain ⟨p, hp, -⟩ := h.seated hq r li hr hlive
  exact h.placement.apart r q p li lq hne hp (heq.symm.trans hp) hr hlq hmeet

/-- The pieces of a spilled register are live where they begin and at the next slot, but for a piece
that begins at one of the last two slots. -/
lemma covers (h : Allocating t start (fun _ => False) s) {r : VirtReg} {li : Interval}
    (hr : start.get? r = some li) {record : SpillRecord} (hmem : record ∈ s.spills)
    (hreg : record.reg = r) :
    record.defAt = li.defAt ∧ record.usedAt = li.usedAt ∧
      ∀ c ∈ SpillRecord.starts li, ¬ SpillRecord.LastTwo c →
        Allocation.Covers s.intervals record c ∧ Allocation.Covers s.intervals record (c + 1) := by
  have hweaken : ∀ slot, record.Shelters s.intervals slot →
      Allocation.Covers s.intervals record slot := by
    intro slot hs
    obtain ⟨q, hq, lq, hlq, -, hl⟩ := hs
    exact ⟨q, hq, lq, hlq, hl⟩
  rcases h.history.origins r li hr with hk | hg
  · exact absurd hreg (hk.unspilled record hmem)
  · obtain ⟨record', hfilter, hdef, huse, hshelter⟩ := hg.record
    have hsame : record = record' := by
      have : record ∈ s.spills.filter (·.reg = r) := List.mem_filter.2 ⟨hmem, by simpa using hreg⟩
      rw [hfilter] at this
      exact List.mem_singleton.1 this
    subst hsame
    exact ⟨hdef, huse, fun c hc hlast => (hshelter c hc hlast).imp (hweaken c) (hweaken (c + 1))⟩

section Covered

variable {r : VirtReg} {li : Interval} {record : SpillRecord}

/-- A piece is live at the definition of the spilled register, if that is not at one of the last two
slots. -/
lemma covers_def (h : Allocating t start (fun _ => False) s) (hr : start.get? r = some li)
    (hmem : record ∈ s.spills) (hreg : record.reg = r) {d : Nat} (hd : li.defAt = some d)
    (hlast : ¬ SpillRecord.LastTwo d) : Allocation.Covers s.intervals record d :=
  ((h.covers hr hmem hreg).2.2 d (SpillRecord.mem_starts.2 (.inl hd)) hlast).1

/-- A piece is live at every reload or use slot at which the spilled register is used. -/
lemma covers_use (h : Allocating t start (fun _ => False) s) (hr : start.get? r = some li)
    (hmem : record ∈ s.spills) (hreg : record.reg = r) {u : Nat} (hu : u ∈ li.usedAt)
    (hmod : u % 4 ≤ 1) : Allocation.Covers s.intervals record u := by
  have hstart : baseSlot u ∈ SpillRecord.starts li := SpillRecord.mem_starts.2 (.inr ⟨u, hu, rfl⟩)
  have hbase : baseSlot u % 4 ≤ 1 := by
    unfold baseSlot
    omega
  obtain ⟨hreload, huse⟩ :=
    (h.covers hr hmem hreg).2.2 _ hstart (SpillRecord.not_lastTwo hbase)
  rcases Nat.le_one_iff_eq_zero_or_eq_one.1 hmod with hm | hm
  · rwa [show baseSlot u = u by unfold baseSlot; omega] at hreload
  · rwa [show baseSlot u + 1 = u by unfold baseSlot; omega] at huse

end Covered

end Allocating

/-- Two registers that are live together, and one that is live after them. -/
def crowded : Intervals :=
  { intervals := #[
      { reg := ⟨0⟩, segments := [⟨2, 14⟩], defAt := some 2, usedAt := [13] },
      { reg := ⟨1⟩, segments := [⟨6, 10⟩], defAt := some 6, usedAt := [9] },
      { reg := ⟨2⟩, segments := [⟨18, 22⟩], defAt := some 18, usedAt := [21] }]
    values := #[none, none, none] }

lemma crowded_built : crowded.Built := by
  have hall : ∀ r li, crowded.get? r = some li →
      li.reg = r ∧
        ∃ range : Nat × Nat, li.segments = (li.clear.addSegment range.1 range.2).segments := by
    intro r li h
    rcases r with ⟨_ | _ | _ | n⟩
    · cases h; exact ⟨rfl, (2, 14), rfl⟩
    · cases h; exact ⟨rfl, (6, 10), rfl⟩
    · cases h; exact ⟨rfl, (18, 22), rfl⟩
    · cases h
  refine ⟨fun r li h => (hall r li h).1, fun r li h => ?_⟩
  obtain ⟨-, range, hr⟩ := hall r li h
  exact ⟨[range], hr⟩

end SsaBackend
