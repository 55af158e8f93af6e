import Mathlib.Data.List.Pairwise
import SsaBackend.Proofs.Alloc.Promised

/-!
# The check of allocations is exact

`Allocation.verify` looks at the registers one after another. It keeps, for every physical
register, those it has met there, and compares the next one with them. So what it has passed is
seated, and two registers it has passed in one place are not live together (`Passed`). At the end
all registers that are live somewhere have been passed, which is one half of
`Allocation.verify_exact`: the check accepts an allocation exactly if every register that is live
somewhere fits in its place, registers in one place are never live together, and the pieces of
every spilled register are live at its definition and its uses. The other half, that the check
accepts what keeps these promises, is `Allocation.verify_ok`.
-/

namespace SsaBackend

open Segment

namespace Allocation

variable {a : Allocation} {t : Target} {ivs : Intervals} {li : Interval} {before : List Interval}
  {met met' : Array (List VirtReg)}

lemma require_ok_iff {cond : Bool} {defect : AllocDefect} :
    require cond defect = .ok () ↔ cond = true := by
  constructor
  · intro h
    unfold require at h
    split at h
    · assumption
    · cases h
  · exact require_ok

/-- A register passes if it is seated in its place and nobody met there before overlaps it. Then
it is listed there. -/
lemma verifyInterval_inv (h : a.verifyInterval t ivs met li = .ok met') :
    ∃ p, a.assigned? li.reg = some p ∧ t.Seats li p ∧ p.index < met.size ∧
      (∀ o ∈ met.getD p.index [], (ivs.get? o).any (·.overlaps li) = false) ∧
      met' = met.modify p.index (· ++ [li.reg]) := by
  unfold verifyInterval at h
  cases hp : a.assigned? li.reg with
  | none =>
    rw [hp] at h
    cases h
  | some p =>
    rw [hp] at h
    simp only [except_bind_ok] at h
    obtain ⟨⟨⟩, hreserved, ⟨⟩, hclass, ⟨⟩, hfixed, ⟨⟩, hfile, ⟨⟩, hmet, hlist⟩ := h
    simp only [forM_ok, require_ok_iff] at hreserved hclass hfixed hfile hmet
    refine ⟨p, rfl, ⟨hclass, by simpa using hreserved, ?_⟩, by simpa using hfile, ?_, ?_⟩
    · intro e he hep
      simpa [hep] using hfixed e he
    · intro o ho
      simpa using hmet o ho
    · exact (Except.ok.inj hlist).symm

/-- The registers passed so far: each is listed in its place and seated there, and no two in one
place are live together. -/
structure Passed (a : Allocation) (t : Target) (before : List Interval)
    (met : Array (List VirtReg)) : Prop where
  listed : ∀ lo ∈ before, ∀ p, a.assigned? lo.reg = some p → lo.reg ∈ met.getD p.index []
  seated : ∀ lo ∈ before, ∃ p, a.assigned? lo.reg = some p ∧ t.Seats lo p
  apart : before.Pairwise fun x y => a.assigned? x.reg = a.assigned? y.reg → ¬ x.Meets y

/-- What the check of one register adds to the registers passed. -/
lemma Passed.add (h : a.Passed t before met) (hsound : ivs.Sound)
    (hbefore : ∀ lo ∈ before, ivs.get? lo.reg = some lo) (hli : ivs.get? li.reg = some li)
    (hrun : a.verifyInterval t ivs met li = .ok met') : a.Passed t (before ++ [li]) met' := by
  obtain ⟨p, hp, hseats, hfile, hclear, rfl⟩ := verifyInterval_inv hrun
  have hgrown : ∀ q : PhysReg, ∀ o ∈ met.getD q.index [],
      o ∈ (met.modify p.index (· ++ [li.reg])).getD q.index [] := by
    intro q o ho
    rw [getD_modify]
    split
    · exact List.mem_append_left _ ho
    · exact ho
  refine ⟨?_, ?_, ?_⟩
  · intro lo hlo q hq
    rcases List.mem_append.1 hlo with hlo | hlo
    · exact hgrown q _ (h.listed lo hlo q hq)
    · cases List.mem_singleton.1 hlo
      cases hp.symm.trans hq
      rw [getD_modify, if_pos ⟨rfl, hfile⟩]
      exact List.mem_append_right _ List.mem_cons_self
  · intro lo hlo
    rcases List.mem_append.1 hlo with hlo | hlo
    · exact h.seated lo hlo
    · cases List.mem_singleton.1 hlo
      exact ⟨p, hp, hseats⟩
  · refine List.pairwise_append.2 ⟨h.apart, List.pairwise_singleton .., ?_⟩
    intro lo hlo l hl hsame hmeet
    cases List.mem_singleton.1 hl
    -- the earlier one is listed where the later one is put, and was compared with it
    have hover := hclear lo.reg (h.listed lo hlo p (hsame.trans hp))
    rw [hbefore lo hlo, Option.any_some, ← Bool.not_eq_true] at hover
    exact hover ((Interval.overlaps_iff (hsound.separated _ lo (hbefore lo hlo))
      (hsound.separated _ li hli)).2 hmeet)

/-- What the check has passed when it comes to its end. -/
lemma Passed.foldlM (hsound : ivs.Sound) {l : List Interval} (h : a.Passed t before met)
    (hbefore : ∀ lo ∈ before, ivs.get? lo.reg = some lo)
    (hl : ∀ li ∈ l, ivs.get? li.reg = some li)
    (hrun : l.foldlM (a.verifyInterval t ivs) met = .ok met') :
    a.Passed t (before ++ l) met' := by
  induction l generalizing before met with
  | nil =>
    cases hrun
    rwa [List.append_nil]
  | cons li rest ih =>
    rw [List.foldlM_cons, except_bind_ok] at hrun
    obtain ⟨met₁, hfirst, hrest⟩ := hrun
    have hli := hl li List.mem_cons_self
    have hadd := h.add hsound hbefore hli hfirst
    rw [List.append_cons]
    refine ih hadd ?_ (fun l hmem => hl l (List.mem_cons_of_mem _ hmem)) hrest
    intro lo hlo
    rcases List.mem_append.1 hlo with hlo | hlo
    · exact hbefore lo hlo
    · exact List.mem_singleton.1 hlo ▸ hli

/-- What the check of a spill has seen when it succeeds. -/
lemma covers_of_verifySpill (hsound : ivs.Sound) {record : SpillRecord}
    (h : verifySpill ivs record = .ok ()) {slot : Nat}
    (hslot : record.defAt = some slot ∨ slot ∈ record.usedAt) : Covers ivs record slot := by
  unfold verifySpill at h
  rw [except_bind_ok] at h
  obtain ⟨⟨⟩, hdef, huse⟩ := h
  simp only [forM_ok, require_ok_iff] at hdef huse
  rcases hslot with hd | hu
  · exact (covered_iff hsound).1 (hdef slot (Option.mem_toList.2 hd))
  · exact (covered_iff hsound).1 (huse slot hu)

/-- The registers that are live somewhere are passed by a check that succeeds. -/
lemma passed_of_verify (hsound : ivs.Sound) (h : a.verify ivs t = .ok ()) :
    (∃ met, a.Passed t (ivs.toList.filter (!·.isEmpty)) met) ∧
      ∀ record ∈ a.spills, verifySpill ivs record = .ok () := by
  unfold verify at h
  simp only [except_bind_ok, forM_ok] at h
  obtain ⟨met, hrun, hspills⟩ := h
  have hstart : a.Passed t [] (Array.replicate t.numRegs []) :=
    ⟨fun _ hlo => (List.not_mem_nil hlo).elim, fun _ hlo => (List.not_mem_nil hlo).elim,
      List.Pairwise.nil⟩
  refine ⟨⟨met, ?_⟩, hspills⟩
  refine hstart.foldlM hsound (fun _ hlo => (List.not_mem_nil hlo).elim) ?_ hrun
  intro li hli
  exact hsound.get?_of_mem (List.mem_filter.1 hli).1

/-- The check of an allocation is exact, for a target none of whose ranges is empty. It succeeds
exactly if every register that is live somewhere fits in its place, which is one of its class, is
not reserved and is not taken at a slot of the register; registers that are live at a common slot
have different places; and for every spilled register some piece is live at its definition and at
each of its uses. -/
theorem verify_exact {a : Allocation} {t : Target} {ivs : Intervals} (hbuilt : ivs.Built)
    (hfix : ∀ e ∈ t.fixed, e.2.start < e.2.stop) :
    a.verify ivs t = .ok () ↔ a.Fitting t ivs ∧ a.Apart ivs ∧
      ∀ record ∈ a.spills, ∀ slot, record.defAt = some slot ∨ slot ∈ record.usedAt →
        Covers ivs record slot := by
  have hsound := hbuilt.sound
  constructor
  · intro h
    obtain ⟨⟨met, hpassed⟩, hspills⟩ := passed_of_verify hsound h
    have hlive : ∀ r li, ivs.get? r = some li → li.segments ≠ [] →
        li.reg = r ∧ li ∈ ivs.toList.filter (!·.isEmpty) := by
      intro r li hr hne
      refine ⟨hsound.named r li hr, List.mem_filter.2 ⟨?_, by simpa [Interval.isEmpty] using hne⟩⟩
      exact Array.mem_toList_iff.2 (Array.mem_of_getElem? hr)
    refine ⟨?_, ?_, fun record hrec slot => covers_of_verifySpill hsound (hspills record hrec)⟩
    · intro r li hr hne
      obtain ⟨rfl, hmem⟩ := hlive r li hr hne
      obtain ⟨p, hp, hseats⟩ := hpassed.seated li hmem
      exact ⟨p, hp, (Target.seats_iff hfix (hsound.separated _ li hr)).1 hseats⟩
    · intro r q li lq hne hr hq hmeet hsame
      have hmeet' := hmeet
      obtain ⟨slot, ⟨x, hx, -⟩, y, hy, -⟩ := hmeet'
      obtain ⟨rfl, hli⟩ := hlive r li hr (List.ne_nil_of_mem hx)
      obtain ⟨rfl, hlq⟩ := hlive q lq hq (List.ne_nil_of_mem hy)
      have : Std.Symm fun x y : Interval => a.assigned? x.reg = a.assigned? y.reg → ¬ x.Meets y :=
        ⟨fun x y h hs hm => h hs.symm hm.symm⟩
      exact hpassed.apart.forall hli hlq (fun he => hne (he ▸ rfl)) hsame hmeet
  · rintro ⟨hfit, hapart, hcover⟩
    exact verify_ok hfix hsound hfit hapart hcover

/-! ## Neighbours that touch -/

/-- Three registers: the last is reserved, and the first is taken while none of the registers of
`crowded` is live. -/
def touching : Target := ((Target.uniform 3).reserve ⟨2⟩).fix ⟨0⟩ ⟨14, 18⟩

/-- The first and the third register of `crowded` in one place, and the second in another. A
spilled register has the first and the third as its pieces. -/
def adjoining : Allocation where
  assignment := ⟨[(0, ⟨0⟩), (1, ⟨1⟩), (2, ⟨0⟩)]⟩
  spills := [⟨⟨3⟩, ⟨0⟩, [⟨0⟩, ⟨2⟩], some 2, [13, 21]⟩]

/-- The same with the second register in the place of the others. -/
def clashing : Allocation := { adjoining with assignment := ⟨[(0, ⟨0⟩), (1, ⟨0⟩), (2, ⟨0⟩)]⟩ }

/-- Where the live registers and the range only touch, the allocation is accepted and keeps its
promises; where two registers cross, it is refused and breaks one of them. -/
theorem verify_exact_adjoining :
    crowded.Built ∧ (∀ e ∈ touching.fixed, e.2.start < e.2.stop) ∧
      (adjoining.Fitting touching crowded ∧ adjoining.Apart crowded ∧
        ∀ record ∈ adjoining.spills, ∀ slot, record.defAt = some slot ∨ slot ∈ record.usedAt →
          Covers crowded record slot) ∧
      clashing.verify crowded touching =
        .error (.malformed (.inAllocation (.sharedRegister ⟨0⟩ ⟨1⟩ ⟨0⟩))) ∧
      ¬ (clashing.Fitting touching crowded ∧ clashing.Apart crowded ∧
        ∀ record ∈ clashing.spills, ∀ slot, record.defAt = some slot ∨ slot ∈ record.usedAt →
          Covers crowded record slot) := by
  have hfix : ∀ e ∈ touching.fixed, e.2.start < e.2.stop := by decide
  have hrefused : clashing.verify crowded touching =
      .error (.malformed (.inAllocation (.sharedRegister ⟨0⟩ ⟨1⟩ ⟨0⟩))) := by decide
  refine ⟨crowded_built, hfix, (verify_exact crowded_built hfix).1 (by decide), hrefused, ?_⟩
  intro h
  rw [(verify_exact crowded_built hfix).2 h] at hrefused
  cases hrefused

end Allocation

end SsaBackend
