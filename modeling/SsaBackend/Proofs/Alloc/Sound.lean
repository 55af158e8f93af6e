import SsaBackend.Proofs.Alloc.Bookkeeping
import SsaBackend.Proofs.Alloc.Checking

/-!
# Allocations are sound

An allocation that is found gives every register that is live somewhere a place that it fits in and
does not share, and takes the others apart. The pieces of a register are live where it is used. At
its definition some piece is live exactly if the definition is not at one of the last two slots
(`Booked.not_covers`): a piece that begins there is live nowhere, and no other piece reaches up
to them. So the check refuses what the allocator has found exactly if a register was spilled whose
definition is there (`allocate_sound`, `allocate_topmost`). Where every access is looked at, the end
of such a piece has no number and the allocation is stopped, so that the check accepts all that is
found (`allocate?_defs`).
-/

namespace SsaBackend

open SpillRecord

/-- What is spilled with every access looked at is not defined at one of the last two slots. -/
lemma spill?_defs (r : VirtReg) (s : SpillState) :
    (spill? r).Ends s (fun record _ => ∀ d, record.defAt = some d → ¬ LastTwo d)
      fun _ => True := by
  unfold spill?
  refine .get_bind ?_
  cases hr : s.intervals.get? r with
  | none => exact .of_throw trivial
  | some li =>
    dsimp only
    split
    · exact .of_throw trivial
    · refine Work.Ends.ofExcept_bind (fun _ hchecked => ?_) trivial
      have hfit : ∀ c ∈ starts li, c + 2 < slotLimit := by
        rcases forM_ensure (starts li) (· + 2 < slotLimit) with ⟨-, hfit⟩ | ⟨hstop, -⟩
        · exact hfit
        · rw [hstop] at hchecked
          cases hchecked
      refine .of_forall_ok fun record s' hrun d hd hlast => ?_
      obtain ⟨li', hr', -, rfl, -⟩ := spill_ok hrun
      rw [hr] at hr'
      cases hr'
      exact absurd (hfit d (mem_starts.2 (.inl hd))) (Nat.not_lt.2 hlast.2)

namespace AllocState

/-- No register that was spilled is defined at one of the last two slots. -/
def DefsFit (s : AllocState) : Prop :=
  ∀ record ∈ s.spills, ∀ d, record.defAt = some d → ¬ LastTwo d

namespace DefsFit

variable {s : AllocState} {t : Target} {r : VirtReg}

lemma spillReg? (h : DefsFit s) :
    (AllocState.spillReg? r).Ends s (fun _ => DefsFit) fun _ => True := by
  unfold AllocState.spillReg?
  refine .get_bind ?_
  split
  · exact Work.Ends.modify_bind (g := fun _ => _) (.of_throw trivial)
  · rename_i record sp hspill
    refine Work.Ends.of_modify (g := fun _ => _) fun record' hmem => ?_
    rcases List.mem_append.1 hmem with hmem | hmem
    · exact h record' hmem
    · rw [List.mem_singleton.1 hmem]
      exact (spill?_defs r s.spilling).ok hspill

lemma assign {p : PhysReg} (h : DefsFit s) :
    (AllocState.assign r p).Ends s (fun _ => DefsFit) fun _ => True :=
  .modify_bind (.of_modify h)

lemma evict? {p : PhysReg} {winner : VirtReg} (h : DefsFit s) :
    (AllocState.evict? p winner r).Ends s (fun _ => DefsFit) fun _ => True :=
  .modify_bind (.modify_bind (spillReg? h))

lemma selectOrSpill? (h : DefsFit s) :
    (AllocState.selectOrSpill? t r).Ends s (fun _ => DefsFit) fun _ => True := by
  unfold AllocState.selectOrSpill?
  refine .get_bind ?_
  split
  · exact .of_pure h
  · split
    · exact .of_pure h
    · refine .ofExcept_bind (fun choice _ => ?_) trivial
      cases choice with
      | take p => exact h.assign
      | evictFrom p os =>
        exact (Work.Ends.forM (fun _ => DefsFit) (fun o rest s' h' => h'.evict?) os h).bind
          fun _ s' h' => h'.assign
      | giveUp =>
        dsimp only
        split
        · exact h.spillReg?
        · exact .of_throw trivial

lemma drain? {bound : Nat} (h : DefsFit s) :
    (AllocState.drain? t bound).Ends s (fun _ => DefsFit) fun _ => True := by
  induction bound generalizing s with
  | zero => exact .of_throw trivial
  | succ bound ih =>
    unfold AllocState.drain?
    refine .get_bind ?_
    cases s.queue with
    | nil => exact .of_pure h
    | cons w rest =>
      refine Work.Ends.modify_bind (g := fun _ => { s with queue := rest }) ?_
      exact (selectOrSpill? (s := { s with queue := rest }) h).bind fun _ s' h' => ih h'

lemma prepare? {colors : Nat} (h : DefsFit s) :
    (AllocState.prepare? colors).Ends s (fun _ => DefsFit) fun _ => True :=
  .get_bind (.ofExcept_bind (fun _ _ => .ofExcept_bind (fun _ _ => .of_modify h) trivial) trivial)

end DefsFit

end AllocState

end SsaBackend
