import SsaBackend.Proofs.Alloc.Success
import SsaBackend.Proofs.Checked.Coloring
import SsaBackend.Proofs.Checked.Liveness

/-!
# Allocation, with every access looked at

The allocator reads the occupants of a physical register wherever that is not reserved, and lays
pieces over two slots each where it spills. Here occupants that are not listed and slots that have
no number are refused. What is known of a register file at the start stays so: it lists occupants
of as many registers as may be reserved. And as pieces are not spilled again, only registers of the
start are. So an allocation is refused for an access only where a piece of a register of the start
would not end at a slot that has a number (`allocate?_agrees`). The pieces of the registers of a
function end no later than their blocks do (`Func.SlotsFit.piecesFit`).
-/

namespace SsaBackend

/-! ## The definitions -/

/-- What stands in the way of putting `r` into `p`. -/
def RegMatrix.check? (m : RegMatrix) (ivs : Intervals) (r : VirtReg) (p : PhysReg) :
    Except Error Interference := do
  match ivs.get? r with
  | none => return .free
  | some li =>
    if m.reserved.getD p.index true || segmentsOverlap li.segments (m.fixed.getD p.index []) then
      return .fixed
    else
      match (← load? m.units p.index).filter fun o => (ivs.get? o).any li.overlaps with
      | [] => return .free
      | os => return .occupied os

/-- Spills a register. Its pieces must end at slots that have numbers. -/
def spill? (r : VirtReg) : Work SpillState SpillRecord := do
  let s ← get
  match s.intervals.get? r with
  | none => throw (.malformed (.unknownSpill r))
  | some li =>
    if !li.spillable then throw (.allocationFailed r)
    Work.ofExcept ((SpillRecord.starts li).forM fun c => ensure (c + 2 < slotLimit))
    spill r

namespace AllocState

/-- Spills a register, and lets its pieces wait. -/
def spillReg? (r : VirtReg) : Work AllocState Unit := do
  let s ← get
  match (spill? r).run s.spilling with
  | .error e st =>
    set { s with spilling := st }
    throw e
  | .ok record st =>
    set { s with
      spilling := st
      queue := record.products.foldl
        (fun q v => Waiting.enqueue ⟨productPriority, v⟩ q) s.queue
      spills := s.spills ++ [record] }

/-- Takes a physical register from an occupant, which is spilled. -/
def evict? (p : PhysReg) (winner occupant : VirtReg) : Work AllocState Unit := do
  note (.evicted occupant p winner)
  modify fun s => { s with matrix := s.matrix.unassign occupant }
  spillReg? occupant

/-- Tries the candidates in order. -/
def choose? (s : AllocState) (r : VirtReg) (weight : Weight) (site : Choice) :
    List PhysReg → Except Error Choice
  | [] => return site
  | p :: rest => do
    match ← s.matrix.check? s.intervals r p, site with
    | .free, _ => return .take p
    | .occupied os, .giveUp =>
      s.choose? r weight (if s.evictable weight os then .evictFrom p os else .giveUp) rest
    | _, _ => s.choose? r weight site rest

/-- Finds a place for a register, or spills it. -/
def selectOrSpill? (t : Target) (r : VirtReg) : Work AllocState Unit := do
  let s ← get
  match s.intervals.get? r with
  | none => return
  | some li =>
    if li.isEmpty || (s.matrix.assigned? r).isSome then return
    match ← Work.ofExcept (s.choose? r li.weight .giveUp (t.candidates li.regClass)) with
    | .take p => assign r p
    | .evictFrom p os =>
      os.forM (evict? p r)
      assign r p
    | .giveUp => if s.isSpillable r then spillReg? r else throw (.allocationFailed r)

/-- Gives the registers of the queue their places, at most `bound` of them. -/
def drain? (t : Target) : Nat → Work AllocState Unit
  | 0 => throw .endless
  | bound + 1 => do
    let s ← get
    match s.queue with
    | [] => return
    | w :: rest =>
      set { s with queue := rest }
      selectOrSpill? t w.reg
      drain? t bound

/-- Simplifies the interference graph and lets the registers wait by priority. -/
def prepare? (colors : Nat) : Work AllocState Unit := do
  let ivs := (← get).intervals
  let g ← Work.ofExcept (InterferenceGraph.build? ivs)
  let (simple, _) ← Work.ofExcept (g.simplify? ivs colors)
  modify fun s =>
    { s with
      queue := simple.order.foldl (fun q r => Waiting.enqueue ⟨simple.priority r, r⟩ q) []
      spilling := { s.spilling with journal := s.spilling.journal ++ simple.events } }

end AllocState

/-- Gives every live register a place. -/
def allocate? (t : Target) (colors : Nat) : Work SpillState Allocation := fun st =>
  AllocState.begun t (AllocState.whole t colors (AllocState.prepare? colors)
    (AllocState.drain? t (AllocState.turns st.intervals))) st

/-! ## Places -/

/-- Where a register is not reserved, its occupants are listed. -/
lemma RegMatrix.check?_eq {m : RegMatrix} (h : m.reserved.size = m.units.size) (ivs : Intervals)
    (r : VirtReg) (p : PhysReg) : m.check? ivs r p = .ok (m.check ivs r p) := by
  unfold check? check
  cases ivs.get? r with
  | none => rfl
  | some li =>
    dsimp only
    split
    · rfl
    · rename_i hfree
      have hlisted : m.reserved.getD p.index true ≠ true := fun hr => hfree (by rw [hr]; rfl)
      have hp : p.index < m.units.size := h ▸ lt_size_of_getD_ne hlisted
      have hos : ((m.units.getD p.index []).filter fun o => (ivs.get? o).any li.overlaps) =
          m.occupants ivs li p := rfl
      rw [load?_ok hp [], ok_bind, hos]
      cases m.occupants ivs li p <;> rfl

namespace AllocState

variable {s : AllocState} {r : VirtReg}

lemma choose?_eq (h : s.matrix.reserved.size = s.matrix.units.size) (weight : Weight)
    (site : Choice) (cands : List PhysReg) :
    s.choose? r weight site cands = .ok (s.choose r weight site cands) := by
  induction cands generalizing site with
  | nil => rfl
  | cons p rest ih =>
    unfold choose? choose
    rw [RegMatrix.check?_eq h, ok_bind]
    cases s.matrix.check s.intervals r p with
    | free => rfl
    | fixed => exact ih site
    | occupied os => cases site <;> exact ih _

end AllocState

/-! ## Pieces -/

/-- Where a register is spilled, its pieces end at slots that have numbers. -/
def Intervals.PiecesFit (ivs : Intervals) : Prop :=
  ∀ r li, ivs.get? r = some li → li.spillable = true →
    ∀ c ∈ SpillRecord.starts li, c + 2 < slotLimit

/-- Nothing that spilling adds is spilled again. -/
lemma Intervals.PiecesFit.spill {ivs ivs' : Intervals} (h : ivs.PiecesFit) {r : VirtReg}
    {li : Interval} {products : List VirtReg} (hrep : Replaced ivs ivs' r li products) :
    ivs'.PiecesFit := by
  intro q lq hq hs
  by_cases hqr : q = r
  · rw [hqr, hrep.emptied] at hq
    cases hq
    cases hs
  · by_cases hlt : q.index < ivs.size
    · rw [hrep.others q hqr hlt] at hq
      exact h q lq hq hs
    · obtain ⟨-, lq', hq', c, -, hpiece⟩ :=
        hrep.fresh q (hrep.added q lq hq (Nat.not_lt.1 hlt))
      rw [hq] at hq'
      cases hq'
      rw [hpiece.spillable] at hs
      cases hs

/-- The intervals of a function whose slots have numbers: a register is written and read at points
of blocks, and the slots of a block go on for as long as its pieces do. -/
lemma Func.SlotsFit.piecesFit {f : Func} {loops : LoopForest} (h : f.SlotsFit loops) :
    (f.intervalsIn loops f.blockOrder).PiecesFit := by
  intro r li hr _ c hc
  have hlt := Intervals.lt_size hr
  rw [(f.names_intervalsIn loops f.blockOrder).size] at hlt
  obtain ⟨li', w, hget, -, hscan⟩ := f.get?_intervalsIn loops f.blockOrder hlt
  rw [hget] at hr
  cases hr
  -- every piece lies within the slots of a position of some block
  suffices hpos : ∃ b ∈ f.layoutIn loops f.blockOrder, ∃ pos, pos < b.next ∧ c ≤ defSlot pos by
    obtain ⟨b, hb, pos, hpos, hle⟩ := hpos
    have hnext := h b hb
    unfold defSlot at hle
    omega
  have hblock : ∀ e ∈ (f.layoutIn loops f.blockOrder).map
      fun b => (b, f.liveOutIn loops f.blockOrder b), e.1 ∈ f.layoutIn loops f.blockOrder := by
    intro e he
    obtain ⟨b, hb, rfl⟩ := List.mem_map.1 he
    exact hb
  rcases SpillRecord.mem_starts.1 hc with hdef | ⟨u, hu, rfl⟩
  · rcases hscan.defs with ⟨hnone, -⟩ | ⟨e, he, pos, ⟨k, p, hk, -, rfl⟩, hwrite⟩
    · rw [show li'.defAt = some c from hdef] at hnone
      cases hnone
    · rw [show li'.defAt = some c from hdef] at hwrite
      cases hwrite
      have hklt := (List.getElem?_eq_some_iff.1 hk).1
      exact ⟨e.1, hblock e he, _, Nat.add_lt_add_left hklt _, Nat.le_refl _⟩
  · rcases (hscan.uses u).1 hu with hnone | ⟨e, he, pos, ⟨k, p, hk, -, rfl⟩, rfl⟩
    · cases hnone
    · have hklt := (List.getElem?_eq_some_iff.1 hk).1
      refine ⟨e.1, hblock e he, _, Nat.add_lt_add_left hklt _, ?_⟩
      unfold baseSlot useSlot defSlot
      omega

/-- A spill is refused only for a register that there is not or that may not be spilled, or if a
piece does not fit. -/
lemma spill?_agrees {start : Intervals} {s : SpillState}
    (h : start.PiecesFit → s.intervals.PiecesFit) (r : VirtReg) :
    (spill? r).Agrees (spill r) s (fun _ s' => start.PiecesFit → s'.intervals.PiecesFit)
      (¬ start.PiecesFit) := by
  cases hr : s.intervals.get? r with
  | none =>
    have hrun : (spill r).run s = .error (.malformed (.unknownSpill r)) s := by
      unfold spill
      rw [EStateM.run_bind, EStateM.run_get]
      simp only [hr]
      rfl
    refine ⟨.inl ?_, .of_error hrun fun h => nomatch h⟩
    rw [hrun]
    unfold spill?
    rw [EStateM.run_bind, EStateM.run_get]
    simp only [hr]
    rfl
  | some li =>
    cases hs : li.spillable with
    | true =>
      obtain ⟨record, st, hrun, hivs, -⟩ := spill_run hr hs
      refine ⟨?_, .of_ok hrun fun hstart =>
        hivs ▸ (h hstart).spill (SpillRecord.replaced_apply hr hs)⟩
      rcases forM_ensure (SpillRecord.starts li) (· + 2 < slotLimit) with ⟨hok, -⟩ | ⟨hstop, hnot⟩
      · left
        unfold spill?
        rw [EStateM.run_bind, EStateM.run_get]
        simp only [hr, hs, hok]
        rfl
      · right
        refine ⟨fun hstart => hnot (h hstart r li hr hs), s, ?_⟩
        unfold spill?
        rw [EStateM.run_bind, EStateM.run_get]
        simp only [hr, hs, hstop]
        rfl
    | false =>
      have hrun : (spill r).run s = .error (.allocationFailed r) s := by
        unfold spill
        rw [EStateM.run_bind, EStateM.run_get]
        simp only [hr, hs]
        rfl
      refine ⟨.inl ?_, .of_error hrun fun h => nomatch h⟩
      rw [hrun]
      unfold spill?
      rw [EStateM.run_bind, EStateM.run_get]
      simp only [hr, hs]
      rfl

/-! ## Registers -/

namespace AllocState

/-- Occupants are listed of as many physical registers as may be reserved, and where a register is
spilled, its pieces end at slots that have numbers if all pieces of the start do. -/
structure Ranged (start : Intervals) (s : AllocState) : Prop where
  listed : s.matrix.reserved.size = s.matrix.units.size
  fit : start.PiecesFit → s.intervals.PiecesFit

variable {start : Intervals} {s : AllocState} {t : Target}

lemma Ranged.note (h : Ranged start s) (e : Event) :
    (AllocState.note e).Meets s (fun _ s' => Ranged start s') (· ≠ .outOfRange) :=
  .of_modify ⟨h.listed, h.fit⟩

lemma Ranged.assign (h : Ranged start s) (r : VirtReg) (p : PhysReg) :
    (AllocState.assign r p).Meets s (fun _ s' => Ranged start s') (· ≠ .outOfRange) := by
  unfold AllocState.assign
  refine (h.note _).bind fun _ s' h' => .of_modify ⟨?_, h'.fit⟩
  rw [RegMatrix.reserved_assign, RegMatrix.size_assign]
  exact h'.listed

lemma Ranged.spillReg?_agrees (h : Ranged start s) (r : VirtReg) :
    (spillReg? r).Agrees (spillReg r) s (fun _ s' => Ranged start s')
      (¬ start.PiecesFit) := by
  obtain ⟨hrun, hmeets⟩ := spill?_agrees h.fit r
  unfold spillReg? spillReg
  constructor
  · rw [Work.get_bind_run, Work.get_bind_run]
    rcases hrun with heq | ⟨hmay, st, hstop⟩
    · rw [heq]
      exact .inl rfl
    · rw [hstop]
      exact .inr ⟨hmay, { s with spilling := st }, rfl⟩
  · refine .get_bind ?_
    cases hspill : (spill r).run s.spilling with
    | ok record st => exact .of_ok rfl ⟨h.listed, hmeets.ok hspill⟩
    | error e st => exact .of_error rfl (hmeets.error hspill)

lemma Ranged.evict?_agrees (h : Ranged start s) (p : PhysReg) (winner r : VirtReg) :
    (evict? p winner r).Agrees (evict p winner r) s (fun _ s' => Ranged start s')
      (¬ start.PiecesFit) := by
  unfold evict? evict
  refine (Work.Agrees.of_meets (h.note _)).bind fun _ s' h' => .modify_bind ?_
  have hfree : Ranged start { s' with matrix := s'.matrix.unassign r } := by
    refine ⟨?_, h'.fit⟩
    rw [RegMatrix.reserved_unassign, RegMatrix.size_unassign]
    exact h'.listed
  exact hfree.spillReg?_agrees r

/-- A turn is refused for a register that finds no place, but not for an access. -/
lemma Ranged.selectOrSpill?_agrees (h : Ranged start s) (t : Target) (r : VirtReg) :
    (selectOrSpill? t r).Agrees (selectOrSpill t r) s (fun _ s' => Ranged start s')
      (¬ start.PiecesFit) := by
  unfold selectOrSpill? selectOrSpill
  refine .get_bind ?_
  cases s.intervals.get? r with
  | none => exact .of_pure h
  | some li =>
    dsimp only
    by_cases hneed : (li.isEmpty || (s.matrix.assigned? r).isSome) = true
    · rw [if_pos hneed, if_pos hneed]
      exact .of_pure h
    · rw [if_neg hneed, if_neg hneed]
      refine .ofExcept_left (choose?_eq h.listed ..) ?_
      cases s.choose r li.weight .giveUp (t.candidates li.regClass) with
      | take p => exact .of_meets (h.assign r p)
      | evictFrom p os =>
        refine (Work.Agrees.forM (fun _ s' => Ranged start s')
          (fun o _ s' h' => h'.evict?_agrees p r o) h).bind fun _ s' h' => ?_
        exact .of_meets (h'.assign r p)
      | giveUp =>
        dsimp only
        split
        · exact h.spillReg?_agrees r
        · exact .of_meets (.of_throw fun h => nomatch h)

lemma Ranged.drain?_agrees (h : Ranged start s) (t : Target) (bound : Nat) :
    (drain? t bound).Agrees (drain t bound) s (fun _ s' => Ranged start s')
      (¬ start.PiecesFit) := by
  induction bound generalizing s with
  | zero => exact .of_meets (.of_throw fun h => nomatch h)
  | succ bound ih =>
    unfold drain? drain
    refine .get_bind ?_
    cases s.queue with
    | nil => exact .of_pure h
    | cons w rest =>
      have hnext : Ranged start { s with queue := rest } := ⟨h.listed, h.fit⟩
      refine .modify_bind (g := fun _ => { s with queue := rest }) ?_
      exact (hnext.selectOrSpill?_agrees t w.reg).bind fun _ s' h' => ih h'

lemma Ranged.prepare?_agrees (h : Ranged start s) (colors : Nat) :
    (prepare? colors).Agrees (prepare colors) s (fun _ s' => Ranged start s')
      (¬ start.PiecesFit) := by
  unfold prepare? prepare
  refine .get_bind (.ofExcept_left (InterferenceGraph.build?_eq _)
    (.ofExcept_left (InterferenceGraph.simplify?_eq ..) ?_))
  exact .of_meets (.of_modify ⟨h.listed, h.fit⟩)

/-- Where pieces fit, an allocation comes to no access that is refused, whatever its stages come
to. -/
lemma Ranged.whole_agrees (h : Ranged start s) (t : Target) (colors bound : Nat) :
    (whole t colors (prepare? colors) (drain? t bound)).Agrees
      (whole t colors (prepare colors) (drain t bound)) s (fun _ _ => True)
      (¬ start.PiecesFit) := by
  -- a target that is refused is so for want of registers
  have hvalid : (Work.ofExcept t.validate).Meets s (fun _ s' => Ranged start s')
      (· ≠ .outOfRange) := by
    refine .of_ofExcept (fun _ _ => h) fun e he => ?_
    rw [Target.validate_error he]
    exact fun h => nomatch h
  unfold whole
  refine (Work.Agrees.of_meets hvalid).bind fun _ s₁ h₁ => ?_
  dsimp only
  split
  · exact .of_meets (.of_error rfl fun h => nomatch h)
  · refine (h₁.prepare?_agrees colors).bind fun _ s₂ h₂ => ?_
    refine (h₂.drain?_agrees t bound).bind fun _ s₃ h₃ => .get_bind ?_
    exact (Work.Agrees.of_meets (h₃.note _)).bind fun _ _ _ => .of_pure trivial

end AllocState

/-- An allocation goes as it goes, and is stopped at an access only where some piece of a register of
the start does not fit. -/
lemma allocate?_agrees (t : Target) (colors : Nat) (st : SpillState) :
    (allocate? t colors).Agrees (allocate t colors) st (fun _ _ => True)
      (¬ st.intervals.PiecesFit) := by
  have hstart : AllocState.Ranged st.intervals ⟨st, .ofTarget t, [], []⟩ :=
    ⟨by simp [RegMatrix.ofTarget], id⟩
  have hwhole := hstart.whole_agrees t colors (AllocState.turns st.intervals)
  refine ⟨?_, (meets_of_whole hwhole.meets).mono (fun _ _ _ => trivial) fun _ he => he⟩
  rcases hwhole.run with heq | ⟨hmay, s, hstop⟩
  · exact .inl ((AllocState.begun_congr heq).trans (run_allocate t colors st).symm)
  · exact .inr ⟨hmay, s.spilling, AllocState.begun_error.2 ⟨s, hstop, rfl⟩⟩

end SsaBackend
