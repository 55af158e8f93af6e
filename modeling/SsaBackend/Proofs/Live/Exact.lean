import SsaBackend.Loop.Detect
import SsaBackend.Proofs.Graph.Order
import SsaBackend.Proofs.Live.Accesses

/-!
# Live intervals are exactly liveness

A value is live before a position if some path from there comes to a position that reads it, and
passes none that writes it (`Func.LiveBefore`). The equations of the blocks have that as their
solution (`Func.flowLive_iff`), and the scan turns it into slots: in a block, the interval of a
value covers the slots behind its definition, or all slots if it is live into the block, as far as
its last reading, or to the end if it is live out of the block (`Func.liveIntervals_exact`).
-/

namespace SsaBackend

open Segment

/-- A position at which a register holds a value, by its number in the block. -/
lemma heldAt_iff {r : VirtReg} {out : Prop} {pos slot : Nat} {points : List Point} :
    HeldAt r out pos points slot ↔ ∃ k p, points[k]? = some p ∧ slot / 4 = pos + k ∧
      (slot % 4 < 2 ∧ Needed r out (points.drop k) ∨
        2 ≤ slot % 4 ∧ Needed r out (points.drop (k + 1)) ∨
        slot = defSlot (pos + k) ∧ p.writes = some r) := by
  induction points generalizing pos with
  | nil =>
    unfold HeldAt
    simp
  | cons p rest ih =>
    unfold HeldAt
    rw [ih]
    constructor
    · rintro (⟨hpos, h⟩ | ⟨k, q, hq, hpos, h⟩)
      · exact ⟨0, p, rfl, hpos, h⟩
      · refine ⟨k + 1, q, hq, by omega, ?_⟩
        rw [show pos + (k + 1) = pos + 1 + k by omega]
        exact h
    · rintro ⟨k, q, hq, hpos, h⟩
      cases k with
      | zero =>
        cases hq
        exact .inl ⟨hpos, h⟩
      | succ k =>
        refine .inr ⟨k, q, hq, by omega, ?_⟩
        rw [show pos + (k + 1) = pos + 1 + k by omega] at h
        exact h

namespace Func

/-! ## Liveness along paths -/

/-- The value is live before position `k` of a block: a path from there comes to a position that
reads it, and passes none that writes it. -/
inductive LiveBefore (f : Func) (order : List BlockId) (v : Value) : BlockId → Nat → Prop
  | read {b : BlockId} {k : Nat} (h : f.ReadAt order v b k) : LiveBefore f order v b k
  | pass {b : BlockId} {k : Nat} (hk : k < (f.accesses order b).length)
      (hw : ¬ f.WrittenAt order v b k) (h : LiveBefore f order v b (k + 1)) :
      LiveBefore f order v b k
  | jump {b c : BlockId} {k : Nat} (hk : k = (f.accesses order b).length) (hc : c ∈ f.succs b)
      (h : LiveBefore f order v c 0) : LiveBefore f order v b k

/-- The value is live into a block. -/
def LiveIn (f : Func) (order : List BlockId) (v : Value) (b : BlockId) : Prop :=
  f.LiveBefore order v b 0

/-- The value is live out of a block. -/
def LiveOut (f : Func) (order : List BlockId) (v : Value) (b : BlockId) : Prop :=
  f.LiveBefore order v b (f.accesses order b).length

section

variable {f : Func} {order : List BlockId} {v : Value} {b : BlockId} {k : Nat}

lemma ReadAt.lt (h : f.ReadAt order v b k) : k < (f.accesses order b).length := by
  obtain ⟨a, ha, -⟩ := h
  exact (List.getElem?_eq_some_iff.1 ha).1

lemma WrittenAt.lt (h : f.WrittenAt order v b k) : k < (f.accesses order b).length := by
  obtain ⟨a, ha, -⟩ := h
  exact (List.getElem?_eq_some_iff.1 ha).1

lemma liveOut_iff : f.LiveOut order v b ↔ ∃ c ∈ f.succs b, f.LiveIn order v c := by
  constructor
  · intro h
    cases h with
    | read h => exact absurd h.lt (Nat.lt_irrefl _)
    | pass hk => exact absurd hk (Nat.lt_irrefl _)
    | jump _ hc h => exact ⟨_, hc, h⟩
  · rintro ⟨c, hc, h⟩
    exact .jump rfl hc h

lemma liveBefore_step (hk : k < (f.accesses order b).length) : f.LiveBefore order v b k ↔
    f.ReadAt order v b k ∨ ¬ f.WrittenAt order v b k ∧ f.LiveBefore order v b (k + 1) := by
  constructor
  · intro h
    cases h with
    | read h => exact .inl h
    | pass _ hw h => exact .inr ⟨hw, h⟩
    | jump he => omega
  · rintro (h | ⟨hw, h⟩)
    · exact .read h
    · exact .pass hk hw h

/-- What is live before a position is read behind it, or live out of the block. -/
lemma LiveBefore.later (h : f.LiveBefore order v b k) :
    f.LiveOut order v b ∨ ∃ l, k ≤ l ∧ f.ReadAt order v b l := by
  induction h with
  | read h => exact .inr ⟨_, Nat.le_refl _, h⟩
  | pass _ _ _ ih => exact ih.imp_right fun ⟨l, hl, hread⟩ => ⟨l, by omega, hread⟩
  | jump _ hc h => exact .inl (.jump rfl hc h)

/-- What is live before a position is written in front of it, or live into the block. -/
lemma LiveBefore.earlier (h : f.LiveBefore order v b k) (hk : k ≤ (f.accesses order b).length) :
    f.LiveIn order v b ∨ ∃ l, l < k ∧ f.WrittenAt order v b l := by
  induction k with
  | zero => exact .inl h
  | succ k ih =>
    by_cases hw : f.WrittenAt order v b k
    · exact .inr ⟨k, Nat.lt_succ_self k, hw⟩
    · exact (ih (.pass hk hw h) (by omega)).imp_right fun ⟨l, hl, hw⟩ => ⟨l, by omega, hw⟩

/-- What is read behind a position or live out of the block, and not written from the position
on, is live before it. -/
lemma liveBefore_of (hk : k ≤ (f.accesses order b).length)
    (hw : ∀ l, k ≤ l → ¬ f.WrittenAt order v b l)
    (h : f.LiveOut order v b ∨ ∃ l, k ≤ l ∧ f.ReadAt order v b l) : f.LiveBefore order v b k := by
  obtain ⟨d, hd⟩ := Nat.exists_eq_add_of_le hk
  induction d generalizing k with
  | zero =>
    rcases h with h | ⟨l, hl, hread⟩
    · rw [Nat.add_zero] at hd
      exact hd ▸ h
    · have := hread.lt
      omega
  | succ d ih =>
    by_cases hread : f.ReadAt order v b k
    · exact .read hread
    · refine .pass (by omega) (hw k (Nat.le_refl k)) (ih (by omega) ?_ ?_ (by omega))
      · intro l hl
        exact hw l (by omega)
      · refine h.imp_right fun ⟨l, hl, hl'⟩ => ⟨l, ?_, hl'⟩
        rcases Nat.lt_or_eq_of_le hl with hlt | rfl
        · exact hlt
        · exact absurd hl' hread

section

variable (hv : f.Verified) (ho : f.LaidOut order) (hr : f.ReadsInOrder) (hb : b ∈ order)

include hv ho hr hb

/-- A value that is live before a position was written in front of it if the block writes it. -/
lemma LiveBefore.after_write {w : Nat} (h : f.LiveBefore order v b k)
    (hw : f.WrittenAt order v b w) : w < k := by
  induction h with
  | read h => exact written_before_read hv ho hr hb hw h
  | pass _ hnot _ ih =>
    have := ih hb hw
    rcases Nat.lt_or_eq_of_le (Nat.le_of_lt_succ this) with hlt | rfl
    · exact hlt
    · exact absurd hw hnot
  | jump he =>
    rw [he]
    exact hw.lt

/-- The slots from which on a value is there and up to which it is needed are those at which it
is live, and the one at which it is written. -/
lemma liveBefore_iff (hk : k ≤ (f.accesses order b).length) : f.LiveBefore order v b k ↔
    (f.LiveIn order v b ∨ ∃ l, l < k ∧ f.WrittenAt order v b l) ∧
      (f.LiveOut order v b ∨ ∃ l, k ≤ l ∧ f.ReadAt order v b l) := by
  constructor
  · intro h
    exact ⟨h.earlier hk, h.later⟩
  · rintro ⟨hfrom, hto⟩
    refine liveBefore_of hk ?_ hto
    intro l hl hw
    rcases hfrom with hin | ⟨m, hm, hw'⟩
    · have := hin.after_write hv ho hr hb hw
      omega
    · have := writtenAt_unique hv ho hr hb hw hw'
      omega

end

end

/-! ## Registers and values -/

section

variable {f : Func} {order : List BlockId} {v : Value} {r : VirtReg}
  (hreg : (f.newRegisters order).regOf? v = some r)

include hreg

lemma mem_reads_pointOf {a : Access} :
    r ∈ (pointOf (f.newRegisters order) a).reads ↔ v ∈ a.reads := by
  refine mem_regsOf.trans ⟨?_, fun h => ⟨v, h, hreg⟩⟩
  rintro ⟨w, hw, hwr⟩
  exact (f.numbered_newRegisters order).regOf_inj hreg hwr ▸ hw

lemma writes_pointOf {a : Access} :
    (pointOf (f.newRegisters order) a).writes = some r ↔ a.writes = some v := by
  refine Option.bind_eq_some_iff.trans ⟨?_, fun h => ⟨v, h, hreg⟩⟩
  rintro ⟨w, hw, hwr⟩
  exact (f.numbered_newRegisters order).regOf_inj hreg hwr ▸ hw

/-- The points of a block read the register where the block reads the value. -/
lemma readAt_iff {b : BlockId} {k : Nat} :
    (∃ p, ((f.accesses order b).map (pointOf (f.newRegisters order)))[k]? = some p ∧ r ∈ p.reads) ↔
      f.ReadAt order v b k := by
  simp only [List.getElem?_map, Option.map_eq_some_iff]
  constructor
  · rintro ⟨_, ⟨a, ha, rfl⟩, hmem⟩
    exact ⟨a, ha, (mem_reads_pointOf hreg).1 hmem⟩
  · rintro ⟨a, ha, hmem⟩
    exact ⟨_, ⟨a, ha, rfl⟩, (mem_reads_pointOf hreg).2 hmem⟩

/-- They write the register where the block writes the value. -/
lemma writtenAt_iff {b : BlockId} {k : Nat} :
    (∃ p, ((f.accesses order b).map (pointOf (f.newRegisters order)))[k]? = some p ∧
      p.writes = some r) ↔ f.WrittenAt order v b k := by
  simp only [List.getElem?_map, Option.map_eq_some_iff]
  constructor
  · rintro ⟨_, ⟨a, ha, rfl⟩, hw⟩
    exact ⟨a, ha, (writes_pointOf hreg).1 hw⟩
  · rintro ⟨a, ha, hw⟩
    exact ⟨_, ⟨a, ha, rfl⟩, (writes_pointOf hreg).2 hw⟩

/-- A register is needed before a position if its value is live there. -/
lemma needed_iff {b : BlockId} {k : Nat} (hk : k ≤ (f.accesses order b).length) :
    Needed r (f.LiveOut order v b)
        (((f.accesses order b).map (pointOf (f.newRegisters order))).drop k) ↔
      f.LiveBefore order v b k := by
  obtain ⟨d, hd⟩ := Nat.exists_eq_add_of_le hk
  induction d generalizing k with
  | zero =>
    rw [List.drop_eq_nil_of_le (by rw [List.length_map]; omega)]
    show f.LiveOut order v b ↔ _
    unfold LiveOut
    rw [hd, Nat.add_zero]
  | succ d ih =>
    have hlt : k < (f.accesses order b).length := by omega
    rw [← List.map_drop, List.drop_eq_getElem_cons hlt, List.map_cons, List.map_drop]
    have hread : f.ReadAt order v b k ↔ v ∈ ((f.accesses order b)[k]).reads := by
      unfold ReadAt
      rw [List.getElem?_eq_getElem hlt]
      simp
    have hwrite : f.WrittenAt order v b k ↔ ((f.accesses order b)[k]).writes = some v := by
      unfold WrittenAt
      rw [List.getElem?_eq_getElem hlt]
      simp
    rw [liveBefore_step hlt, ← ih (by omega) (by omega), hread, hwrite,
      ← mem_reads_pointOf hreg, ← writes_pointOf hreg]
    exact Iff.rfl

end

/-! ## The equations -/

section

variable {f : Func} {order : List BlockId} {v : Value} {r : VirtReg}
  (hreg : (f.newRegisters order).regOf? v = some r)
  (hv : f.Verified) (ho : f.LaidOut order) (hr : f.ReadsInOrder) (loops : LoopForest)

/-- The equations of a block. -/
def blockFlow (f : Func) (loops : LoopForest) (order : List BlockId) (b : BlockId) : FlowBlock :=
  FlowBlock.ofLayout f (f.newRegisters order).size (f.layoutIn loops order)
    (f.blockLayout loops order b)

/-- The registers of an access exist. -/
lemma over_pointOf (f : Func) (order : List BlockId) (a : Access) :
    (pointOf (f.newRegisters order) a).Over (f.newRegisters order).size := by
  have hnum := f.numbered_newRegisters order
  refine ⟨fun r hr => over_regsOf hnum hr, nodup_regsOf .., ?_⟩
  intro r hr
  obtain ⟨w, -, hwr⟩ := Option.bind_eq_some_iff.1 hr
  exact hnum.lt_size hwr

include hreg

omit hreg in
variable (f order) in
/-- The registers of the points of a block exist. -/
lemma over_blockLayout (b : BlockId) :
    (f.blockLayout loops order b).Over (f.newRegisters order).size := by
  refine .of_points fun p hp => ?_
  obtain ⟨a, -, rfl⟩ := List.mem_map.1 hp
  exact f.over_pointOf order a

lemma writes_blockFlow (b : BlockId) : (f.blockFlow loops order b).writes.bit r.index = true ↔
    ∃ k, f.WrittenAt order v b k := by
  refine (FlowBlock.bit_writes_ofLayout (over_blockLayout f order loops b) r).trans ?_
  simp only [← writtenAt_iff hreg]
  refine BlockLayout.mem_written.trans ⟨?_, ?_⟩
  · rintro ⟨p, hp, hw⟩
    obtain ⟨k, hk⟩ := List.mem_iff_getElem?.1 hp
    exact ⟨k, p, hk, hw⟩
  · rintro ⟨k, p, hk, hw⟩
    exact ⟨p, List.mem_of_getElem? hk, hw⟩

lemma needs_blockFlow (b : BlockId) : (f.blockFlow loops order b).needs.bit r.index = true ↔
    (∃ k, f.ReadAt order v b k) ∧ ¬ ∃ k, f.WrittenAt order v b k := by
  have hover := over_blockLayout f order loops b
  refine (FlowBlock.bit_needs_ofLayout hover r).trans (and_congr ?_ (not_congr ?_))
  · simp only [← readAt_iff hreg]
    refine BlockLayout.mem_read.trans ⟨?_, ?_⟩
    · rintro ⟨p, hp, hmem⟩
      obtain ⟨k, hk⟩ := List.mem_iff_getElem?.1 hp
      exact ⟨k, p, hk, hmem⟩
    · rintro ⟨k, p, hk, hmem⟩
      exact ⟨p, List.mem_of_getElem? hk, hmem⟩
  · exact (FlowBlock.bit_writes_ofLayout hover r).symm.trans (writes_blockFlow hreg loops b)

omit hreg

include hv ho hr

lemma getElem?_flowIn (j : Nat) :
    (f.flowIn loops order)[j]? = order[j]?.map (f.blockFlow loops order) := by
  unfold flowIn
  rw [List.getElem?_map]
  nth_rewrite 2 [layout_eq hv ho hr loops]
  rw [List.getElem?_map, Option.map_map]
  rfl

lemma mem_succs_blockFlow {b : BlockId} {j : Nat} : j ∈ (f.blockFlow loops order b).succs ↔
    ∃ c ∈ f.succs b, order[j]? = some c := by
  have hblocks : (f.layoutIn loops order).map (·.block) = order := by
    rw [layout_eq hv ho hr loops, List.map_map]
    exact List.map_id _
  refine (FlowBlock.mem_succs_ofLayout (hblocks.symm ▸ ho.once)).trans ?_
  rw [layout_eq hv ho hr loops, List.getElem?_map]
  constructor
  · rintro ⟨c, hc, hsucc⟩
    obtain ⟨d, hd, rfl⟩ := Option.map_eq_some_iff.1 hc
    exact ⟨d, hsucc, hd⟩
  · rintro ⟨c, hsucc, hc⟩
    exact ⟨f.blockLayout loops order c, by rw [hc]; rfl, hsucc⟩

include hreg

/-- The equations have liveness along paths as their solution. -/
lemma flowLive_iff {j : Nat} {b : BlockId} (hj : order[j]? = some b) :
    FlowLive (f.flowIn loops order) r.index j ↔ f.LiveIn order v b := by
  have hflow := fun j => f.getElem?_flowIn hv ho hr loops j
  constructor
  · intro h
    induction h generalizing b with
    | needs hb hneeds =>
      rw [hflow, hj] at hb
      cases hb
      obtain ⟨⟨k, hk⟩, hw⟩ := (needs_blockFlow hreg loops b).1 hneeds
      exact liveBefore_of (Nat.zero_le _) (fun l _ hl => hw ⟨l, hl⟩) (.inr ⟨k, Nat.zero_le k, hk⟩)
    | passes hb hw hs _ ih =>
      rw [hflow, hj] at hb
      cases hb
      obtain ⟨c, hc, hs⟩ := (mem_succs_blockFlow hv ho hr loops).1 hs
      rw [← Bool.not_eq_true, writes_blockFlow hreg] at hw
      exact liveBefore_of (Nat.zero_le _) (fun l _ hl => hw ⟨l, hl⟩) (.inl (.jump rfl hc (ih hs)))
  · -- nothing in front of the position writes the value, so nothing in the block does
    suffices hgo : ∀ b k, f.LiveBefore order v b k → ∀ j, order[j]? = some b →
        (∀ l, l < k → ¬ f.WrittenAt order v b l) → FlowLive (f.flowIn loops order) r.index j from
      fun h => hgo b 0 h j hj fun l hl => absurd hl (Nat.not_lt_zero l)
    intro b k h
    induction h with
    | @read b k hread =>
      intro j hj hw
      refine .needs (by rw [hflow, hj]; rfl) ((needs_blockFlow hreg loops b).2 ⟨⟨k, hread⟩, ?_⟩)
      rintro ⟨l, hl⟩
      exact hw l (written_before_read hv ho hr (List.mem_of_getElem? hj) hl hread) hl
    | @pass b k _ hnot _ ih =>
      intro j hj hw
      refine ih j hj fun l hl hl' => ?_
      rcases Nat.lt_or_eq_of_le (Nat.le_of_lt_succ hl) with hlt | rfl
      · exact hw l hlt hl'
      · exact hnot hl'
    | @jump b c k hk hc _ ih =>
      intro j hj hw
      have hreach := ((ho.reached b).1 (List.mem_of_getElem? hj)).step (edge_iff.2 hc)
      obtain ⟨j', hj'⟩ := List.mem_iff_getElem?.1 ((ho.reached c).2 hreach)
      refine .passes (by rw [hflow, hj]; rfl) ?_
        ((mem_succs_blockFlow hv ho hr loops).2 ⟨c, hc, hj'⟩)
        (ih j' hj' fun l hl => absurd hl (Nat.not_lt_zero l))
      rw [← Bool.not_eq_true, writes_blockFlow hreg]
      rintro ⟨l, hl⟩
      exact hw l (hk ▸ hl.lt) hl

/-- The registers that are found live out of a block hold the values that are. -/
lemma bit_liveOutIn {b : BlockId} (hb : b ∈ order) :
    (f.liveOutIn loops order (f.blockLayout loops order b)).bit r.index = true ↔
      f.LiveOut order v b := by
  have hover := f.over_flowIn loops order
  refine (FlowBlock.bit_liveOut (grown_solveLiveIn hover).inRange _ _).trans ?_
  rw [liveOut_iff]
  simp only [bit_solveLiveIn hover]
  show (∃ s ∈ (f.blockFlow loops order b).succs, _) ↔ _
  constructor
  · rintro ⟨j, hj, h⟩
    obtain ⟨c, hc, hj⟩ := (mem_succs_blockFlow hv ho hr loops).1 hj
    exact ⟨c, hc, (flowLive_iff hreg hv ho hr loops hj).1 h⟩
  · rintro ⟨c, hc, h⟩
    have hreach := ((ho.reached b).1 hb).step (edge_iff.2 hc)
    obtain ⟨j, hj⟩ := List.mem_iff_getElem?.1 ((ho.reached c).2 hreach)
    exact ⟨j, (mem_succs_blockFlow hv ho hr loops).2 ⟨c, hc, hj⟩,
      (flowLive_iff hreg hv ho hr loops hj).2 h⟩

end

/-! ## Intervals -/

/-- The interval tells where the value is live, where it is defined and where it is used. -/
structure Tells (f : Func) (order : List BlockId) (v : Value) (li : Interval) : Prop where
  /-- In each block, a slot is covered if the value is there from the start or was defined at a
  slot before, and it is needed behind the block or used at a slot behind, or defined here. -/
  covers : ∀ b ∈ order, ∀ slot, f.startOf order b * 4 ≤ slot →
    slot < (f.startOf order b + (f.accesses order b).length) * 4 →
    (li.covers slot = true ↔
      (f.LiveIn order v b ∨
        ∃ k, f.WrittenAt order v b k ∧ defSlot (f.startOf order b + k) ≤ slot) ∧
      (f.LiveOut order v b ∨
        (∃ k, f.ReadAt order v b k ∧ slot ≤ useSlot (f.startOf order b + k)) ∨
        ∃ k, f.WrittenAt order v b k ∧ slot = defSlot (f.startOf order b + k)))
  /-- No slot outside the blocks is covered. -/
  inside : ∀ slot, li.covers slot = true → ∃ b ∈ order, f.startOf order b * 4 ≤ slot ∧
    slot < (f.startOf order b + (f.accesses order b).length) * 4
  /-- It is defined at one place. -/
  defined : ∃ b ∈ order, ∃ k, f.WrittenAt order v b k ∧
    li.defAt = some (defSlot (f.startOf order b + k)) ∧
    ∀ c ∈ order, ∀ l, f.WrittenAt order v c l → c = b ∧ l = k
  used : ∀ u, u ∈ li.usedAt ↔
    ∃ b ∈ order, ∃ k, f.ReadAt order v b k ∧ u = useSlot (f.startOf order b + k)

section

variable {f : Func} {order : List BlockId} {v : Value} {r : VirtReg}
  (hreg : (f.newRegisters order).regOf? v = some r)
  (hv : f.Verified) (ho : f.LaidOut order) (hr : f.ReadsInOrder) (loops : LoopForest)

include hreg

/-- A register is found to hold a value at a slot if it is live before the first position that reads
behind the slot, or is written at the slot. -/
lemma heldAt_iff_liveBefore {b : BlockId} {slot k m : Nat}
    (hslot : slot / 4 = f.startOf order b + k) (hk : k < (f.accesses order b).length)
    (hm : m = if slot % 4 < 2 then k else k + 1) :
    HeldAt r (f.LiveOut order v b) (f.startOf order b)
        ((f.accesses order b).map (pointOf (f.newRegisters order))) slot ↔
      f.LiveBefore order v b m ∨
        ∃ l, f.WrittenAt order v b l ∧ slot = defSlot (f.startOf order b + l) := by
  rw [heldAt_iff]
  constructor
  · rintro ⟨l, p, hp, hl, h⟩
    have hlk : l = k := by omega
    subst hlk
    rw [needed_iff hreg (by omega), needed_iff hreg (by omega)] at h
    rcases h with ⟨hlt, h⟩ | ⟨hge, h⟩ | ⟨he, hw⟩
    · rw [if_pos hlt] at hm
      exact .inl (hm ▸ h)
    · rw [if_neg (by omega)] at hm
      exact .inl (hm ▸ h)
    · exact .inr ⟨l, (writtenAt_iff hreg).1 ⟨p, hp, hw⟩, he⟩
  · rintro (h | ⟨l, hw, he⟩)
    · obtain ⟨p, hp⟩ : ∃ p, ((f.accesses order b).map (pointOf (f.newRegisters order)))[k]? =
          some p := ⟨_, List.getElem?_eq_getElem (by rw [List.length_map]; exact hk)⟩
      refine ⟨k, p, hp, hslot, ?_⟩
      rw [needed_iff hreg (by omega), needed_iff hreg (by omega)]
      split at hm
      · exact .inl ⟨by assumption, hm ▸ h⟩
      · exact .inr (.inl ⟨by omega, hm ▸ h⟩)
    · obtain ⟨p, hp, hpw⟩ := (writtenAt_iff hreg).2 hw
      refine ⟨l, p, hp, ?_, .inr (.inr ⟨he, hpw⟩)⟩
      unfold defSlot at he
      omega

include hv ho hr

/-- The slots of a block at which a register is found to hold a value. -/
lemma heldAt_block {b : BlockId} (hb : b ∈ order) {slot k : Nat}
    (hslot : slot / 4 = f.startOf order b + k) (hk : k < (f.accesses order b).length) :
    HeldAt r (f.LiveOut order v b) (f.startOf order b)
        ((f.accesses order b).map (pointOf (f.newRegisters order))) slot ↔
      (f.LiveIn order v b ∨
        ∃ l, f.WrittenAt order v b l ∧ defSlot (f.startOf order b + l) ≤ slot) ∧
      (f.LiveOut order v b ∨
        (∃ l, f.ReadAt order v b l ∧ slot ≤ useSlot (f.startOf order b + l)) ∨
        ∃ l, f.WrittenAt order v b l ∧ slot = defSlot (f.startOf order b + l)) := by
  obtain ⟨m, hm⟩ : ∃ m, m = if slot % 4 < 2 then k else k + 1 := ⟨_, rfl⟩
  have hmk : m ≤ (f.accesses order b).length := by
    split at hm <;> omega
  have hdef : ∀ l, defSlot (f.startOf order b + l) ≤ slot ↔ l < m := by
    intro l
    unfold defSlot
    split at hm <;> omega
  have huse : ∀ l, slot ≤ useSlot (f.startOf order b + l) ↔ m ≤ l := by
    intro l
    unfold useSlot
    split at hm <;> omega
  rw [heldAt_iff_liveBefore hreg hslot hk hm, liveBefore_iff hv ho hr hb hmk]
  simp only [hdef, huse, and_comm (b := _ < m), and_comm (b := m ≤ _)]
  constructor
  · rintro (⟨hfrom, hto⟩ | ⟨l, hw, he⟩)
    · exact ⟨hfrom, hto.imp_right .inl⟩
    · exact ⟨.inr ⟨l, (hdef l).1 (Nat.le_of_eq he.symm), hw⟩, .inr (.inr ⟨l, hw, he⟩)⟩
  · rintro ⟨hfrom, hto | hto | hto⟩
    · exact .inl ⟨hfrom, .inl hto⟩
    · exact .inl ⟨hfrom, .inr hto⟩
    · exact .inr hto

omit hreg hv ho hr in
/-- The slots at which a register holds a value in a block are slots of the block. -/
lemma inside_of_heldAt {out : Prop} {b : BlockId} {slot : Nat}
    (h : HeldAt r out (f.startOf order b)
      ((f.accesses order b).map (pointOf (f.newRegisters order))) slot) :
    f.startOf order b ≤ slot / 4 ∧ slot / 4 < f.startOf order b + (f.accesses order b).length := by
  obtain ⟨k, p, hp, hpos, -⟩ := heldAt_iff.1 h
  have hlt := (List.getElem?_eq_some_iff.1 hp).1
  rw [List.length_map] at hlt
  omega

/-! ### What the scan made of the interval -/

section Scan

variable {loops} {li : Interval}
  (hscan : Scanned r
    (order.map fun b => (f.blockLayout loops order b,
      f.liveOutIn loops order (f.blockLayout loops order b))) { reg := r } li)

include hscan

/-- A slot is covered in the block that it belongs to. -/
lemma liveAt_scanned (slot : Nat) : LiveAt li.segments slot ↔
    ∃ b ∈ order, HeldAt r (f.LiveOut order v b) (f.startOf order b)
      ((f.accesses order b).map (pointOf (f.newRegisters order))) slot := by
  have hout : ∀ b ∈ order, ((f.liveOutIn loops order (f.blockLayout loops order b)).bit r.index =
      true) = f.LiveOut order v b :=
    fun b hb => propext (bit_liveOutIn hreg hv ho hr loops hb)
  rw [hscan.slots, or_iff_right (by rintro ⟨_, hmem, -⟩; cases hmem)]
  constructor
  · rintro ⟨e, he, h⟩
    obtain ⟨b, hb, rfl⟩ := List.mem_map.1 he
    exact ⟨b, hb, hout b hb ▸ h⟩
  · rintro ⟨b, hb, h⟩
    exact ⟨_, List.mem_map_of_mem hb, (hout b hb).symm ▸ h⟩

/-- A value is defined where it is written, and it is written once. -/
lemma defined_scanned : ∃ b ∈ order, ∃ k, f.WrittenAt order v b k ∧
    li.defAt = some (defSlot (f.startOf order b + k)) ∧
    ∀ c ∈ order, ∀ l, f.WrittenAt order v c l → c = b ∧ l = k := by
  obtain ⟨b, hb, k, hk⟩ := exists_writtenAt hv ho (registered_of_regOf hv ho hreg)
  rcases hscan.defs with ⟨-, hnone⟩ | ⟨e, he, pos, ⟨l, p, hp, hw, rfl⟩, hdef⟩
  · obtain ⟨p, hp, hw⟩ := (writtenAt_iff hreg).2 hk
    exact absurd ⟨k, p, hp, hw, rfl⟩
      (hnone _ (List.mem_map.2 ⟨b, hb, rfl⟩) (f.startOf order b + k))
  · obtain ⟨c, hc, rfl⟩ := List.mem_map.1 he
    have hl := (writtenAt_iff hreg).1 ⟨p, hp, hw⟩
    refine ⟨c, hc, l, hl, hdef, ?_⟩
    intro d _ m hm
    have hdc := writtenAt_block hv hm hl
    subst hdc
    exact ⟨rfl, writtenAt_unique hv ho hr hc hm hl⟩

omit hv ho hr in
lemma used_scanned (u : Nat) : u ∈ li.usedAt ↔
    ∃ b ∈ order, ∃ k, f.ReadAt order v b k ∧ u = useSlot (f.startOf order b + k) := by
  rw [hscan.uses]
  constructor
  · rintro (hu | ⟨e, he, pos, ⟨k, p, hp, hmem, rfl⟩, rfl⟩)
    · cases hu
    · obtain ⟨b, hb, rfl⟩ := List.mem_map.1 he
      exact ⟨b, hb, k, (readAt_iff hreg).1 ⟨p, hp, hmem⟩, rfl⟩
  · rintro ⟨b, hb, k, hk, rfl⟩
    obtain ⟨p, hp, hmem⟩ := (readAt_iff hreg).2 hk
    exact .inr ⟨_, List.mem_map_of_mem hb, _, ⟨k, p, hp, hmem, rfl⟩, rfl⟩

end Scan

/-- The interval of a register tells of its value. -/
lemma tells_intervalsIn :
    ∃ li, (f.intervalsIn loops order).get? r = some li ∧ f.Tells order v li := by
  obtain ⟨li, w, hget, -, hscan⟩ :=
    f.get?_intervalsIn loops order ((f.numbered_newRegisters order).lt_size hreg)
  rw [layout_eq hv ho hr, List.map_map] at hscan
  have hcovers : ∀ slot, ({ li with weight := w } : Interval).covers slot = true ↔
      ∃ b ∈ order, HeldAt r (f.LiveOut order v b) (f.startOf order b)
        ((f.accesses order b).map (pointOf (f.newRegisters order))) slot := fun slot =>
    (Interval.covers_iff hscan.separated slot).trans (liveAt_scanned hreg hv ho hr hscan slot)
  have hdefined := defined_scanned hreg hv ho hr hscan
  have hused := used_scanned hreg hscan
  refine ⟨_, hget, ?_, ?_, hdefined, hused⟩
  · intro b hb slot hlo hhi
    rw [hcovers,
      ← heldAt_block hreg hv ho hr hb (k := slot / 4 - f.startOf order b) (by omega) (by omega)]
    refine ⟨?_, fun h => ⟨b, hb, h⟩⟩
    rintro ⟨c, hc, h⟩
    -- the slots of another block are elsewhere
    have hcb : c = b := by
      by_contra hne
      have := startOf_apart ho hc hb hne
      have := inside_of_heldAt h
      omega
    exact hcb ▸ h
  · intro slot h
    obtain ⟨b, hb, h⟩ := (hcovers slot).1 h
    have := inside_of_heldAt h
    exact ⟨b, hb, by omega, by omega⟩

end

/-- Two values are defined at different slots. -/
lemma Tells.defAt_inj {f : Func} {order : List BlockId} (ho : f.LaidOut order) {v w : Value}
    {li lw : Interval} (hv : f.Tells order v li) (hw : f.Tells order w lw)
    (h : li.defAt = lw.defAt) : v = w := by
  obtain ⟨b, hb, k, hk, hdef, -⟩ := hv.defined
  obtain ⟨c, hc, l, hl, hdef', -⟩ := hw.defined
  rw [hdef, hdef', Option.some.injEq] at h
  unfold defSlot at h
  have hkb := hk.lt
  have hlc := hl.lt
  have hbc : b = c := by
    by_contra hne
    have := startOf_apart ho hb hc hne
    omega
  subst hbc
  have hkl : k = l := by omega
  subst hkl
  obtain ⟨a, ha, hwrites⟩ := hk
  obtain ⟨a', ha', hwrites'⟩ := hl
  rw [ha] at ha'
  cases ha'
  rw [hwrites] at hwrites'
  exact Option.some.inj hwrites'

/-- The order in which the blocks are laid out. -/
def blockOrder (f : Func) : List BlockId := (f.cfg.reversePostorder f.entry.index).map BlockId.mk

lemma Verified.laidOut {f : Func} (hv : f.Verified) : f.LaidOut f.blockOrder := by
  have hg := hv.consistent
  obtain ⟨hnodup, hmem⟩ := Digraph.reversePostorder_lists hg hg.entry_lt
  refine ⟨hnodup.map fun _ _ h => BlockId.mk.inj h, fun b => ?_⟩
  unfold blockOrder
  rw [List.mem_map]
  constructor
  · rintro ⟨n, hn, rfl⟩
    exact (hmem n).1 hn
  · intro h
    exact ⟨b.index, (hmem b.index).2 h, rfl⟩

/-- The live intervals of a function that passes the checks, and in which no block that is reached
reads a result of its own before it is there, are exactly liveness. Blocks that are reached are
laid out, each of them once. There is one register for each argument and for each result of
theirs, and none besides. The interval of a register tells where its value is live, defined and
used, and no two values are defined at one slot. -/
theorem liveIntervals_exact {f : Func} (hverify : f.verify = .ok ()) (hreads : f.ReadsInOrder)
    (loops : LoopForest) :
    f.LaidOut f.blockOrder ∧ ∃ ivs, f.liveIntervals loops = .ok ivs ∧
      (∀ r v, ivs.valueOf? r = some v ↔ ivs.regOf? v = some r) ∧
      (∀ r : VirtReg, r.index < ivs.size ↔ ∃ v, ivs.valueOf? r = some v) ∧
      (∀ v, f.Registered v ↔ ∃ r, ivs.regOf? v = some r) ∧
      (∀ v r, ivs.regOf? v = some r → ∃ li, ivs.get? r = some li ∧ f.Tells f.blockOrder v li) ∧
      ∀ v w r q li lq, ivs.regOf? v = some r → ivs.regOf? w = some q → ivs.get? r = some li →
        ivs.get? q = some lq → v ≠ w → li.defAt ≠ lq.defAt := by
  have hv := verified_of_verify hverify
  have ho := hv.laidOut
  have hnum := f.numbered_newRegisters f.blockOrder
  have hnames := f.names_intervalsIn loops f.blockOrder
  have hregOf : ∀ v, (f.intervalsIn loops f.blockOrder).regOf? v =
      (f.newRegisters f.blockOrder).regOf? v := by
    intro v
    unfold Intervals.regOf?
    rw [hnames.holders]
  have hvalueOf : ∀ r, (f.intervalsIn loops f.blockOrder).valueOf? r =
      (f.registerValues f.blockOrder)[r.index]? := by
    intro r
    rw [← hnum.valueOf]
    unfold Intervals.valueOf?
    rw [hnames.values]
  have htells : ∀ v r, (f.intervalsIn loops f.blockOrder).regOf? v = some r →
      ∃ li, (f.intervalsIn loops f.blockOrder).get? r = some li ∧ f.Tells f.blockOrder v li := by
    intro v r hreg
    rw [hregOf] at hreg
    exact tells_intervalsIn hreg hv ho hreads loops
  refine ⟨ho, f.intervalsIn loops f.blockOrder, (exists_liveIntervals hv.consistent loops).2,
    ?_, ?_, ?_, htells, ?_⟩
  · intro r v
    rw [hvalueOf, hregOf]
    exact (hnum.regOf_iff (nodup_registerValues hv ho hreads)).symm
  · intro r
    rw [hnames.size, hnum.size]
    simp only [hvalueOf, List.getElem?_eq_some_iff]
    simp
  · intro v
    rw [← mem_registerValues hv ho]
    simp only [hregOf]
    constructor
    · exact hnum.answers v
    · rintro ⟨r, hr⟩
      exact List.mem_of_getElem? (hnum.regOf v r hr)
  · intro v w r q li lq hr hq hli hlq hne hdef
    obtain ⟨li', hli', ht⟩ := htells v r hr
    obtain ⟨lq', hlq', ht'⟩ := htells w q hq
    cases hli'.symm.trans hli
    cases hlq'.symm.trans hlq
    exact hne (ht.defAt_inj ho ht' hdef)

/-! ## Looking for a result that is read too early -/

/-- Whether the instructions `rest` of a body, which come after `before`, read no result of the
body that is not among those before. -/
def checkReads (f : Func) (body : List InstId) : List InstId → List InstId → Bool
  | _, [] => true
  | before, i :: rest =>
    (f.action i).reads.all (fun v => v.inst?.all fun j => !body.contains j || before.contains j) &&
      f.checkReads body (before ++ [i]) rest

lemma checkReads_spec {f : Func} {body before l first rest : List InstId} {i j : InstId}
    (h : f.checkReads body before l = true) (hsplit : l = first ++ i :: rest)
    (hj : .inst j ∈ (f.action i).reads) (hbody : j ∈ body) : j ∈ before ++ first := by
  induction first generalizing before l with
  | nil =>
    subst hsplit
    rw [List.nil_append, checkReads, Bool.and_eq_true, List.all_eq_true] at h
    have := h.1 _ hj
    simpa [Value.inst?, hbody] using this
  | cons k first ih =>
    subst hsplit
    rw [List.cons_append, checkReads, Bool.and_eq_true] at h
    rw [List.append_cons]
    exact ih h.2 rfl

lemma readsInOrder_of_check {f : Func}
    (h : (f.liveBlocks.all fun e => decide e.2.insts.Nodup && f.checkReads e.2.body [] e.2.body) =
      true) : f.ReadsInOrder := by
  have hall : ∀ b bb, f.block? b = some bb →
      bb.insts.Nodup ∧ f.checkReads bb.body [] bb.body = true := by
    intro b bb hb
    have := List.all_eq_true.1 h (b, bb) (mem_liveBlocks.2 hb)
    rwa [Bool.and_eq_true, decide_eq_true_eq] at this
  refine ⟨fun b bb hb _ => (hall b bb hb).1, ?_⟩
  intro b bb hb _ before i after hsplit p hp j hj hbody
  have hread : .inst j ∈ (f.action i).reads := by
    unfold action
    rw [hp]
    exact hj
  exact checkReads_spec (hall b bb hb).2 hsplit hread hbody

/-- In a loop that hands three values round, the interval of a phi that is read by another phi
only, and behind the loop, tells of it. -/
theorem liveIntervals_rotation : rotation.verify = .ok () ∧ rotation.ReadsInOrder ∧
    ∃ ivs, rotation.liveIntervals (rotation.loopForest rotation.cfg.domTree) = .ok ivs ∧
      ∃ r li, ivs.regOf? (.inst ⟨2⟩) = some r ∧ ivs.get? r = some li ∧
        rotation.Tells rotation.blockOrder (.inst ⟨2⟩) li := by
  have hverify : rotation.verify = .ok () := by decide +kernel
  have hreads : rotation.ReadsInOrder := readsInOrder_of_check (by decide +kernel)
  obtain ⟨-, ivs, hivs, -, -, hregs, htells, -⟩ :=
    liveIntervals_exact hverify hreads (rotation.loopForest rotation.cfg.domTree)
  have hreach : rotation.Reached ⟨1⟩ :=
    Reaches.init.step (edge_iff (b := ⟨0⟩) (s := ⟨1⟩).2 (by decide))
  obtain ⟨r, hr⟩ := (hregs (.inst ⟨2⟩)).1 ⟨⟨1⟩, _, _, hreach, rfl, by decide, rfl, rfl⟩
  obtain ⟨li, hli, ht⟩ := htells _ r hr
  exact ⟨hverify, hreads, ivs, hivs, r, li, hr, hli, ht⟩

end Func

end SsaBackend
