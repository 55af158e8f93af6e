import Mathlib.Data.List.Induction
import SsaBackend.Proofs.Func.Verified
import SsaBackend.Proofs.Graph.Dominators
import SsaBackend.Proofs.Live.Scan
import SsaBackend.Proofs.Live.Solve

/-!
# The registers of a function and their intervals

Every value that gets a register gets the one at its place in the list of such values
(`Numbered`), so that the points of a layout speak of registers that exist. With that, the
interval of a register is what the scan of the blocks makes of an interval that is live nowhere
(`Func.get?_intervalsIn`), and nothing but its slots and its weight has changed.
-/

namespace SsaBackend

open Segment

/-! ## Numbering values -/

/-- The registers answer for the values of a list, the latest register for a value that is listed
more than once, and are live nowhere. -/
structure Numbered (vs : List Value) (ivs : Intervals) : Prop where
  size : ivs.size = vs.length
  fresh : ∀ i, i < vs.length → ivs.get? ⟨i⟩ = some { reg := ⟨i⟩ }
  valueOf : ∀ r, ivs.valueOf? r = vs[r.index]?
  regOf : ∀ v r, ivs.regOf? v = some r → vs[r.index]? = some v
  answers : ∀ v ∈ vs, ∃ r, ivs.regOf? v = some r

lemma Numbered.empty : Numbered [] .empty := by
  refine ⟨rfl, ?_, ?_, ?_, ?_⟩
  · intro i hi
    cases hi
  · intro r
    rfl
  · intro v r hr
    cases hr
  · intro v hv
    cases hv

lemma Numbered.addReg {vs : List Value} {ivs : Intervals} (h : Numbered vs ivs)
    (hvalues : ivs.values.size = vs.length) (v : Value) :
    Numbered (vs ++ [v]) (ivs.addReg (some v)) := by
  have hsize : ivs.intervals.size = vs.length := h.size
  refine ⟨?_, ?_, ?_, ?_, ?_⟩
  · simp [Intervals.size, Intervals.addReg, hsize]
  · intro i hi
    show (ivs.intervals.push _)[i]? = _
    rw [Array.getElem?_push, hsize]
    split
    · rename_i heq
      subst heq
      simp [Intervals.nextReg, h.size]
    · rw [List.length_append, List.length_singleton] at hi
      exact h.fresh i (by omega)
  · intro r
    show ((ivs.values.push (some v))[r.index]?).join = _
    rw [Array.getElem?_push, hvalues, List.getElem?_append]
    by_cases hlt : r.index < vs.length
    · rw [if_neg (by omega), if_pos hlt]
      exact h.valueOf r
    · rw [if_neg hlt]
      by_cases heq : r.index = vs.length
      · simp [heq]
      · rw [if_neg heq, Array.getElem?_eq_none (by omega)]
        rw [List.getElem?_eq_none (by simp; omega)]
        rfl
  · intro w r hr
    change List.lookup w ((v, ivs.nextReg) :: ivs.holders) = some r at hr
    rw [List.lookup_cons] at hr
    split at hr
    · rename_i heq
      cases hr
      rw [beq_iff_eq] at heq
      -- the new register is known by the value it was made for
      subst heq
      simp [Intervals.nextReg, h.size]
    · have := h.regOf w r hr
      rw [List.getElem?_append_left (List.getElem?_eq_some_iff.1 this).1]
      exact this
  · intro w hw
    show ∃ r, List.lookup w ((v, ivs.nextReg) :: ivs.holders) = some r
    rw [List.lookup_cons]
    split
    · exact ⟨_, rfl⟩
    · rename_i hne
      rcases List.mem_append.1 hw with hw | hw
      · exact h.answers w hw
      · rw [List.mem_singleton.1 hw] at hne
        simp at hne

/-- The registers made for the values of a list. -/
lemma numbered_addRegs (vs : List Value) :
    Numbered vs (vs.foldl (fun ivs v => ivs.addReg (some v)) .empty) ∧
      (vs.foldl (fun ivs v => ivs.addReg (some v)) Intervals.empty).values.size = vs.length := by
  induction vs using List.reverseRecOn with
  | nil => exact ⟨Numbered.empty, rfl⟩
  | append_singleton vs v ih =>
    rw [List.foldl_append]
    refine ⟨ih.1.addReg ih.2 v, ?_⟩
    show (Array.push _ _).size = _
    rw [Array.size_push, ih.2, List.length_append, List.length_singleton]

namespace Numbered

variable {vs : List Value} {ivs : Intervals}

lemma lt_size (h : Numbered vs ivs) {v : Value} {r : VirtReg} (hr : ivs.regOf? v = some r) :
    r.index < ivs.size := by
  rw [h.size]
  exact (List.getElem?_eq_some_iff.1 (h.regOf v r hr)).1

/-- Where no value is listed twice, the register of a value is its place. -/
lemma regOf_iff (h : Numbered vs ivs) (hvs : vs.Nodup) {v : Value} {r : VirtReg} :
    ivs.regOf? v = some r ↔ vs[r.index]? = some v := by
  refine ⟨h.regOf v r, fun hv => ?_⟩
  obtain ⟨q, hq⟩ := h.answers v (List.mem_of_getElem? hv)
  have hqv := h.regOf v q hq
  obtain ⟨hi, hv⟩ := List.getElem?_eq_some_iff.1 hv
  obtain ⟨hj, hqv⟩ := List.getElem?_eq_some_iff.1 hqv
  have hidx : q.index = r.index := by
    have hne := List.pairwise_iff_getElem.1 hvs
    by_contra hdiff
    rcases Nat.lt_or_gt_of_ne hdiff with hlt | hlt
    · exact hne _ _ hj hi hlt (hqv.trans hv.symm)
    · exact hne _ _ hi hj hlt (hv.trans hqv.symm)
  rw [hq, VirtReg.index_inj.1 hidx]

/-- Two values with one register are one value. -/
lemma regOf_inj (h : Numbered vs ivs) {v w : Value} {r : VirtReg} (hv : ivs.regOf? v = some r)
    (hw : ivs.regOf? w = some r) : v = w := by
  have := h.regOf v r hv
  rw [h.regOf w r hw] at this
  exact (Option.some.inj this).symm

end Numbered

namespace Func

lemma numbered_newRegisters (f : Func) (order : List BlockId) :
    Numbered (f.registerValues order) (f.newRegisters order) :=
  (numbered_addRegs _).1

/-! ## Points -/

lemma nodup_regsOf (ivs : Intervals) (vs : List Value) : (regsOf ivs vs).Nodup := by
  unfold regsOf
  exact (pairwise_ascending VirtReg.index _).imp fun h he => by
    rw [he] at h
    exact Nat.lt_irrefl _ h

lemma mem_regsOf {ivs : Intervals} {vs : List Value} {r : VirtReg} :
    r ∈ regsOf ivs vs ↔ ∃ v ∈ vs, ivs.regOf? v = some r := by
  unfold regsOf
  rw [mem_ascending fun a b h => VirtReg.index_inj.1 h, List.mem_filterMap]

/-- A laid out block has the points of a block of the function. -/
lemma mem_layoutFrom {f : Func} {ivs : Intervals} {loops : LoopForest} {start : Nat}
    {l : List (BlockId × Block)} {b : BlockLayout} (hb : b ∈ f.layoutFrom ivs loops start l) :
    ∃ e ∈ l, b.block = e.1 ∧ b.points = f.blockPoints ivs e.1 e.2 := by
  induction l generalizing start with
  | nil => cases hb
  | cons e rest ih =>
    rcases List.mem_cons.1 hb with rfl | hb
    · exact ⟨e, List.mem_cons_self .., rfl, rfl⟩
    · obtain ⟨e', he', hblock, hpoints⟩ := ih hb
      exact ⟨e', List.mem_cons_of_mem _ he', hblock, hpoints⟩

/-- A position of a layout belongs to one point: blocks follow each other without gaps. -/
lemma getElem?_points {f : Func} {ivs : Intervals} {loops : LoopForest} {start : Nat}
    {l : List (BlockId × Block)} {b : BlockLayout} (hb : b ∈ f.layoutFrom ivs loops start l)
    {k : Nat} {p : Point} (hp : b.points[k]? = some p) :
    start ≤ b.start ∧ ((f.layoutFrom ivs loops start l).flatMap (·.points))[b.start + k - start]? =
      some p := by
  induction l generalizing start with
  | nil => cases hb
  | cons e rest ih =>
    rw [layoutFrom] at hb ⊢
    rw [List.flatMap_cons]
    rcases List.mem_cons.1 hb with rfl | hb
    · refine ⟨Nat.le_refl _, ?_⟩
      rw [Nat.add_sub_cancel_left, List.getElem?_append_left (List.getElem?_eq_some_iff.1 hp).1]
      exact hp
    · obtain ⟨hle, hget⟩ := ih hb
      unfold BlockLayout.next at hle hget
      simp only at hle hget ⊢
      refine ⟨by omega, ?_⟩
      rw [List.getElem?_append_right (by omega), ← hget]
      congr 1
      omega

section

variable {f : Func} {vs : List Value} {ivs : Intervals} (h : Numbered vs ivs)

include h

lemma over_regsOf {us : List Value} {r : VirtReg} (hr : r ∈ regsOf ivs us) :
    r.index < ivs.size := by
  obtain ⟨v, -, hv⟩ := mem_regsOf.1 hr
  exact h.lt_size hv

/-- The registers of every point of a block exist. -/
lemma over_blockPoints (id : BlockId) (b : Block) :
    ∀ p ∈ f.blockPoints ivs id b, p.Over ivs.size := by
  intro p hp
  unfold blockPoints at hp
  simp only [List.mem_append, List.mem_singleton] at hp
  rcases hp with ((hp | hp) | hp) | rfl
  · unfold leadingPoints at hp
    simp only at hp
    split at hp
    · rw [List.mem_singleton.1 hp]
      exact ⟨by simp, List.Pairwise.nil, by simp⟩
    · obtain ⟨r, hr, rfl⟩ := List.mem_map.1 hp
      obtain ⟨v, -, hv⟩ := List.mem_filterMap.1 hr
      refine ⟨by simp, List.Pairwise.nil, ?_⟩
      intro q hq
      cases hq
      exact h.lt_size hv
  · unfold bodyPoints at hp
    obtain ⟨i, -, hp⟩ := List.mem_filterMap.1 hp
    obtain ⟨pi, -, rfl⟩ := Option.map_eq_some_iff.1 hp
    exact ⟨fun r hr => over_regsOf h hr, nodup_regsOf .., fun r hr => h.lt_size hr⟩
  · unfold copyPoints at hp
    obtain ⟨r, hr, rfl⟩ := List.mem_map.1 hp
    refine ⟨?_, List.pairwise_singleton .., by simp⟩
    intro q hq
    rw [List.mem_singleton.1 hq]
    exact over_regsOf h hr
  · exact ⟨fun r hr => over_regsOf h hr, nodup_regsOf .., by simp [endPoint]⟩

lemma over_layout {loops : LoopForest} {order : List BlockId} {b : BlockLayout}
    (hb : b ∈ f.layout ivs loops order) : ∀ p ∈ b.points, p.Over ivs.size := by
  obtain ⟨e, -, -, hpoints⟩ := mem_layoutFrom hb
  rw [hpoints]
  exact over_blockPoints h e.1 e.2

end

end Func

/-! ## The equations of a block -/

namespace BlockLayout

variable {n : Nat} {b : BlockLayout} {r : VirtReg}

lemma mem_read : r ∈ b.read ↔ ∃ p ∈ b.points, r ∈ p.reads := List.mem_flatMap

lemma mem_written : r ∈ b.written ↔ ∃ p ∈ b.points, p.writes = some r := List.mem_filterMap

/-- The registers that the block reads and writes are among the first `n`. -/
structure Over (n : Nat) (b : BlockLayout) : Prop where
  read : ∀ r ∈ b.read, r.index < n
  written : ∀ r ∈ b.written, r.index < n

instance (n : Nat) (b : BlockLayout) : Decidable (b.Over n) :=
  decidable_of_iff ((∀ r ∈ b.read, r.index < n) ∧ ∀ r ∈ b.written, r.index < n)
    ⟨fun h => ⟨h.1, h.2⟩, fun h => ⟨h.read, h.written⟩⟩

lemma Over.of_points (h : ∀ p ∈ b.points, p.Over n) : b.Over n := by
  refine ⟨fun r hr => ?_, fun r hr => ?_⟩
  · obtain ⟨p, hp, hmem⟩ := mem_read.1 hr
    exact (h p hp).reads r hmem
  · obtain ⟨p, hp, hw⟩ := mem_written.1 hr
    exact (h p hp).writes r hw

end BlockLayout

lemma over_insertAll (n : Nat) (l : List Nat) : ((BitSet.empty n).insertAll l).Over n :=
  (BitSet.Over.empty n).insertAll l

/-- A set of registers that exist, by its members. -/
lemma bit_insertAll_regs {n : Nat} {l : List VirtReg} (hl : ∀ q ∈ l, q.index < n) (r : VirtReg) :
    ((BitSet.empty n).insertAll (l.map (·.index))).bit r.index = true ↔ r ∈ l := by
  rw [(BitSet.Over.empty n).bit_insertAll, BitSet.bit_empty, Bool.false_or, decide_eq_true_iff,
    List.mem_map]
  · constructor
    · rintro ⟨q, hq, he⟩
      exact VirtReg.index_inj.1 he ▸ hq
    · intro h
      exact ⟨r, h, rfl⟩
  · intro i hi
    obtain ⟨q, hq, rfl⟩ := List.mem_map.1 hi
    exact hl q hq

namespace FlowBlock

/-- The equations of a block speak of registers that exist. -/
lemma over_ofLayout (f : Func) (n : Nat) (layout : List BlockLayout) (b : BlockLayout) :
    (ofLayout f n layout b).Over n :=
  ⟨(over_insertAll n _).sdiff (over_insertAll n _), over_insertAll n _⟩

variable {f : Func} {n : Nat} {layout : List BlockLayout} {b : BlockLayout}

/-- The equations have the registers that the block writes. -/
lemma bit_writes_ofLayout (hb : b.Over n) (r : VirtReg) :
    (ofLayout f n layout b).writes.bit r.index = true ↔ r ∈ b.written :=
  bit_insertAll_regs hb.written r

/-- The equations have the registers that the block reads without writing them. -/
lemma bit_needs_ofLayout (hb : b.Over n) (r : VirtReg) :
    (ofLayout f n layout b).needs.bit r.index = true ↔ r ∈ b.read ∧ r ∉ b.written := by
  have hsdiff := (over_insertAll n (b.read.map (·.index))).bit_sdiff
    (over_insertAll n (b.written.map (·.index))) r.index
  refine (Bool.eq_iff_iff.1 hsdiff).trans ?_
  rw [Bool.and_eq_true, bit_insertAll_regs hb.read, Bool.not_eq_true', ← Bool.not_eq_true,
    bit_insertAll_regs hb.written]

/-- Where no block is listed twice, the equations have the places of the successors. -/
lemma mem_succs_ofLayout (hnd : (layout.map (·.block)).Nodup) {j : Nat} :
    j ∈ (ofLayout f n layout b).succs ↔ ∃ c, layout[j]? = some c ∧ c.block ∈ f.succs b.block := by
  refine List.mem_filterMap.trans ?_
  simp only [List.findIdx?_eq_some_iff_getElem, decide_eq_true_eq]
  constructor
  · rintro ⟨_, hc, hj, rfl, -⟩
    exact ⟨layout[j], List.getElem?_eq_getElem hj, hc⟩
  · rintro ⟨c, hj, hc⟩
    obtain ⟨hlt, rfl⟩ := List.getElem?_eq_some_iff.1 hj
    refine ⟨_, hc, hlt, rfl, fun l hl he => ?_⟩
    have hlen : l < layout.length := Nat.lt_trans hl hlt
    exact List.pairwise_iff_getElem.1 hnd l j (by simpa) (by simpa) hl (by simpa using he)

end FlowBlock

/-! ## Weights -/

namespace Weight

lemma infinity_le : infinity.le infinity = true := by decide

/-- A pattern below that of infinity is a number below it. -/
lemma le_infinity_of_lt {bits : Nat} (h : bits < 255 * twoPow 23) :
    (⟨UInt32.ofNat bits⟩ : Weight).le infinity = true := by
  have hpow : twoPow 23 = 8388608 := rfl
  have hbits : (UInt32.ofNat bits).toNat = bits := by
    rw [hpow] at h
    exact UInt32.toNat_ofNat_of_lt (by show bits < 4294967296; omega)
  set w : Weight := ⟨UInt32.ofNat bits⟩ with hw
  have hexp : w.exponent ≤ 254 := by
    show (UInt32.ofNat bits).toNat / twoPow 23 % twoPow 8 ≤ 254
    rw [hbits, hpow, show twoPow 8 = 256 from rfl]
    rw [hpow] at h
    omega
  have hfrac : w.fraction < twoPow 23 := Nat.mod_lt _ (by omega)
  have hneg : w.negative = false := by
    show decide ((UInt32.ofNat bits).toNat / twoPow 31 = 1) = false
    rw [hbits, show twoPow 31 = 2147483648 from rfl, decide_eq_false_iff_not]
    omega
  have hnan : w.isNaN = false := by
    unfold isNaN
    rw [Bool.and_eq_false_iff]
    left
    rw [decide_eq_false_iff_not]
    omega
  have hmag : w.magnitude ≤ infinity.magnitude := by
    have hinf : infinity.magnitude = twoPow 24 * twoPow 253 := by decide
    have hmono : twoPow (w.exponent - 1) ≤ twoPow 253 :=
      Nat.pow_le_pow_right (by omega) (by omega)
    have hone : 1 ≤ twoPow 253 := Nat.one_le_two_pow
    rw [hinf]
    unfold magnitude
    split
    · calc w.fraction ≤ twoPow 24 * 1 := by rw [show twoPow 24 = 16777216 from rfl]; omega
        _ ≤ twoPow 24 * twoPow 253 := Nat.mul_le_mul_left _ hone
    · refine Nat.mul_le_mul ?_ hmono
      rw [show twoPow 24 = 16777216 from rfl]
      omega
  have hinf : infinity.negative = false := by decide
  unfold le units
  rw [hneg, hnan, hinf, show infinity.isNaN = false by decide]
  simpa using hmag

/-- Rounding gives a number that is at most infinite. -/
lemma ofUnits_le_infinity (n d : Nat) : (ofUnits n d).le infinity = true := by
  unfold ofUnits
  simp only
  split
  · rename_i hlt
    exact le_infinity_of_lt hlt
  · exact infinity_le

lemma div_le_infinity (a b : Weight) : (a.div b).le infinity = true := by
  unfold div
  split
  · exact infinity_le
  · exact ofUnits_le_infinity ..

end Weight

namespace Func

variable (f : Func) (loops : LoopForest) (order : List BlockId)

/-! ## Intervals -/

/-- The layout that the intervals are computed from. -/
def layoutIn : List BlockLayout := f.layout (f.newRegisters order) loops order

/-- The equations of its blocks. -/
def flowIn : List FlowBlock :=
  (f.layoutIn loops order).map
    (FlowBlock.ofLayout f (f.newRegisters order).size (f.layoutIn loops order))

/-- The registers that are live out of a block of it. -/
def liveOutIn (b : BlockLayout) : BitSet :=
  (FlowBlock.ofLayout f (f.newRegisters order).size (f.layoutIn loops order) b).liveOut
    (f.newRegisters order).size (solveLiveIn (f.newRegisters order).size (f.flowIn loops order))

/-- The scan that the intervals are read off. -/
def scanIn : LiveScan :=
  ((f.layoutIn loops order).map fun b => (b, f.liveOutIn loops order b)).foldl
    (fun s e => s.block e.1 e.2) (LiveScan.init (f.newRegisters order))

lemma over_flowIn : ∀ b ∈ f.flowIn loops order, b.Over (f.newRegisters order).size := by
  intro b hb
  obtain ⟨l, -, rfl⟩ := List.mem_map.1 hb
  exact FlowBlock.over_ofLayout ..

/-- What the equations of the layout are solved by. -/
lemma solveLiveness_layoutIn :
    f.solveLiveness (f.newRegisters order).size (f.layoutIn loops order) =
      ⟨solveLiveIn (f.newRegisters order).size (f.flowIn loops order),
        ((f.layoutIn loops order).map (f.liveOutIn loops order)).toArray⟩ := by
  refine (solveFlow_eq (f.over_flowIn loops order)).trans ?_
  unfold flowIn
  rw [List.map_map]
  rfl

lemma intervalsIn_eq : f.intervalsIn loops order = (f.scanIn loops order).weighed := by
  have hflow := f.solveLiveness_layoutIn loops order
  unfold intervalsIn scanIn
  dsimp only
  unfold layoutIn at hflow ⊢
  rw [hflow, ← List.map_prod_left_eq_zip]

lemma over_liveOutIn (b : BlockLayout) :
    (f.liveOutIn loops order b).Over (f.newRegisters order).size :=
  FlowBlock.over_liveOut (grown_solveLiveIn (f.over_flowIn loops order)).inRange _

lemma over_init (regs : Intervals) : (LiveScan.init regs).Over regs :=
  ⟨⟨rfl, rfl, rfl⟩, .empty _, by simp [LiveScan.init]⟩

lemma get?_scanIn : (f.scanIn loops order).Over (f.newRegisters order) ∧
    ∀ r : VirtReg, r.index < (f.newRegisters order).size → ∃ li,
      (f.scanIn loops order).intervals.get? r = some li ∧
      Scanned r ((f.layoutIn loops order).map fun b => (b, f.liveOutIn loops order b))
        { reg := r } li := by
  have hnum := f.numbered_newRegisters order
  have hblocks : ∀ e ∈ (f.layoutIn loops order).map fun b => (b, f.liveOutIn loops order b),
      e.2.Over (f.newRegisters order).size ∧
        ∀ p ∈ e.1.points, p.Over (f.newRegisters order).size := by
    intro e he
    obtain ⟨b, hb, rfl⟩ := List.mem_map.1 he
    exact ⟨f.over_liveOutIn loops order b, over_layout hnum hb⟩
  obtain ⟨hover, hget⟩ := LiveScan.get?_blocks (over_init (f.newRegisters order)) hblocks
  refine ⟨hover, fun r hr => ⟨_, ?_, Scanned.blocks Separated.nil _⟩⟩
  refine (hget r hr).trans ?_
  show Option.map _ ((f.newRegisters order).get? r) = _
  rw [show r = ⟨r.index⟩ from rfl, hnum.fresh r.index (hnum.size ▸ hr)]
  rfl

/-- The interval of a register is what the scan of the blocks makes of an interval that is live
nowhere, with a weight that is at most infinite. -/
theorem get?_intervalsIn {r : VirtReg} (hr : r.index < (f.newRegisters order).size) :
    ∃ li w, (f.intervalsIn loops order).get? r = some { li with weight := w } ∧
      w.le .infinity = true ∧
      Scanned r ((f.layoutIn loops order).map fun b => (b, f.liveOutIn loops order b))
        { reg := r } li := by
  obtain ⟨-, hget⟩ := f.get?_scanIn loops order
  obtain ⟨li, hli, hscan⟩ := hget r hr
  refine ⟨li, ((f.scanIn loops order).cost.getD r.index .zero).div
    ((Weight.ofNat li.size).add sizeBias), ?_, Weight.div_le_infinity _ _, hscan⟩
  rw [intervalsIn_eq]
  show (Array.mapIdx _ (f.scanIn loops order).intervals.intervals)[r.index]? = _
  rw [Array.getElem?_mapIdx]
  show Option.map _ ((f.scanIn loops order).intervals.get? r) = _
  rw [hli]
  rfl

/-- The intervals are those of the registers that were made, under their names. -/
lemma names_intervalsIn :
    LiveScan.SameNames (f.newRegisters order) (f.intervalsIn loops order) := by
  obtain ⟨hover, -⟩ := f.get?_scanIn loops order
  rw [intervalsIn_eq]
  refine ⟨?_, hover.names.values, hover.names.holders⟩
  rw [← hover.names.size]
  show (Array.mapIdx _ _).size = _
  rw [Array.size_mapIdx]
  rfl

/-- A function whose edges lead to its blocks has live intervals. -/
lemma exists_liveIntervals {f : Func} (hf : f.cfg.Consistent) (loops : LoopForest) :
    f.reversePostorder f.entry.index = .ok (f.cfg.reversePostorder f.entry.index) ∧
      f.liveIntervals loops =
        .ok (f.intervalsIn loops ((f.cfg.reversePostorder f.entry.index).map BlockId.mk)) := by
  have hok : f.reversePostorder f.entry.index = .ok (f.cfg.reversePostorder f.entry.index) := by
    unfold reversePostorder search
    rw [if_pos (hf.staysInside _)]
  refine ⟨hok, ?_⟩
  unfold liveIntervals
  rw [hok]
  rfl

end Func

/-! ## A loop that hands values round -/

/-- Three values go round in a loop, each to the next phi. -/
def rotation : Func where
  name := "rotation"
  numArgs := 2
  blocks := #[
    some { terminator := some (.jump ⟨1⟩) },
    some { phis := [⟨0⟩, ⟨1⟩, ⟨2⟩], body := [⟨3⟩, ⟨4⟩], preds := [⟨0⟩, ⟨1⟩],
           terminator := some (.branch (.inst ⟨4⟩) ⟨1⟩ ⟨2⟩) },
    some { terminator := some (.ret (some (.inst ⟨2⟩))), preds := [⟨1⟩] }]
  insts := #[
    some ⟨.phi ⟨[⟨⟨0⟩, .arg 0⟩, ⟨⟨1⟩, .inst ⟨1⟩⟩]⟩, ⟨1⟩⟩,
    some ⟨.phi ⟨[⟨⟨0⟩, .arg 1⟩, ⟨⟨1⟩, .inst ⟨2⟩⟩]⟩, ⟨1⟩⟩,
    some ⟨.phi ⟨[⟨⟨0⟩, .int 0⟩, ⟨⟨1⟩, .inst ⟨0⟩⟩]⟩, ⟨1⟩⟩,
    some ⟨.binary .add (.inst ⟨0⟩) (.inst ⟨1⟩), ⟨1⟩⟩,
    some ⟨.compare .slt (.inst ⟨3⟩) (.arg 0), ⟨1⟩⟩]

end SsaBackend
