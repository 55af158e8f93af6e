import Mathlib.Data.List.Dedup
import Mathlib.Data.List.Perm.Subperm
import Mathlib.Tactic.Choose
import SsaBackend.Loop.Detect
import SsaBackend.Proofs.Alloc.Running
import SsaBackend.Proofs.Live.Registers

/-!
# Allocation that succeeds

A register that is stuck is a piece: it begins at a slot at which a register of the start is
written or reloaded, and what stands in its way at every physical register is another piece that
begins at the same slot. All these pieces are of different registers, which the one point at that
slot reads, or writes. So there are no more of them than a point has registers
(`Func.touchers`), and with as many physical registers to choose from, nobody is ever stuck
(`allocate_succeeds`).
-/

namespace SsaBackend

open Segment

/-! ## Width -/

/-- Whether a value is held in a register. -/
def Value.inRegister : Value → Bool
  | .inst _ | .arg _ => true
  | _ => false

/-- The different operands of an instruction that are held in registers. -/
def Inst.registerOperands (i : Inst) : List Value := (i.operands.filter (·.inRegister)).dedup

/-- The largest number of different operands of one instruction that are held in registers. Phis
take their operands at the ends of the predecessors, one at a time, and do not count. -/
def Func.operandWidth (f : Func) : Nat :=
  (((f.liveBlocks.flatMap (·.2.body)).filterMap f.inst?).map
    (·.inst.registerOperands.length)).foldl max 0

/-! ## Who touches a slot -/

namespace Func

variable {f : Func}

lemma inRegister_of_mem_registerValues {order : List BlockId} {v : Value}
    (h : v ∈ f.registerValues order) : v.inRegister = true := by
  unfold registerValues at h
  rcases List.mem_append.1 h with h | h
  · obtain ⟨n, -, rfl⟩ := List.mem_map.1 h
    rfl
  · obtain ⟨i, -, rfl⟩ := List.mem_map.1 h
    rfl

/-- Different registers are asked for by different values that are held in registers. -/
lemma length_regsOf {ivs : Intervals} {order : List BlockId}
    (h : Numbered (f.registerValues order) ivs) (vs : List Value) :
    (regsOf ivs vs).length ≤ (vs.filter (·.inRegister)).dedup.length := by
  have hsub : regsOf ivs vs ⊆ (vs.filter (·.inRegister)).dedup.filterMap ivs.regOf? := by
    intro r hr
    obtain ⟨v, hv, hvr⟩ := mem_regsOf.1 hr
    have hmem := List.mem_of_getElem? (h.regOf v r hvr)
    refine List.mem_filterMap.2 ⟨v, List.mem_dedup.2 (List.mem_filter.2 ⟨hv, ?_⟩), hvr⟩
    exact inRegister_of_mem_registerValues hmem
  exact Nat.le_trans ((nodup_regsOf ivs vs).subperm hsub).length_le
    (List.length_filterMap_le ..)

/-- No point reads more registers than an instruction has operands in registers, or one. -/
lemma length_reads {loops : LoopForest} {order : List BlockId} {b : BlockLayout}
    (hb : b ∈ f.layoutIn loops order) {p : Point} (hp : p ∈ b.points) :
    p.reads.length ≤ max 1 f.operandWidth := by
  have hnum := f.numbered_newRegisters order
  obtain ⟨⟨id, bb⟩, he, -, hpoints⟩ := mem_layoutFrom hb
  obtain ⟨_, -, he⟩ := List.mem_filterMap.1 he
  obtain ⟨bb', hbb, he⟩ := Option.map_eq_some_iff.1 he
  cases he
  rw [hpoints] at hp
  unfold blockPoints at hp
  simp only [List.mem_append, List.mem_singleton] at hp
  rcases hp with ((hp | hp) | hp) | rfl
  · unfold leadingPoints at hp
    simp only at hp
    split at hp
    · rw [List.mem_singleton.1 hp]
      exact Nat.zero_le _
    · obtain ⟨r, -, rfl⟩ := List.mem_map.1 hp
      exact Nat.zero_le _
  · unfold bodyPoints at hp
    obtain ⟨i, hi, hp⟩ := List.mem_filterMap.1 hp
    obtain ⟨pi, hpi, rfl⟩ := Option.map_eq_some_iff.1 hp
    refine Nat.le_trans (length_regsOf hnum _) (Nat.le_trans ?_ (Nat.le_max_right ..))
    refine Target.le_foldl_max (.inl (List.mem_map.2 ⟨pi, ?_, rfl⟩))
    exact List.mem_filterMap.2 ⟨i, List.mem_flatMap.2 ⟨_, mem_liveBlocks.2 hbb, hi⟩, hpi⟩
  · unfold copyPoints at hp
    obtain ⟨r, -, rfl⟩ := List.mem_map.1 hp
    exact Nat.le_max_left ..
  · refine Nat.le_trans (length_regsOf hnum _) (Nat.le_trans ?_ (Nat.le_max_left ..))
    refine Nat.le_trans (List.Sublist.length_le (List.dedup_sublist _)) ?_
    refine Nat.le_trans (List.length_filter_le ..) ?_
    cases bb.terminator with
    | none => simp
    | some t =>
      cases t with
      | jump b => simp [Terminator.operands]
      | branch c b b' => simp [Terminator.operands]
      | ret v => cases v <;> simp [Terminator.operands]

/-- The registers of a function have not been spilled yet. -/
lemma computed_intervalsIn (f : Func) (loops : LoopForest) (order : List BlockId) :
    (f.intervalsIn loops order).Computed := by
  -- every interval is what a scan makes of an empty one, with a weight
  have hall : ∀ r li, (f.intervalsIn loops order).get? r = some li → ∃ li' w,
      li = { li' with weight := w } ∧ w.le .infinity = true ∧
      Scanned r ((f.layoutIn loops order).map fun b => (b, f.liveOutIn loops order b))
        { reg := r } li' := by
    intro r li hr
    have hlt := Intervals.lt_size hr
    rw [(f.names_intervalsIn loops order).size] at hlt
    obtain ⟨li', w, hget, hw, hscan⟩ := f.get?_intervalsIn loops order hlt
    rw [hget] at hr
    exact ⟨li', w, (Option.some.inj hr).symm, hw, hscan⟩
  have hattr : ∀ r (li' : Interval) {l : List (BlockLayout × BitSet)},
      Scanned r l { reg := r } li' →
      li'.reg = r ∧ li'.spillable = true ∧ li'.regClass = 0 := by
    intro r li' l h
    have hsame := h.same
    rw [Interval.mk.injEq] at hsame
    exact ⟨hsame.1, hsame.2.2.2.1, hsame.2.2.2.2.1⟩
  refine ⟨⟨?_, ?_⟩, ?_, ?_, ?_, ?_, ?_⟩
  · intro r li hr
    obtain ⟨li', w, rfl, -, hscan⟩ := hall r li hr
    exact (hattr r li' hscan).1
  · intro r li hr
    obtain ⟨li', w, rfl, -, hscan⟩ := hall r li hr
    exact hscan.separated
  · intro r li hr
    obtain ⟨li', w, rfl, -, hscan⟩ := hall r li hr
    exact (hattr r li' hscan).2.1
  · intro r li hr
    obtain ⟨li', w, rfl, -, hscan⟩ := hall r li hr
    exact (hattr r li' hscan).2.2
  · intro r li hr
    obtain ⟨li', w, rfl, hw, -⟩ := hall r li hr
    exact hw
  · intro r li hr d hd
    obtain ⟨li', w, rfl, -, hscan⟩ := hall r li hr
    rcases hscan.defs with ⟨hdef, -⟩ | ⟨e, -, pos, -, hdef⟩
    · rw [show li'.defAt = none from hdef] at hd
      cases hd
    · rw [show li'.defAt = some d from hd] at hdef
      cases hdef
      -- definitions and uses stand at fixed places among the four slots of a position
      unfold defSlot
      omega
  · intro r li hr u hu
    obtain ⟨li', w, rfl, -, hscan⟩ := hall r li hr
    rcases (hscan.uses u).1 hu with hu | ⟨e, -, pos, -, rfl⟩
    · cases hu
    · unfold useSlot
      omega

/-- The registers with a piece that begins at one slot are no more than a point can read. -/
lemma touchers (f : Func) (loops : LoopForest) (order : List BlockId) (c : Nat) :
    ∃ l : List VirtReg, l.length ≤ max 1 f.operandWidth ∧
      ∀ r li, (f.intervalsIn loops order).get? r = some li → c ∈ SpillRecord.starts li → r ∈ l := by
  set points := (f.layoutIn loops order).flatMap (·.points) with hpoints
  have hat : ∀ b ∈ f.layoutIn loops order, ∀ k p, b.points[k]? = some p →
      points[b.start + k]? = some p :=
    fun b hb k p hp => (getElem?_points hb hp).2
  refine ⟨if c % 4 = 2 then (points[c / 4]?.bind (·.writes)).toList
    else points[c / 4]?.elim [] (·.reads), ?_, ?_⟩
  · split
    · cases points[c / 4]?.bind (·.writes) with
      | none => exact Nat.zero_le _
      | some r => exact Nat.le_max_left ..
    · cases hp : points[c / 4]? with
      | none => exact Nat.zero_le _
      | some p =>
        obtain ⟨b, hb, hmem⟩ := List.mem_flatMap.1 (List.mem_of_getElem? hp)
        exact length_reads hb hmem
  · intro r li hr hc
    have hcomp := f.computed_intervalsIn loops order
    have hlt := Intervals.lt_size hr
    rw [(f.names_intervalsIn loops order).size] at hlt
    obtain ⟨li', w, hget, -, hscan⟩ := f.get?_intervalsIn loops order hlt
    rw [hget] at hr
    cases hr
    rcases SpillRecord.mem_starts.1 hc with hd | ⟨u, hu, rfl⟩
    · -- the slot of the definition
      rcases hscan.defs with ⟨hdef, -⟩ | ⟨e, he, pos, ⟨k, p, hp, hw, rfl⟩, hdef⟩
      · rw [show li'.defAt = some c from hd] at hdef
        cases hdef
      · rw [show li'.defAt = some c from hd] at hdef
        cases hdef
        obtain ⟨b, hb, rfl⟩ := List.mem_map.1 he
        unfold defSlot
        rw [if_pos (by omega), show ((b.start + k) * 4 + 2) / 4 = b.start + k by omega,
          hat b hb k p hp, Option.bind_some, hw]
        exact List.mem_singleton.2 rfl
    · -- the reload slot of a use
      rcases (hscan.uses u).1 hu with hu | ⟨e, he, pos, ⟨k, p, hp, hrp, rfl⟩, rfl⟩
      · cases hu
      · obtain ⟨b, hb, rfl⟩ := List.mem_map.1 he
        unfold baseSlot useSlot
        rw [if_neg (by omega),
          show ((b.start + k) * 4 + 1) / 4 * 4 / 4 = b.start + k by omega, hat b hb k p hp]
        exact hrp

end Func

/-! ## Nobody is stuck -/

namespace AllocState

/-- A place that was found is not given up. -/
lemma choose_ne_giveUp {s : AllocState} {r : VirtReg} {weight : Weight} {site : Choice}
    (hsite : site ≠ .giveUp) (cands : List PhysReg) :
    s.choose r weight site cands ≠ .giveUp := by
  induction cands with
  | nil => exact hsite
  | cons c rest ih =>
    unfold choose
    split
    · simp
    · exact absurd rfl hsite
    · exact ih

/-- Where no candidate can be taken, each of them is taken anyway or has an occupant that can not
be driven out. -/
lemma choose_giveUp {s : AllocState} {r : VirtReg} {weight : Weight} {cands : List PhysReg}
    (h : s.choose r weight .giveUp cands = .giveUp) {p : PhysReg} (hp : p ∈ cands) :
    s.matrix.check s.intervals r p = .fixed ∨ ∃ os, s.matrix.check s.intervals r p = .occupied os ∧
      s.evictable weight os = false := by
  induction cands with
  | nil => cases hp
  | cons c rest ih =>
    unfold choose at h
    cases hc : s.matrix.check s.intervals r c with
    | free => simp [hc] at h
    | fixed =>
      simp only [hc] at h
      rcases List.mem_cons.1 hp with rfl | hp
      · exact .inl hc
      · exact ih h hp
    | occupied os =>
      simp only [hc] at h
      cases hev : s.evictable weight os with
      | true =>
        rw [hev, if_pos rfl] at h
        exact absurd h (choose_ne_giveUp (by simp) rest)
      | false =>
        rw [hev, if_neg (by simp)] at h
        rcases List.mem_cons.1 hp with rfl | hp
        · exact .inr ⟨os, hc, hev⟩
        · exact ih h hp

end AllocState

/-- A candidate of a target without fixed ranges is never taken anyway. -/
lemma check_ne_fixed {t : Target} {s : AllocState} (hfixed : t.fixed = [])
    (hplace : Placement t s.intervals s.matrix)
    (hres : s.matrix.reserved = (RegMatrix.ofTarget t).reserved) {c : Nat} {p : PhysReg}
    (hp : p ∈ t.candidates c) (r : VirtReg) : s.matrix.check s.intervals r p ≠ .fixed := by
  obtain ⟨hc, hfree⟩ := Target.candidates_spec hp
  have hlt := Target.lt_numRegs hc
  have hreserved : s.matrix.reserved.getD p.index true = false := by
    rw [hres]
    unfold RegMatrix.ofTarget
    simp only [Array.getD_eq_getD_getElem?, Array.getElem?_map, Array.getElem?_range, hlt, if_true,
      Option.map_some, Option.getD_some]
    exact hfree
  have hranges : s.matrix.fixed.getD p.index [] = [] := by
    rw [hplace.fixed]
    apply List.eq_nil_iff_forall_not_mem.2
    intro x hx
    rw [RegMatrix.mem_fixed_ofTarget hlt, hfixed] at hx
    cases hx
  unfold RegMatrix.check
  rw [hreserved, hranges]
  cases s.intervals.get? r with
  | none => simp
  | some li =>
    have hover : segmentsOverlap li.segments [] = false := by
      cases li.segments with
      | nil => rfl
      | cons a as => rfl
    simp only [hover, Bool.or_self, Bool.false_eq_true, if_false]
    split <;> simp

namespace Running

variable {t : Target} {start : Intervals} {busy : VirtReg → Prop} {turns : Nat} {s : AllocState}

/-- A register that is live and may not be spilled is a piece. -/
lemma piece_of_unspillable (hstart : start.Computed) (hall : Allocating t start busy s)
    {q : VirtReg} {lq : Interval} (hq : s.intervals.get? q = some lq)
    (hs : lq.spillable = false) (hlive : lq.segments ≠ []) : start.size ≤ q.index := by
  by_contra hlt
  obtain ⟨l₀, hl₀⟩ : ∃ l₀, start.get? q = some l₀ :=
    ⟨_, Array.getElem?_eq_getElem (Nat.not_le.1 hlt)⟩
  rcases hall.history.origins q l₀ hl₀ with hk | hg
  · have hsame := hk.same
    rw [hq] at hsame
    cases hsame
    rw [hstart.spillable q lq hl₀] at hs
    cases hs
  · have hempty := hg.emptied
    rw [hq] at hempty
    cases hempty
    exact hlive rfl

/-- Pieces begin at reload slots or at the slots of definitions. -/
lemma starts_even (hstart : start.Computed) {r : VirtReg} {li : Interval}
    (hr : start.get? r = some li) {c : Nat} (hc : c ∈ SpillRecord.starts li) : c % 2 = 0 := by
  rcases SpillRecord.mem_starts.1 hc with hd | ⟨u, -, rfl⟩
  · have := hstart.defAt r li hr c hd
    omega
  · unfold baseSlot
    omega

/-- At every candidate a stuck register meets a piece that begins where it begins. -/
lemma exists_blocker (hstart : start.Computed) (hfixed : t.fixed = [])
    (hall : Allocating t start busy s) (h : Running t start turns s) {r r₀ : VirtReg}
    {li l₀ : Interval} {c : Nat} (hstuck : s.Stuck t r li) (hl₀ : start.get? r₀ = some l₀)
    (hc : c ∈ SpillRecord.starts l₀) (hpiece : SpillRecord.PieceOf r₀ l₀ c r li) {p : PhysReg}
    (hp : p ∈ t.candidates li.regClass) :
    ∃ o q, s.matrix.assigned? o = some p ∧ start.size ≤ o.index ∧
      ∃ lo lq, s.intervals.get? o = some lo ∧ start.get? q = some lq ∧
        c ∈ SpillRecord.starts lq ∧ lo.origin = some q ∧ lo.segments = [⟨c, c + 2⟩] := by
  rcases AllocState.choose_giveUp hstuck.crowded hp with hfix | ⟨os, hocc, hev⟩
  · exact absurd hfix (check_ne_fixed hfixed hall.placement h.reserved hp r)
  · obtain ⟨-, hos⟩ := (Allocating.check_spec hstuck.found).2 os hocc
    unfold AllocState.evictable at hev
    obtain ⟨o, ho, hbad⟩ := List.all_eq_false.1 hev
    rw [← hos] at ho
    have hplace := hall.assigned_of_mem_occupants ho
    obtain ⟨lo, hlo, -⟩ := hall.placement.placed o p hplace
    -- a register that can be spilled is no heavier than a piece
    have hsp : lo.spillable = false := by
      cases hsp : lo.spillable with
      | false => rfl
      | true =>
        have hweight := hstart.weight o lo (hall.history.start_of_spillable hlo hsp)
        rw [hpiece.weight] at hbad
        simp [AllocState.isSpillable, AllocState.weightOf, hlo, hsp, hweight] at hbad
    have hover : li.overlaps lo = true := by
      have := (List.mem_filter.1 ho).2
      rw [hlo] at this
      simpa using this
    obtain ⟨slot, hslot, hslot'⟩ := (Interval.overlaps_iff
      (hall.sound.separated r li hstuck.found) (hall.sound.separated o lo hlo)).1 hover
    have hlive : lo.segments ≠ [] := by
      intro he
      rw [he] at hslot'
      obtain ⟨x, hx, -⟩ := hslot'
      cases hx
    have hge := piece_of_unspillable hstart hall hlo hsp hlive
    obtain ⟨q, lq, c', hlq, hc', hpiece', -⟩ := h.pieces.products o lo hlo hge
    -- two pieces that share a slot begin at one slot
    have hsegments := hpiece'.segments_of_live hlive
    rw [hpiece.segments_of_live hstuck.live] at hslot
    rw [hsegments] at hslot'
    obtain ⟨x, hx, hx1, hx2⟩ := hslot
    obtain ⟨y, hy, hy1, hy2⟩ := hslot'
    rw [List.mem_singleton.1 hx] at hx1 hx2
    rw [List.mem_singleton.1 hy] at hy1 hy2
    have heven := starts_even hstart hl₀ hc
    have heven' := starts_even hstart hlq hc'
    simp only at hx1 hx2 hy1 hy2
    have hcc : c' = c := by omega
    subst hcc
    exact ⟨o, q, hplace, hge, lo, lq, hlo, hlq, hc', hpiece'.origin, hsegments⟩

/-- With as many candidates as registers can have pieces at one slot, nobody is stuck: the pieces
in the way of a piece are of registers of their own, and there would be one too many. -/
lemma not_stuck (hstart : start.Computed) (hfixed : t.fixed = [])
    (htouch : ∀ c, ∃ l : List VirtReg, l.length ≤ (t.candidates 0).dedup.length ∧
      ∀ r li, start.get? r = some li → c ∈ SpillRecord.starts li → r ∈ l)
    (hall : Allocating t start busy s) (h : Running t start turns s) {r : VirtReg}
    {li : Interval} : ¬ s.Stuck t r li := by
  intro hstuck
  have hge := piece_of_unspillable hstart hall hstuck.found hstuck.unspillable hstuck.live
  obtain ⟨r₀, l₀, c, hl₀, hc, hpiece, -⟩ := h.pieces.products r li hstuck.found hge
  obtain ⟨l, hlen, hl⟩ := htouch c
  have hclass : li.regClass = 0 := hpiece.regClass.trans (hstart.regClass r₀ l₀ hl₀)
  have hblock := fun p (hp : p ∈ t.candidates 0) =>
    exists_blocker hstart hfixed hall h hstuck hl₀ hc hpiece (hclass ▸ hp)
  choose! o q hplace hge' hpieces using hblock
  -- pieces of one register that begin at one slot are one piece
  have hinj : ∀ p ∈ t.candidates 0, ∀ p' ∈ t.candidates 0, q p = q p' → p = p' := by
    intro p hp p' hp' heq
    obtain ⟨lo, lq, hlo, -, -, horigin, hsegments⟩ := hpieces p hp
    obtain ⟨lo', lq', hlo', -, -, horigin', hsegments'⟩ := hpieces p' hp'
    have hsame := h.pieces.distinct (o p) (o p') lo lo' hlo hlo' (hge' p hp) (hge' p' hp')
      (by rw [horigin, horigin', heq]) (by rw [hsegments]; exact List.cons_ne_nil _ _)
      (by rw [hsegments, hsegments'])
    have hp1 := hplace p hp
    rw [hsame, hplace p' hp'] at hp1
    exact (Option.some.inj hp1).symm
  have hother : ∀ p ∈ t.candidates 0, q p ≠ r₀ := by
    intro p hp heq
    obtain ⟨lo, lq, hlo, -, -, horigin, hsegments⟩ := hpieces p hp
    have hsame := h.pieces.distinct (o p) r lo li hlo hstuck.found (hge' p hp) hge
      (by rw [horigin, hpiece.origin, heq]) (by rw [hsegments]; exact List.cons_ne_nil _ _)
      (by rw [hsegments, hpiece.segments_of_live hstuck.live])
    have hp1 := hplace p hp
    rw [hsame, hstuck.unplaced] at hp1
    cases hp1
  have hnodup : (r₀ :: (t.candidates 0).dedup.map q).Nodup := by
    refine List.nodup_cons.2 ⟨?_, ?_⟩
    · intro hmem
      obtain ⟨p, hp, heq⟩ := List.mem_map.1 hmem
      exact hother p (List.mem_dedup.1 hp) heq
    · refine List.Nodup.map_on ?_ (List.nodup_dedup _)
      intro p hp p' hp'
      exact hinj p (List.mem_dedup.1 hp) p' (List.mem_dedup.1 hp')
  have hsub : r₀ :: (t.candidates 0).dedup.map q ⊆ l := by
    intro x hx
    rcases List.mem_cons.1 hx with rfl | hx
    · exact hl x l₀ hl₀ hc
    · obtain ⟨p, hp, rfl⟩ := List.mem_map.1 hx
      obtain ⟨lo, lq, -, hlq, hc', -⟩ := hpieces p (List.mem_dedup.1 hp)
      exact hl (q p) lq hlq hc'
  have hcount := (hnodup.subperm hsub).length_le
  rw [List.length_cons, List.length_map] at hcount
  omega

end Running

/-! ## Allocation of a function -/

/-- Allocation of a function succeeds where every instruction fits: there is a colour, no register
is taken anyway, and there are as many registers to hand out as one instruction has different
operands in registers, and at least one. -/
theorem allocate_succeeds {f : Func} (hf : f.verify = .ok ()) (loops : LoopForest) {t : Target}
    (ht : t.validate = .ok ()) (hfixed : t.fixed = []) {colors : Nat} (hcolors : 1 ≤ colors)
    (hwidth : max 1 f.operandWidth ≤ (t.candidates 0).dedup.length) :
    ∃ ivs, f.liveIntervals loops = .ok ivs ∧ ∀ slots journal, ∃ a st,
      (allocate t colors).run ⟨ivs, slots, journal⟩ = .ok a st := by
  obtain ⟨-, hivs⟩ := Func.exists_liveIntervals (Func.verified_of_verify hf).consistent loops
  refine ⟨_, hivs, fun slots journal => ?_⟩
  set order := (f.cfg.reversePostorder f.entry.index).map BlockId.mk
  have hstart := f.computed_intervalsIn loops order
  have htouch : ∀ c, ∃ l : List VirtReg, l.length ≤ (t.candidates 0).dedup.length ∧ ∀ r li,
      (f.intervalsIn loops order).get? r = some li → c ∈ SpillRecord.starts li → r ∈ l := by
    intro c
    obtain ⟨l, hlen, hl⟩ := f.touchers loops order c
    exact ⟨l, Nat.le_trans hlen hwidth, hl⟩
  generalize f.intervalsIn loops order = ivs at hstart htouch
  have hmeets : (allocate t colors).Meets ⟨ivs, slots, journal⟩ (fun _ _ => True)
      fun _ => False :=
    allocate_meets hstart ht hcolors fun s busy turns r li hall hrun =>
      hrun.not_stuck hstart hfixed htouch hall
  cases hrun : (allocate t colors).run ⟨ivs, slots, journal⟩ with
  | ok a st => exact ⟨a, st, rfl⟩
  | error e st => exact (hmeets.error hrun).elim

/-! ## A loop that carries more values than there are registers -/

/-- Two registers are enough for three values that go round in a loop, as no instruction has more
than two operands. -/
theorem allocate_rotation : rotation.operandWidth = 2 ∧
    ∃ ivs, rotation.liveIntervals (rotation.loopForest rotation.cfg.domTree) = .ok ivs ∧
      ∀ slots journal, ∃ a st, (allocate (.uniform 2) 2).run ⟨ivs, slots, journal⟩ = .ok a st :=
  ⟨by decide +kernel, allocate_succeeds (by decide +kernel) _ (by decide) rfl (by decide)
    (by decide +kernel)⟩

end SsaBackend
