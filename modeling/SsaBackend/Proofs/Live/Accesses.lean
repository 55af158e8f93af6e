import Mathlib.Data.List.Sort
import SsaBackend.Proofs.Func.Strict
import SsaBackend.Proofs.Live.Registers

/-!
# What the positions of a function read and write

`Func.accesses` says of a block which values it reads and writes, position by position: arguments
and phis are written one by one, then each instruction reads its operands and writes its result,
then the values that the phis of the successors take from the block are read one by one, and at
the end the terminator reads its operands. Blocks follow each other in the order of the layout
(`Func.startOf`).

The points of the layout are these accesses, with registers in the place of values
(`Func.layout_eq`). For that, a value must be listed once among those that get a register
(`Func.nodup_registerValues`).
-/

namespace SsaBackend

/-- The values that a position reads, and the one that it writes after reading. -/
structure Access where
  reads : List Value := []
  writes : Option Value := none
  deriving DecidableEq, Repr

namespace Func

/-! ## Positions -/

/-- The values that are there when a block begins: arguments, in the entry, and phis. -/
def arrivals (f : Func) (b : BlockId) (bb : Block) : List Value :=
  (if b = f.entry then (List.range f.numArgs).map Value.arg else []) ++ bb.phis.map Value.inst

/-- Arguments and phis are written one by one. A block without any begins with an empty
position. -/
def leading (f : Func) (b : BlockId) (bb : Block) : List Access :=
  match f.arrivals b bb with
  | [] => [{}]
  | vs => vs.map fun v => { writes := some v }

/-- An instruction reads its operands and writes its result. -/
def action (f : Func) (i : InstId) : Access where
  reads := (f.inst? i).elim [] (·.inst.operands)
  writes := if (f.inst? i).any (·.inst.hasResult) then some (.inst i) else none

/-- The values that a block passes on are read one by one, in the order of their registers. -/
def handovers (f : Func) (order : List BlockId) (b : BlockId) : List Access :=
  ((f.registerValues order).filter (· ∈ f.passedValues b)).map fun v => { reads := [v] }

/-- The terminator reads its operands. -/
def departure (bb : Block) : Access := { reads := bb.terminator.elim [] (·.operands) }

/-- What the positions of a block read and write. -/
def accesses (f : Func) (order : List BlockId) (b : BlockId) : List Access :=
  (f.block? b).elim [] fun bb =>
    f.leading b bb ++ bb.body.map f.action ++ f.handovers order b ++ [departure bb]

/-- The first position of a block. -/
def startOf (f : Func) (order : List BlockId) (b : BlockId) : Nat :=
  total ((order.takeWhile (· ≠ b)).map fun c => (f.accesses order c).length)

/-- The order has the blocks that are reached, each of them once. -/
structure LaidOut (f : Func) (order : List BlockId) : Prop where
  once : order.Nodup
  reached : ∀ b, b ∈ order ↔ f.Reached b

/-- The value is an argument, or the result of an instruction of a block that is reached. -/
def Registered (f : Func) : Value → Prop
  | .arg n => n < f.numArgs
  | .inst i => ∃ b bb p, f.Reached b ∧ f.block? b = some bb ∧ i ∈ bb.insts ∧
      f.inst? i = some p ∧ p.inst.hasResult = true
  | _ => False

/-- Blocks that are reached list every instruction once, and no instruction of theirs reads a
result of the block before it is there. -/
structure ReadsInOrder (f : Func) : Prop where
  /-- A definition is one place: appending and moving list an instruction once. -/
  once : ∀ b bb, f.block? b = some bb → f.Reached b → bb.insts.Nodup
  ordered : ∀ b bb, f.block? b = some bb → f.Reached b → ∀ before i after,
    bb.body = before ++ i :: after → ∀ p, f.inst? i = some p → ∀ j, .inst j ∈ p.inst.operands →
      j ∈ bb.body → j ∈ before

/-! ## Values with registers -/

/-- A block that is reached is there. -/
lemma Verified.block_of_reached {f : Func} (hv : f.Verified) {b : BlockId} (hb : f.Reached b) :
    ∃ bb, f.block? b = some bb := by
  refine hb.induct (P := fun n => ∃ bb, f.block? ⟨n⟩ = some bb) hv.entry ?_
  intro m n _ _ hedge
  have hsucc := edge_iff (b := ⟨m⟩) (s := ⟨n⟩).1 hedge
  exact exists_block_of_pred ((hv.linked _ _).1 hsucc)

/-- An instruction that is listed belongs to its block. -/
lemma Verified.of_listed {f : Func} (hv : f.Verified) {b : BlockId} {bb : Block}
    (hb : f.block? b = some bb) {i : InstId} (hi : i ∈ bb.insts) :
    ∃ p, f.inst? i = some p ∧ p.block = b := by
  rcases List.mem_append.1 hi with hi | hi
  · obtain ⟨node, hnode, -⟩ := hv.phis b bb hb i hi
    exact ⟨_, hnode, rfl⟩
  · obtain ⟨p, hp, hblock, -⟩ := hv.body b bb hb i hi
    exact ⟨p, hp, hblock⟩

section

variable {f : Func} {order : List BlockId} (hv : f.Verified) (ho : f.LaidOut order)

include hv ho

lemma mem_registerValues {v : Value} : v ∈ f.registerValues order ↔ f.Registered v := by
  unfold registerValues
  simp only [List.mem_append, List.mem_map, List.mem_range, List.mem_flatMap, List.mem_filterMap,
    List.mem_filter]
  cases v with
  | arg n => simp [Registered]
  | inst i =>
    simp only [reduceCtorEq, and_false, exists_false, false_or, Value.inst.injEq, exists_eq_right,
      Registered]
    constructor
    · rintro ⟨bb, ⟨b, hb, hbb⟩, hi, hres⟩
      obtain ⟨p, hp, -⟩ := hv.of_listed hbb hi
      rw [hp, Option.any_some] at hres
      exact ⟨b, bb, p, (ho.reached b).1 hb, hbb, hi, hp, hres⟩
    · rintro ⟨b, bb, p, hb, hbb, hi, hp, hres⟩
      exact ⟨bb, ⟨b, (ho.reached b).2 hb, hbb⟩, hi, by rw [hp]; exact hres⟩
  | const c => simp [Registered]
  | undef => simp [Registered]

lemma nodup_registerValues (hr : f.ReadsInOrder) : (f.registerValues order).Nodup := by
  unfold registerValues
  refine List.nodup_append'.2 ⟨?_, ?_, ?_⟩
  · exact List.nodup_range.map fun _ _ h => Value.arg.inj h
  · refine List.Nodup.map (fun _ _ h => Value.inst.inj h) (List.nodup_flatMap.2 ⟨?_, ?_⟩)
    · intro bb hbb
      obtain ⟨b, hb, hbb⟩ := List.mem_filterMap.1 hbb
      exact (hr.once b bb hbb ((ho.reached b).1 hb)).filter _
    · -- an instruction belongs to one block
      refine List.pairwise_filterMap.2 (ho.once.imp ?_)
      intro b c hbc bb hbb cc hcc i hi hi'
      obtain ⟨p, hp, hpb⟩ := hv.of_listed hbb (List.mem_filter.1 hi).1
      obtain ⟨q, hq, hqc⟩ := hv.of_listed hcc (List.mem_filter.1 hi').1
      rw [hp] at hq
      cases hq
      exact hbc (hpb.symm.trans hqc)
  · intro v hv hv'
    obtain ⟨n, -, rfl⟩ := List.mem_map.1 hv
    obtain ⟨i, -, he⟩ := List.mem_map.1 hv'
    cases he

end

/-! ## The points of the layout -/

/-- The position with registers in the place of values. -/
def pointOf (ivs : Intervals) (a : Access) : Point where
  reads := regsOf ivs a.reads
  writes := a.writes.bind ivs.regOf?

/-- The layout of a block. -/
def blockLayout (f : Func) (loops : LoopForest) (order : List BlockId) (b : BlockId) :
    BlockLayout where
  block := b
  start := f.startOf order b
  points := (f.accesses order b).map (pointOf (f.newRegisters order))
  depth := loops.depthOf b

/-- Where every value has a register, going through the values is going through the registers. -/
lemma map_filterMap_of {α β γ : Type} {p : α → Option β} {g : α → γ} {h : β → γ} {l : List α}
    (hl : ∀ a ∈ l, ∃ b, p a = some b ∧ g a = h b) : (l.filterMap p).map h = l.map g := by
  induction l with
  | nil => rfl
  | cons a rest ih =>
    obtain ⟨b, hb, he⟩ := hl a List.mem_cons_self
    rw [List.filterMap_cons, hb, List.map_cons, List.map_cons, he,
      ih fun x hx => hl x (List.mem_cons_of_mem _ hx)]

lemma regsOf_singleton {ivs : Intervals} {v : Value} {r : VirtReg} (h : ivs.regOf? v = some r) :
    regsOf ivs [v] = [r] := by
  unfold regsOf
  rw [List.filterMap_cons, h]
  rfl

section

variable {f : Func} {order : List BlockId} (hv : f.Verified) (ho : f.LaidOut order)

include hv ho

lemma exists_regOf {v : Value} (h : f.Registered v) :
    ∃ r, (f.newRegisters order).regOf? v = some r :=
  (f.numbered_newRegisters order).answers v ((mem_registerValues hv ho).2 h)

lemma registered_of_regOf {v : Value} {r : VirtReg} (h : (f.newRegisters order).regOf? v = some r) :
    f.Registered v :=
  (mem_registerValues hv ho).1
    (List.mem_of_getElem? ((f.numbered_newRegisters order).regOf v r h))

variable {b : BlockId} {bb : Block}

omit ho in
lemma registered_arrivals (hb : f.block? b = some bb) (hreach : f.Reached b) {v : Value}
    (h : v ∈ f.arrivals b bb) : f.Registered v := by
  unfold arrivals at h
  rcases List.mem_append.1 h with h | h
  · split at h
    · obtain ⟨n, hn, rfl⟩ := List.mem_map.1 h
      exact List.mem_range.1 hn
    · cases h
  · obtain ⟨i, hi, rfl⟩ := List.mem_map.1 h
    obtain ⟨node, hnode, -⟩ := hv.phis b bb hb i hi
    exact ⟨b, bb, _, hreach, hb, List.mem_append_left _ hi, hnode, rfl⟩

lemma leadingPoints_eq (hb : f.block? b = some bb) (hreach : f.Reached b) :
    f.leadingPoints (f.newRegisters order) b bb =
      (f.leading b bb).map (pointOf (f.newRegisters order)) := by
  have hmap := map_filterMap_of (p := (f.newRegisters order).regOf?) (l := f.arrivals b bb)
    (g := fun v => pointOf (f.newRegisters order) { writes := some v })
    (h := fun r => { writes := some r }) fun v hmem => by
      obtain ⟨r, hr⟩ := exists_regOf hv ho (registered_arrivals hv hb hreach hmem)
      refine ⟨r, hr, ?_⟩
      unfold pointOf
      rw [Option.bind_some, hr]
      rfl
  unfold leadingPoints leading
  simp only
  rw [show _ ++ bb.phis.map Value.inst = f.arrivals b bb from rfl]
  cases hvs : f.arrivals b bb with
  | nil => rfl
  | cons v rest =>
    rw [hvs] at hmap
    obtain ⟨r, hr⟩ := exists_regOf hv ho
      (registered_arrivals hv hb hreach (hvs ▸ List.mem_cons_self))
    rw [List.filterMap_cons, hr] at hmap ⊢
    show List.map _ (r :: _) = List.map _ (List.map _ (v :: rest))
    rw [List.map_map]
    exact hmap

lemma bodyPoints_eq (hb : f.block? b = some bb) :
    f.bodyPoints (f.newRegisters order) bb =
      (bb.body.map f.action).map (pointOf (f.newRegisters order)) := by
  unfold bodyPoints
  rw [List.map_map, ← List.filterMap_eq_map]
  refine List.filterMap_congr ?_
  intro i hi
  obtain ⟨p, hp, -⟩ := hv.body b bb hb i hi
  unfold Function.comp pointOf action
  rw [hp]
  simp only [Option.map_some, Option.elim_some, Option.any_some, Option.some.injEq, Point.mk.injEq,
    true_and]
  split
  · rfl
  · rename_i hres
    -- an instruction without a result has no register
    cases hreg : (f.newRegisters order).regOf? (.inst i) with
    | none => rfl
    | some r =>
      obtain ⟨-, -, q, -, -, -, hq, hres'⟩ := registered_of_regOf hv ho hreg
      rw [hp] at hq
      cases hq
      exact absurd hres' hres

lemma copyPoints_eq (hr : f.ReadsInOrder) :
    f.copyPoints (f.newRegisters order) b =
      (f.handovers order b).map (pointOf (f.newRegisters order)) := by
  have hnum := f.numbered_newRegisters order
  have hvs := nodup_registerValues hv ho hr
  set passed := (f.registerValues order).filter (· ∈ f.passedValues b) with hpassed
  -- the values in the order of their registers
  have hsorted : (passed.filterMap (f.newRegisters order).regOf?).Pairwise
      fun r q => r.index < q.index := by
    refine List.pairwise_filterMap.2 (List.Pairwise.sublist List.filter_sublist ?_)
    rw [List.pairwise_iff_getElem]
    intro i j hi hj hij r hr q hq
    have hri : (f.registerValues order)[i]? = some (f.registerValues order)[i] :=
      List.getElem?_eq_getElem hi
    have hqj : (f.registerValues order)[j]? = some (f.registerValues order)[j] :=
      List.getElem?_eq_getElem hj
    rw [(hnum.regOf_iff hvs (r := ⟨i⟩)).2 hri] at hr
    rw [(hnum.regOf_iff hvs (r := ⟨j⟩)).2 hqj] at hq
    cases hr
    cases hq
    exact hij
  have hregs : regsOf (f.newRegisters order) (f.passedValues b) =
      passed.filterMap (f.newRegisters order).regOf? := by
    have hsame : ∀ r, r ∈ regsOf (f.newRegisters order) (f.passedValues b) ↔
        r ∈ passed.filterMap (f.newRegisters order).regOf? := by
      intro r
      rw [mem_regsOf, List.mem_filterMap]
      constructor
      · rintro ⟨v, hv, hr⟩
        exact ⟨v, List.mem_filter.2 ⟨List.mem_of_getElem? (hnum.regOf v r hr), by simpa using hv⟩,
          hr⟩
      · rintro ⟨v, hv, hr⟩
        exact ⟨v, by simpa using (List.mem_filter.1 hv).2, hr⟩
    have hnodup : (passed.filterMap (f.newRegisters order).regOf?).Nodup := by
      refine hsorted.imp ?_
      rintro r _ hlt rfl
      exact Nat.lt_irrefl _ hlt
    have hperm := (List.perm_ext_iff_of_nodup (nodup_regsOf ..) hnodup).2 hsame
    refine hperm.eq_of_pairwise (fun a b _ _ hab hba => ?_) (pairwise_ascending ..) hsorted
    exact absurd hab (Nat.lt_asymm hba)
  unfold copyPoints handovers
  rw [hregs, ← hpassed, List.map_map]
  refine map_filterMap_of fun v hmem => ?_
  obtain ⟨r, hr⟩ := hnum.answers v (List.mem_filter.1 hmem).1
  refine ⟨r, hr, ?_⟩
  unfold Function.comp pointOf
  rw [regsOf_singleton hr]
  rfl

/-- The points of a block are its accesses. -/
lemma blockPoints_eq (hr : f.ReadsInOrder) (hb : f.block? b = some bb) (hreach : f.Reached b) :
    f.blockPoints (f.newRegisters order) b bb =
      (f.accesses order b).map (pointOf (f.newRegisters order)) := by
  unfold blockPoints accesses
  rw [hb, Option.elim_some, List.map_append, List.map_append, List.map_append,
    leadingPoints_eq hv ho hb hreach, bodyPoints_eq hv ho hb, copyPoints_eq hv ho hr]
  rfl

/-! ## The layout -/

omit hv in
/-- Blocks follow each other. -/
lemma startOf_split {before after : List BlockId} {b : BlockId} (h : order = before ++ b :: after) :
    f.startOf order b = total (before.map fun c => (f.accesses order c).length) := by
  have hnot : b ∉ before := by
    have honce := ho.once
    rw [h] at honce
    intro hb
    exact (List.nodup_append.1 honce).2.2 b hb b List.mem_cons_self rfl
  have htake : order.takeWhile (· ≠ b) = before := by
    rw [h, List.takeWhile_append_of_pos]
    · simp
    · intro c hc
      exact decide_eq_true fun he => hnot (he ▸ hc)
  unfold startOf
  rw [htake]

omit hv in
/-- The positions of two blocks are apart. -/
lemma startOf_apart {b c : BlockId} (hb : b ∈ order) (hc : c ∈ order) (hne : b ≠ c) :
    f.startOf order b + (f.accesses order b).length ≤ f.startOf order c ∨
      f.startOf order c + (f.accesses order c).length ≤ f.startOf order b := by
  have hlater : ∀ {b c : BlockId} {before mid after}, order = before ++ b :: (mid ++ c :: after) →
      f.startOf order b + (f.accesses order b).length ≤ f.startOf order c := by
    intro b c before mid after h
    have hc : order = (before ++ b :: mid) ++ c :: after := by simpa using h
    rw [startOf_split ho h, startOf_split ho hc, List.map_append, total_append, List.map_cons,
      total_cons]
    omega
  obtain ⟨before, after, h⟩ := List.append_of_mem hb
  rw [h] at hc
  rcases List.mem_append.1 hc with hc | hc
  · obtain ⟨first, mid, rfl⟩ := List.append_of_mem hc
    have h' : order = first ++ c :: (mid ++ b :: after) := by simpa using h
    exact .inr (hlater h')
  · obtain ⟨mid, last, rfl⟩ := List.append_of_mem ((List.mem_cons.1 hc).resolve_left (Ne.symm hne))
    exact .inl (hlater h)

/-- The layout has the blocks of the order with their accesses. -/
lemma layout_eq (hr : f.ReadsInOrder) (loops : LoopForest) :
    f.layoutIn loops order = order.map (f.blockLayout loops order) := by
  have hgo : ∀ before after : List BlockId, order = before ++ after →
      f.layoutFrom (f.newRegisters order) loops
          (total (before.map fun c => (f.accesses order c).length))
          (after.filterMap fun id => (f.block? id).map (id, ·)) =
        after.map (f.blockLayout loops order) := by
    intro before after h
    induction after generalizing before with
    | nil => rfl
    | cons b rest ih =>
      have hreach := (ho.reached b).1 (h ▸ List.mem_append_right _ List.mem_cons_self)
      obtain ⟨bb, hb⟩ := hv.block_of_reached hreach
      have hnext := ih (before ++ [b]) (by simpa using h)
      rw [List.map_append, total_append, List.map_singleton, total_cons, total_nil,
        Nat.add_zero] at hnext
      rw [List.filterMap_cons, hb, List.map_cons]
      simp only [Option.map_some, layoutFrom, BlockLayout.next, blockLayout,
        blockPoints_eq hv ho hr hb hreach, List.length_map, startOf_split ho h, hnext]
  exact hgo [] order rfl

end

/-! ## Where a value is read and written -/

/-- The block reads the value at its position `k`. -/
def ReadAt (f : Func) (order : List BlockId) (v : Value) (b : BlockId) (k : Nat) : Prop :=
  ∃ a, (f.accesses order b)[k]? = some a ∧ v ∈ a.reads

/-- The block writes the value at its position `k`. -/
def WrittenAt (f : Func) (order : List BlockId) (v : Value) (b : BlockId) (k : Nat) : Prop :=
  ∃ a, (f.accesses order b)[k]? = some a ∧ a.writes = some v

section

variable {f : Func} {order : List BlockId} {b : BlockId} {bb : Block}

/-- A position of a block is one of its arrivals, of its instructions or of its end. -/
lemma accesses_cases (hb : f.block? b = some bb) {k : Nat} {a : Access}
    (ha : (f.accesses order b)[k]? = some a) :
    (k < (f.leading b bb).length ∧ a.reads = []) ∨
      (∃ m i, k = (f.leading b bb).length + m ∧ bb.body[m]? = some i ∧ a = f.action i) ∨
      (f.leading b bb).length + bb.body.length ≤ k ∧ a.writes = none := by
  unfold accesses at ha
  rw [hb, Option.elim_some, List.append_assoc, List.append_assoc, List.getElem?_append] at ha
  split at ha
  · rename_i hk
    refine .inl ⟨hk, ?_⟩
    have hmem := List.mem_of_getElem? ha
    unfold leading at hmem
    split at hmem
    · rw [List.mem_singleton.1 hmem]
    · obtain ⟨v, -, rfl⟩ := List.mem_map.1 hmem
      rfl
  · rename_i hk
    rw [List.getElem?_append, List.length_map] at ha
    split at ha
    · rw [List.getElem?_map] at ha
      obtain ⟨i, hi, rfl⟩ := Option.map_eq_some_iff.1 ha
      exact .inr (.inl ⟨_, i, by omega, hi, rfl⟩)
    · refine .inr (.inr ⟨by omega, ?_⟩)
      rcases List.mem_append.1 (List.mem_of_getElem? ha) with hmem | hmem
      · obtain ⟨v, -, rfl⟩ := List.mem_map.1 hmem
        rfl
      · rw [List.mem_singleton.1 hmem]
        rfl

/-- The values a block writes, in this order. -/
lemma writes_accesses (hb : f.block? b = some bb) :
    (f.accesses order b).filterMap (·.writes) = f.arrivals b bb ++
      (bb.body.filter fun i => (f.inst? i).any (·.inst.hasResult)).map Value.inst := by
  have hlead : (f.leading b bb).filterMap (·.writes) = f.arrivals b bb := by
    unfold leading
    split
    · rename_i hnil
      rw [hnil]
      rfl
    · rw [List.filterMap_map]
      exact List.filterMap_some
  have hbody : ∀ l : List InstId, (l.map f.action).filterMap (·.writes) =
      (l.filter fun i => (f.inst? i).any (·.inst.hasResult)).map Value.inst := by
    intro l
    induction l with
    | nil => rfl
    | cons i rest ih =>
      rw [List.map_cons, List.filterMap_cons, List.filter_cons, ih]
      unfold action
      cases (f.inst? i).any (·.inst.hasResult) <;> rfl
  have hcopies : (f.handovers order b).filterMap (·.writes) = [] := by
    unfold handovers
    rw [List.filterMap_map]
    exact List.filterMap_none _
  unfold accesses
  rw [hb, Option.elim_some, List.filterMap_append, List.filterMap_append, List.filterMap_append,
    hlead, hbody, hcopies, List.append_nil]
  exact List.append_nil _

lemma WrittenAt.mem {v : Value} {k : Nat} (h : f.WrittenAt order v b k)
    (hb : f.block? b = some bb) : v ∈ f.arrivals b bb ∨ ∃ i ∈ bb.body, v = .inst i := by
  obtain ⟨a, ha, hw⟩ := h
  have hmem : v ∈ (f.accesses order b).filterMap (·.writes) :=
    List.mem_filterMap.2 ⟨a, List.mem_of_getElem? ha, hw⟩
  rw [writes_accesses hb] at hmem
  refine (List.mem_append.1 hmem).imp_right fun hmem => ?_
  obtain ⟨i, hi, rfl⟩ := List.mem_map.1 hmem
  exact ⟨i, (List.mem_filter.1 hi).1, rfl⟩

variable (hv : f.Verified) (ho : f.LaidOut order)

include hv ho

/-- A value with a register is written somewhere. -/
lemma exists_writtenAt {v : Value} (h : f.Registered v) :
    ∃ b ∈ order, ∃ k, f.WrittenAt order v b k := by
  have hfind : ∀ b bb, f.block? b = some bb → v ∈ (f.accesses order b).filterMap (·.writes) →
      ∃ k, f.WrittenAt order v b k := by
    intro b bb hb hmem
    obtain ⟨a, ha, hw⟩ := List.mem_filterMap.1 hmem
    obtain ⟨k, hk⟩ := List.mem_iff_getElem?.1 ha
    exact ⟨k, a, hk, hw⟩
  cases v with
  | arg n =>
    obtain ⟨bb, hb⟩ := hv.entry
    refine ⟨f.entry, (ho.reached _).2 Reaches.init, hfind _ bb hb ?_⟩
    rw [writes_accesses hb]
    refine List.mem_append_left _ (List.mem_append_left _ ?_)
    rw [if_pos rfl]
    exact List.mem_map.2 ⟨n, List.mem_range.2 h, rfl⟩
  | inst i =>
    obtain ⟨b, bb, p, hreach, hb, hi, hp, hres⟩ := h
    refine ⟨b, (ho.reached b).2 hreach, hfind b bb hb ?_⟩
    rw [writes_accesses hb]
    rcases List.mem_append.1 hi with hi | hi
    · exact List.mem_append_left _ (List.mem_append_right _ (List.mem_map.2 ⟨i, hi, rfl⟩))
    · refine List.mem_append_right _ (List.mem_map.2 ⟨i, List.mem_filter.2 ⟨hi, ?_⟩, rfl⟩)
      rw [hp]
      exact hres
  | const c => exact h.elim
  | undef => exact h.elim

omit ho in
/-- A value is written in one block. -/
lemma writtenAt_block {v : Value} {b c : BlockId} {k l : Nat} (h : f.WrittenAt order v b k)
    (h' : f.WrittenAt order v c l) : b = c := by
  have hthere : ∀ {b k}, f.WrittenAt order v b k → ∃ bb, f.block? b = some bb := by
    intro b k h
    obtain ⟨a, ha, -⟩ := h
    unfold accesses at ha
    cases hb : f.block? b with
    | none =>
      rw [hb] at ha
      cases ha
    | some bb => exact ⟨bb, rfl⟩
  obtain ⟨bb, hb⟩ := hthere h
  obtain ⟨cc, hc⟩ := hthere h'
  -- an argument is written in the entry, a result in the block of its instruction
  have howner : ∀ {b bb k}, f.block? b = some bb → f.WrittenAt order v b k →
      (b = f.entry ∧ ∃ n, v = .arg n) ∨ ∃ i p, v = .inst i ∧ f.inst? i = some p ∧ p.block = b := by
    intro b bb k hb h
    rcases h.mem hb with hmem | ⟨i, hi, rfl⟩
    · unfold arrivals at hmem
      rcases List.mem_append.1 hmem with hmem | hmem
      · split at hmem
        · obtain ⟨n, -, rfl⟩ := List.mem_map.1 hmem
          exact .inl ⟨by assumption, n, rfl⟩
        · cases hmem
      · obtain ⟨i, hi, rfl⟩ := List.mem_map.1 hmem
        obtain ⟨p, hp, hblock⟩ := hv.of_listed hb (List.mem_append_left _ hi)
        exact .inr ⟨i, p, rfl, hp, hblock⟩
    · obtain ⟨p, hp, hblock⟩ := hv.of_listed hb (List.mem_append_right _ hi)
      exact .inr ⟨i, p, rfl, hp, hblock⟩
  rcases howner hb h with ⟨rfl, n, rfl⟩ | ⟨i, p, rfl, hp, rfl⟩
  · rcases howner hc h' with ⟨rfl, -⟩ | ⟨i, p, he, -⟩
    · rfl
    · cases he
  · rcases howner hc h' with ⟨-, n, he⟩ | ⟨j, q, he, hq, rfl⟩
    · cases he
    · cases he
      rw [hp] at hq
      cases hq
      rfl

/-- A value is written at one position. -/
lemma writtenAt_unique (hr : f.ReadsInOrder) {v : Value} {k l : Nat} (hb : b ∈ order)
    (h : f.WrittenAt order v b k) (h' : f.WrittenAt order v b l) : k = l := by
  have hreach := (ho.reached b).1 hb
  obtain ⟨bb, hbb⟩ := hv.block_of_reached hreach
  have honce := hr.once b bb hbb hreach
  have hnodup : ((f.accesses order b).filterMap (·.writes)).Nodup := by
    rw [writes_accesses hbb]
    unfold arrivals
    rw [List.append_assoc, ← List.map_append]
    refine List.nodup_append'.2 ⟨?_, ?_, ?_⟩
    · split
      · exact List.nodup_range.map fun _ _ h => Value.arg.inj h
      · exact List.nodup_nil
    · refine List.Nodup.map (fun _ _ h => Value.inst.inj h) (honce.sublist ?_)
      exact (List.Sublist.refl _).append List.filter_sublist
    · intro v hv hv'
      obtain ⟨i, -, rfl⟩ := List.mem_map.1 hv'
      split at hv
      · obtain ⟨n, -, he⟩ := List.mem_map.1 hv
        cases he
      · cases hv
  obtain ⟨a, ha, hw⟩ := h
  obtain ⟨a', ha', hw'⟩ := h'
  obtain ⟨hk, rfl⟩ := List.getElem?_eq_some_iff.1 ha
  obtain ⟨hl, rfl⟩ := List.getElem?_eq_some_iff.1 ha'
  have hpair := List.pairwise_iff_getElem.1 (List.pairwise_filterMap.1 hnodup)
  by_contra hne
  rcases Nat.lt_or_gt_of_ne hne with hlt | hlt
  · exact hpair k l hk hl hlt v hw v hw' rfl
  · exact hpair l k hl hk hlt v hw' v hw rfl

/-- A block reads what it writes after it has written it. -/
lemma written_before_read (hr : f.ReadsInOrder) {v : Value} {k l : Nat} (hb : b ∈ order)
    (h : f.WrittenAt order v b k) (h' : f.ReadAt order v b l) : k < l := by
  have hreach := (ho.reached b).1 hb
  obtain ⟨bb, hbb⟩ := hv.block_of_reached hreach
  obtain ⟨a, ha, hw⟩ := h
  obtain ⟨a', ha', hread⟩ := h'
  rcases accesses_cases hbb ha' with ⟨-, hnil⟩ | ⟨m', i', rfl, hi', rfl⟩ | ⟨hl, -⟩
  · rw [hnil] at hread
    cases hread
  · rcases accesses_cases hbb ha with ⟨hk, -⟩ | ⟨m, i, rfl, hi, rfl⟩ | ⟨-, hnone⟩
    · omega
    · -- two instructions: the one that reads the result of the other comes later
      have hvi : v = .inst i := by
        unfold action at hw
        simp only at hw
        split at hw
        · cases hw
          rfl
        · cases hw
      subst hvi
      obtain ⟨hm', hget'⟩ := List.getElem?_eq_some_iff.1 hi'
      obtain ⟨hm, hget⟩ := List.getElem?_eq_some_iff.1 hi
      have hsplit : bb.body = bb.body.take m' ++ i' :: bb.body.drop (m' + 1) := by
        rw [← hget', ← List.drop_eq_getElem_cons hm', List.take_append_drop]
      obtain ⟨p, hp, -⟩ := hv.body b bb hbb i' (List.mem_of_getElem? hi')
      unfold action at hread
      rw [hp] at hread
      have hmem := hr.ordered b bb hbb hreach _ i' _ hsplit p hp i hread (List.mem_of_getElem? hi)
      obtain ⟨n, hn⟩ := List.mem_iff_getElem?.1 hmem
      rw [List.getElem?_take] at hn
      split at hn
      · rename_i hlt
        obtain ⟨hnlt, hgetn⟩ := List.getElem?_eq_some_iff.1 hn
        have hbody := (List.nodup_append'.1 (hr.once b bb hbb hreach)).2.1
        have := (List.Nodup.getElem_inj_iff hbody).1 (hgetn.trans hget.symm)
        omega
      · cases hn
    · rw [hnone] at hw
      cases hw
  · -- a terminator reads, and everything in the block comes before it
    rcases accesses_cases hbb ha with ⟨hk, -⟩ | ⟨m, i, rfl, hi, rfl⟩ | ⟨-, hnone⟩
    · omega
    · have := (List.getElem?_eq_some_iff.1 hi).1
      omega
    · rw [hnone] at hw
      cases hw

end

end Func

end SsaBackend
