import Mathlib.Data.List.Sublists
import SsaBackend.Proofs.Checked.Loops
import SsaBackend.Proofs.Checked.Searches
import SsaBackend.Proofs.Live.Exact

/-!
# Liveness, with every table looked at

The blocks of the layout know each other by their places in it, registers index the sets and the
tables of costs and ends, and sets are put together that must be over the same registers. All
these places are there (`liveIntervals?_eq`).

Going back over a block must end with the registers that the equations say are live into it. It
does if no instruction reads a result of its block before it is there: then a register that the
block writes is not live in front of the first point that writes it, and for the others the
equations say what the points say (`needed_iff`).
-/

namespace SsaBackend

/-- Puts the numbers of a list in, which must be below the capacity. -/
def BitSet.insertAll? (s : BitSet) (is : List Nat) : Except Error BitSet :=
  is.foldlM (fun s i => do return (← s.insert? i).2) s

/-! ## Layout -/

namespace Func

/-- The layout of the blocks, from position `start` on. -/
def layoutFrom? (f : Func) (ivs : Intervals) (loops : LoopForest) :
    Nat → List (BlockId × Block) → Except Error (List BlockLayout)
  | _, [] => return []
  | start, (id, b) :: rest => do
    let here := ⟨id, start, f.blockPoints ivs id b, ← loops.readDepth? id⟩
    return here :: (← f.layoutFrom? ivs loops here.next rest)

/-- The layout of the blocks in the given order. -/
def layout? (f : Func) (ivs : Intervals) (loops : LoopForest) (order : List BlockId) :
    Except Error (List BlockLayout) :=
  f.layoutFrom? ivs loops 0 (order.filterMap fun id => (f.block? id).map (id, ·))

/-- The place of each block in the layout. -/
def places? (f : Func) (layout : List BlockLayout) : Except Error (Array (Option Nat)) :=
  layout.zipIdx.foldlM (fun m e => store? m e.1.block.index (some e.2))
    (Array.replicate f.blockCapacity none)

end Func

/-! ## Equations -/

namespace FlowBlock

/-- The equations of a block of the layout, over `count` registers. -/
def ofLayout? (f : Func) (count : Nat) (places : Array (Option Nat)) (b : BlockLayout) :
    Except Error FlowBlock := do
  let writes ← (BitSet.empty count).insertAll? (b.written.map (·.index))
  let reads ← (BitSet.empty count).insertAll? (b.read.map (·.index))
  let needs ← reads.sdiff? writes
  return ⟨needs.2, writes, (f.succs b.block).filterMap fun s => places[s.index]?.join⟩

/-- The registers live out of a block, given those live into each block. -/
def liveOut? (count : Nat) (liveIn : Array BitSet) (b : FlowBlock) : Except Error BitSet :=
  b.succs.foldlM (fun out s => do return (← out.union? (← load? liveIn s)).2) (.empty count)

/-- The registers live into a block, given those live out of it. -/
def liveInOf? (b : FlowBlock) (out : BitSet) : Except Error BitSet := do
  return (← (← out.sdiff? b.writes).2.union? b.needs).2

end FlowBlock

/-- Brings the registers live into one block up to date. -/
def sweepBlock? (count : Nat) (liveIn : Array BitSet) (e : FlowBlock × Nat) :
    Except Error (Array BitSet) := do
  store? liveIn e.2 (← e.1.liveInOf? (← e.1.liveOut? count liveIn))

/-- A sweep, if it changes anything. -/
def sweepStep? (count : Nat) (blocks : List FlowBlock) (liveIn : Array BitSet) :
    Except Error (Option (Array BitSet)) := do
  let next ← blocks.zipIdx.reverse.foldlM (sweepBlock? count) liveIn
  return if next = liveIn then none else some next

/-- The registers live into each block. -/
def solveLiveIn? (count : Nat) (blocks : List FlowBlock) : Except Error (Array BitSet) :=
  repeatToEnd? (sweepStep? count blocks) (blocks.length * count + 1)
    (Array.replicate blocks.length (.empty count))

/-- Writes down what is live out of one block, and brings what is live into it up to date. -/
def FlowTables.update? (count : Nat) (t : FlowTables) (e : FlowBlock × Nat) :
    Except Error FlowTables := do
  let out ← e.1.liveOut? count t.liveIn
  let liveIn ← store? t.liveIn e.2 (← e.1.liveInOf? out)
  return ⟨liveIn, ← store? t.liveOut e.2 out⟩

/-- Both tables, as the last sweep leaves them. -/
def solveFlow? (count : Nat) (blocks : List FlowBlock) : Except Error FlowTables := do
  blocks.zipIdx.reverse.foldlM (FlowTables.update? count)
    ⟨← solveLiveIn? count blocks, Array.replicate blocks.length (.empty count)⟩

/-- Liveness at the boundaries of the blocks of a layout. -/
def Func.solveLiveness? (f : Func) (count : Nat) (layout : List BlockLayout) :
    Except Error FlowTables := do
  let places ← f.places? layout
  solveFlow? count (← layout.mapM (FlowBlock.ofLayout? f count places))

/-! ## The scan -/

namespace LiveScan

/-- Goes back over the writing of a register. -/
def write? (c : Weight) (pos : Nat) (s : LiveScan) (r : VirtReg) : Except Error LiveScan := do
  let start := defSlot pos
  let cost ← update? s.cost r.index (·.add c)
  let (was, live) ← s.live.erase? r.index
  let stop ← if was then load? s.stopAt r.index else pure (start + 1)
  return { s with
    intervals := s.intervals.modify r fun li =>
      { li with defAt := some start }.addSegment start stop
    cost
    live }

/-- Goes back over the reading of a register. -/
def read? (c : Weight) (pos : Nat) (s : LiveScan) (r : VirtReg) : Except Error LiveScan := do
  let cost ← update? s.cost r.index (·.add c)
  let (new, live) ← s.live.insert? r.index
  let s := { s with cost, intervals := s.intervals.modify r (·.addUse (useSlot pos)) }
  if new then return { s with live, stopAt := ← store? s.stopAt r.index (defSlot pos) }
  else return s

/-- Goes back over a point, all of whose slots have numbers. -/
def point? (c : Weight) (s : LiveScan) (e : Point × Nat) : Except Error LiveScan := do
  ensure (e.2 * 4 + 3 < slotLimit)
  let s ← e.1.writes.elim (pure s) (write? c e.2 s)
  e.1.reads.foldlM (read? c e.2) s

/-- Goes back over a block out of which the registers `out` are live. Those live in front of it
must be those that the equations say. -/
def block? (s : LiveScan) (b : BlockLayout) (out liveIn : BitSet) : Except Error LiveScan := do
  ensure (b.next * 4 < slotLimit)
  let stopAt ← out.toList.foldlM (fun m r => store? m r (b.next * 4)) s.stopAt
  let s ← (b.points.zipIdx b.start).reverse.foldlM (point? (costAt b.depth))
    { s with live := out, stopAt }
  ensure (s.live = liveIn)
  let intervals ← s.live.toList.foldlM
    (fun ivs r => do
      let stop ← load? s.stopAt r
      return ivs.modify ⟨r⟩ (·.addSegment (b.start * 4) stop)) s.intervals
  return { s with intervals }

/-- Goes back over a block that has a place in the layout, and so in the tables. -/
def blockAt? (flow : FlowTables) (s : LiveScan) (e : BlockLayout × Nat) :
    Except Error LiveScan := do
  s.block? e.1 (← load? flow.liveOut e.2) (← load? flow.liveIn e.2)

end LiveScan

namespace Func

/-- The live intervals of the blocks in the given order. -/
def intervalsIn? (f : Func) (loops : LoopForest) (order : List BlockId) :
    Except Error Intervals := do
  let regs := f.newRegisters order
  let layout ← f.layout? regs loops order
  let flow ← f.solveLiveness? regs.size layout
  let scan ← layout.zipIdx.foldlM (LiveScan.blockAt? flow) (LiveScan.init regs)
  return scan.weighed

/-- The live intervals of all values of a function. -/
def liveIntervals? (f : Func) (loops : LoopForest) : Except Error Intervals := do
  let order ← f.cfg.reversePostorder? f.entry.index
  f.intervalsIn? loops (order.map BlockId.mk)

/-- No block reads a result of its own before it is there. -/
def ReadsLate (f : Func) : Prop :=
  ∀ b bb, f.block? b = some bb → ∀ before i after, bb.body = before ++ i :: after →
    ∀ p, f.inst? i = some p → ∀ j q, .inst j ∈ p.inst.operands → j ∈ bb.body →
      f.inst? j = some q → q.inst.hasResult = true → j ∈ before

end Func

/-! ## Nothing is refused -/

section Layout

variable {f : Func} {ivs : Intervals} {loops : LoopForest}

lemma Func.layout?_eq (h : loops.Places) (order : List BlockId) :
    f.layout? ivs loops order = .ok (f.layout ivs loops order) := by
  have hgo : ∀ start l, f.layoutFrom? ivs loops start l = .ok (f.layoutFrom ivs loops start l) := by
    intro start l
    induction l generalizing start with
    | nil => rfl
    | cons e rest ih =>
      rw [Func.layoutFrom?, LoopForest.readDepth?_eq h, ok_bind]
      dsimp only
      rw [ih, ok_bind]
      rfl
  exact hgo 0 _

/-- The blocks of a layout are those it was made of. -/
lemma Func.blocks_layoutFrom (start : Nat) (l : List (BlockId × Block)) :
    (f.layoutFrom ivs loops start l).map (·.block) = l.map (·.1) := by
  induction l generalizing start with
  | nil => rfl
  | cons e rest ih => rw [Func.layoutFrom, List.map_cons, List.map_cons, ih]

/-- The table of places has each block at its place in the layout. -/
lemma places_foldl {l : List BlockLayout} (hl : (l.map (·.block)).Nodup) (k : Nat)
    {a : Array (Option Nat)} (ha : ∀ b ∈ l, b.block.index < a.size) (s : BlockId) :
    ((l.zipIdx k).foldl (fun m e => m.setIfInBounds e.1.block.index (some e.2)) a)[s.index]?.join =
      (l.findIdx? (·.block = s)).elim (a[s.index]?.join) fun j => some (k + j) := by
  induction l generalizing k a with
  | nil => rfl
  | cons b rest ih =>
    obtain ⟨hb, hrest⟩ := List.nodup_cons.1 hl
    have hlt := ha b List.mem_cons_self
    rw [List.zipIdx_cons, List.foldl_cons, ih hrest (k + 1) (fun c hc => by
      simpa using ha c (List.mem_cons_of_mem _ hc)), List.findIdx?_cons,
      Array.getElem?_setIfInBounds]
    by_cases hs : b.block = s
    · subst hs
      have hnone : rest.findIdx? (fun c => decide (c.block = b.block)) = none := by
        refine List.findIdx?_eq_none_iff.2 fun c hc => decide_eq_false fun he => ?_
        exact hb (List.mem_map.2 ⟨c, hc, he⟩)
      rw [hnone]
      simp [hlt]
    · have hne : ¬ b.block.index = s.index := fun he => hs (BlockId.index_inj.1 he)
      rw [if_neg hne, decide_eq_false hs]
      cases rest.findIdx? (fun c => decide (c.block = s)) with
      | none => rfl
      | some j => simp [Nat.add_comm, Nat.add_left_comm]

end Layout

namespace Func

variable {f : Func} {loops : LoopForest} {order : List BlockId}

variable (f loops) in
/-- The blocks of a layout are there, and each of them once. -/
lemma blocks_layoutIn (horder : order.Nodup) :
    ((f.layoutIn loops order).map (·.block)).Nodup ∧
      ∀ b ∈ f.layoutIn loops order, b.block.index < f.blockCapacity := by
  have hids : (order.filterMap fun id => (f.block? id).map (id, ·)).map (·.1) =
      order.filter fun id => (f.block? id).isSome := by
    induction order with
    | nil => rfl
    | cons id rest ih =>
      rw [List.filterMap_cons, List.filter_cons, ← ih (List.nodup_cons.1 horder).2]
      cases f.block? id <;> rfl
  refine ⟨?_, fun b hb => ?_⟩
  · unfold layoutIn layout
    rw [blocks_layoutFrom, hids]
    exact horder.filter _
  · obtain ⟨e, he, hblock, -⟩ := mem_layoutFrom hb
    obtain ⟨id, -, he⟩ := List.mem_filterMap.1 he
    obtain ⟨bb, hbb, rfl⟩ := Option.map_eq_some_iff.1 he
    rw [hblock]
    exact lt_blockCapacity hbb

/-- The table of places is filled. -/
lemma exists_places {layout : List BlockLayout} (hnd : (layout.map (·.block)).Nodup)
    (hlt : ∀ b ∈ layout, b.block.index < f.blockCapacity) :
    ∃ m, f.places? layout = .ok m ∧
      ∀ s : BlockId, m[s.index]?.join = layout.findIdx? (·.block = s) := by
  refine ⟨_, foldlM_eq (f := fun m e => m.setIfInBounds e.1.block.index (some e.2))
    (fun (rest : List (BlockLayout × Nat)) m => m.size = f.blockCapacity ∧
      ∀ e ∈ rest, e.1.block.index < f.blockCapacity)
    ?_ ⟨Array.size_replicate, ?_⟩, fun s => ?_⟩
  · rintro e rest m ⟨hsize, hrest⟩
    refine ⟨store?_ok (hsize ▸ hrest e List.mem_cons_self) _, ?_,
      fun x hx => hrest x (List.mem_cons_of_mem _ hx)⟩
    rw [Array.size_setIfInBounds, hsize]
  · exact fun e he => hlt e.1 (List.fst_mem_of_mem_zipIdx he)
  · rw [places_foldl hnd 0 (fun b hb => by simpa using hlt b hb)]
    have hnone : (Array.replicate f.blockCapacity (none : Option Nat))[s.index]?.join = none := by
      rw [Array.getElem?_replicate]
      split <;> rfl
    rw [hnone]
    cases layout.findIdx? (·.block = s) <;> simp

end Func

/-! ### Equations -/

section Equations

variable {n : Nat} {blocks : List FlowBlock} {a : Array BitSet}

lemma insertAll?_eq {s : BitSet} (hs : s.Over n) {l : List Nat} (hl : ∀ i ∈ l, i < n) :
    s.insertAll? l = .ok (s.insertAll l) := by
  refine foldlM_eq (fun (rest : List Nat) s => s.Over n ∧ ∀ i ∈ rest, i < n) ?_ ⟨hs, hl⟩
  rintro i rest s ⟨hs, hrest⟩
  refine ⟨?_, hs.insert i, fun j hj => hrest j (List.mem_cons_of_mem _ hj)⟩
  rw [hs.insert?_ok (hrest i List.mem_cons_self)]
  rfl

/-- The equations of a block whose registers exist are set up. -/
lemma FlowBlock.ofLayout?_eq (f : Func) {layout : List BlockLayout} {places : Array (Option Nat)}
    (hplaces : ∀ s : BlockId, places[s.index]?.join = layout.findIdx? (·.block = s))
    {b : BlockLayout} (hb : b.Over n) :
    FlowBlock.ofLayout? f n places b = .ok (.ofLayout f n layout b) := by
  unfold ofLayout? ofLayout
  rw [insertAll?_eq (.empty n) (List.forall_mem_map.2 hb.written), ok_bind,
    insertAll?_eq (.empty n) (List.forall_mem_map.2 hb.read), ok_bind,
    (over_insertAll n _).sdiff?_ok (over_insertAll n _), ok_bind]
  simp only [hplaces]
  rfl

lemma FlowBlock.liveOut?_eq (h : ∀ i, (liveInAt n a i).Over n) {b : FlowBlock}
    (hb : ∀ s ∈ b.succs, s < a.size) : b.liveOut? n a = .ok (b.liveOut n a) := by
  refine foldlM_eq (fun (rest : List Nat) out => out.Over n ∧ ∀ s ∈ rest, s < a.size) ?_
    ⟨.empty n, hb⟩
  rintro s rest out ⟨hout, hrest⟩
  refine ⟨?_, hout.union (h s), fun x hx => hrest x (List.mem_cons_of_mem _ hx)⟩
  rw [load?_ok (hrest s List.mem_cons_self) (.empty n), ok_bind, hout.union?_ok (h s)]
  rfl

lemma FlowBlock.Over.liveInOf?_eq {b : FlowBlock} (hb : b.Over n) {out : BitSet}
    (hout : out.Over n) : b.liveInOf? out = .ok (b.liveInOf out) := by
  unfold liveInOf?
  rw [hout.sdiff?_ok hb.writes, ok_bind, (hout.sdiff hb.writes).union?_ok hb.needs]
  rfl

variable (hblocks : ∀ b ∈ blocks, b.Over n)
  (hsuccs : ∀ b ∈ blocks, ∀ s ∈ b.succs, s < blocks.length)

include hblocks hsuccs

/-- An update of one block is not refused. -/
lemma Grown.sweepBlock?_eq (h : Grown n blocks a) {b : FlowBlock} {k : Nat}
    (hb : blocks[k]? = some b) :
    sweepBlock? n a (b, k) = .ok (SsaBackend.sweepBlock n a (b, k)) := by
  have hmem := List.mem_of_getElem? hb
  have hk : k < a.size := h.size ▸ (List.getElem?_eq_some_iff.1 hb).1
  unfold sweepBlock?
  rw [FlowBlock.liveOut?_eq h.inRange (h.size ▸ hsuccs b hmem), ok_bind,
    (hblocks b hmem).liveInOf?_eq (FlowBlock.over_liveOut h.inRange b), ok_bind, store?_ok hk]
  rfl

/-- The sweeps are made without a false step, and end. -/
lemma solveLiveIn?_eq : solveLiveIn? n blocks = .ok (solveLiveIn n blocks) := by
  refine repeatToEnd?_eq (Grown n blocks) (fun a h => ?_) (fun a a' h hstep => ?_)
    (Grown.init n blocks) ?_
  · have hsweep : blocks.zipIdx.reverse.foldlM (sweepBlock? n) a = .ok (sweep n blocks a) := by
      refine foldlM_eq (fun (rest : List (FlowBlock × Nat)) a => Grown n blocks a ∧
        ∀ e ∈ rest, blocks[e.2]? = some e.1) ?_ ⟨h, fun e he => ?_⟩
      · rintro e rest a ⟨ha, hrest⟩
        have he := hrest e List.mem_cons_self
        exact ⟨ha.sweepBlock?_eq hblocks hsuccs he, (ha.sweepBlock hblocks he).1,
          fun x hx => hrest x (List.mem_cons_of_mem _ hx)⟩
      · exact List.mem_zipIdx_iff_getElem?.1 (List.mem_reverse.1 he)
    unfold sweepStep? sweepStep
    rw [hsweep]
    rfl
  · obtain ⟨rfl, -⟩ := sweepStep_eq hstep
    exact (h.sweep hblocks).1
  · exact sweepStep_solveLiveIn hblocks

/-- Nor is a false step made in the last sweep. -/
lemma solveFlow?_eq : solveFlow? n blocks = .ok (solveFlow n blocks) := by
  unfold solveFlow?
  rw [solveLiveIn?_eq hblocks hsuccs, ok_bind]
  refine foldlM_eq (fun (rest : List (FlowBlock × Nat)) (t : FlowTables) =>
    Grown n blocks t.liveIn ∧ t.liveOut.size = blocks.length ∧
      ∀ e ∈ rest, blocks[e.2]? = some e.1) ?_
    ⟨grown_solveLiveIn hblocks, Array.size_replicate, fun e he => ?_⟩
  · rintro ⟨b, k⟩ rest t ⟨hin, hout, hrest⟩
    have hb := hrest _ List.mem_cons_self
    have hk : k < blocks.length := (List.getElem?_eq_some_iff.1 hb).1
    have hmem := List.mem_of_getElem? hb
    refine ⟨?_, (hin.sweepBlock hblocks hb).1, (Array.size_setIfInBounds ..).trans hout,
      fun x hx => hrest x (List.mem_cons_of_mem _ hx)⟩
    unfold FlowTables.update?
    rw [FlowBlock.liveOut?_eq hin.inRange (hin.size ▸ hsuccs b hmem), ok_bind,
      (hblocks b hmem).liveInOf?_eq (FlowBlock.over_liveOut hin.inRange b), ok_bind,
      store?_ok (hin.size ▸ hk), ok_bind, store?_ok (hout ▸ hk)]
    rfl
  · exact List.mem_zipIdx_iff_getElem?.1 (List.mem_reverse.1 he)

omit hblocks hsuccs

/-- Successors have places. -/
lemma FlowBlock.lt_of_mem_succs {f : Func} {layout : List BlockLayout} {b : BlockLayout} {s : Nat}
    (hs : s ∈ (FlowBlock.ofLayout f n layout b).succs) : s < layout.length := by
  obtain ⟨c, -, hc⟩ := List.mem_filterMap.1 hs
  exact (List.findIdx?_eq_some_iff_getElem.1 hc).1

/-- Liveness is solved without a false step for the blocks of a layout that are there, each of
them once, and read and write registers that exist. -/
lemma Func.solveLiveness?_eq {f : Func} {layout : List BlockLayout}
    (hnd : (layout.map (·.block)).Nodup) (hlt : ∀ b ∈ layout, b.block.index < f.blockCapacity)
    (hover : ∀ b ∈ layout, b.Over n) :
    f.solveLiveness? n layout = .ok (f.solveLiveness n layout) := by
  obtain ⟨m, hm, hplaces⟩ := exists_places hnd hlt
  unfold solveLiveness? solveLiveness
  rw [hm, ok_bind, mapM_ok fun b hb => FlowBlock.ofLayout?_eq f hplaces (hover b hb), ok_bind]
  refine solveFlow?_eq (List.forall_mem_map.2 fun b _ => FlowBlock.over_ofLayout ..)
    (List.forall_mem_map.2 fun b _ s hs => ?_)
  rw [List.length_map]
  exact FlowBlock.lt_of_mem_succs hs

end Equations

/-! ### Going back over a block -/

/-- A register is not needed in front of the first point that writes it, unless it is read up to
there. -/
lemma not_needed {r : VirtReg} {out : Prop} {before after : List Point} {p : Point}
    (hw : p.writes = some r) (hreads : ∀ q ∈ before ++ [p], r ∉ q.reads) :
    ¬ Needed r out (before ++ p :: after) := by
  induction before with
  | nil =>
    rintro (hr | ⟨hne, -⟩)
    · exact hreads p List.mem_cons_self hr
    · exact hne hw
  | cons q rest ih =>
    rintro (hr | ⟨-, h⟩)
    · exact hreads q List.mem_cons_self hr
    · exact ih (fun x hx => hreads x (List.mem_cons_of_mem _ hx)) h

/-- A register that the points do not write is needed in front of them if one reads it or it is
live behind them. -/
lemma needed_of_unwritten {r : VirtReg} {out : Prop} {points : List Point}
    (h : ∀ p ∈ points, p.writes ≠ some r) :
    Needed r out points ↔ out ∨ ∃ p ∈ points, r ∈ p.reads := by
  induction points with
  | nil => simp [Needed]
  | cons p rest ih =>
    have hp := h p List.mem_cons_self
    rw [Needed, ih fun q hq => h q (List.mem_cons_of_mem _ hq)]
    simp only [ne_eq, hp, not_false_eq_true, true_and, List.mem_cons, exists_eq_or_imp]
    exact or_left_comm

/-- What is written before it is read: if a point writes the register, then one does so before the
register is read. -/
def WrittenFirst (r : VirtReg) (points : List Point) : Prop :=
  (∃ p ∈ points, p.writes = some r) → ∃ before p after, points = before ++ p :: after ∧
    p.writes = some r ∧ ∀ q ∈ before ++ [p], r ∉ q.reads

namespace WrittenFirst

variable {r : VirtReg} {points : List Point}

lemma append (h : WrittenFirst r points) {last : List Point}
    (hlast : ∀ p ∈ last, p.writes ≠ some r) : WrittenFirst r (points ++ last) := by
  rintro ⟨p, hp, hw⟩
  have hp : p ∈ points := (List.mem_append.1 hp).resolve_right fun hp => hlast p hp hw
  obtain ⟨before, q, after, rfl, hq, hreads⟩ := h ⟨p, hp, hw⟩
  exact ⟨before, q, after ++ last, by simp, hq, hreads⟩

lemma prepend (h : WrittenFirst r points) {first : List Point}
    (hfirst : ∀ p ∈ first, r ∉ p.reads) : WrittenFirst r (first ++ points) := by
  rintro ⟨p, hp, hw⟩
  rcases List.mem_append.1 hp with hp | hp
  · obtain ⟨before, after, rfl⟩ := List.append_of_mem hp
    refine ⟨before, p, after ++ points, by simp, hw, fun q hq => hfirst q ?_⟩
    simp only [List.mem_append, List.mem_cons, List.not_mem_nil, or_false] at hq ⊢
    exact hq.imp_right .inl
  · obtain ⟨before, q, after, rfl, hq, hreads⟩ := h ⟨p, hp, hw⟩
    refine ⟨first ++ before, q, after, by simp, hq, fun x hx => ?_⟩
    rw [List.append_assoc] at hx
    exact (List.mem_append.1 hx).elim (hfirst x) (hreads x)

/-- In front of points that write before they read, what is needed is what the equations say. -/
lemma needed_iff {out : Prop} (h : WrittenFirst r points) : Needed r out points ↔
    (out ∨ ∃ p ∈ points, r ∈ p.reads) ∧ ∀ p ∈ points, p.writes ≠ some r := by
  by_cases hw : ∃ p ∈ points, p.writes = some r
  · obtain ⟨before, p, after, rfl, hp, hreads⟩ := h hw
    refine iff_of_false (not_needed hp hreads) fun hnone => ?_
    exact hnone.2 p (List.mem_append_right _ List.mem_cons_self) hp
  · have hnone : ∀ p ∈ points, p.writes ≠ some r := fun p hp he => hw ⟨p, hp, he⟩
    rw [needed_of_unwritten hnone]
    exact (and_iff_left hnone).symm

end WrittenFirst

namespace Func

variable {f : Func} {vs : List Value} {ivs : Intervals}

lemma reads_leadingPoints {id : BlockId} {b : Block} {p : Point}
    (hp : p ∈ f.leadingPoints ivs id b) : p.reads = [] := by
  unfold leadingPoints at hp
  simp only at hp
  split at hp
  · rw [List.mem_singleton.1 hp]
  · obtain ⟨r, -, rfl⟩ := List.mem_map.1 hp
    rfl

lemma writes_copyPoints {id : BlockId} {p : Point} (hp : p ∈ f.copyPoints ivs id) :
    p.writes = none := by
  obtain ⟨r, -, rfl⟩ := List.mem_map.1 hp
  rfl

/-- An instruction with a register has a result. -/
lemma hasResult_of_registerValues {order : List BlockId} {j : InstId}
    (h : .inst j ∈ f.registerValues order) :
    ∃ q, f.inst? j = some q ∧ q.inst.hasResult = true := by
  unfold registerValues at h
  rcases List.mem_append.1 h with h | h
  · obtain ⟨n, -, hn⟩ := List.mem_map.1 h
    cases hn
  · obtain ⟨i, hi, hij⟩ := List.mem_map.1 h
    cases hij
    obtain ⟨bb, -, hi⟩ := List.mem_flatMap.1 hi
    exact (Option.any_eq_true _ _).1 (List.mem_filter.1 hi).2

/-- The first time that an instruction is listed, it has not been read in its block. -/
lemma writtenFirst_bodyPoints {order : List BlockId} (h : Numbered (f.registerValues order) ivs)
    (hlate : f.ReadsLate) {id : BlockId} {b : Block} (hb : f.block? id = some b) (r : VirtReg) :
    WrittenFirst r (f.bodyPoints ivs b) := by
  rintro ⟨p, hp, hw⟩
  obtain ⟨j, hj, hpoint⟩ := List.mem_filterMap.1 hp
  obtain ⟨pj, hpj, rfl⟩ := Option.map_eq_some_iff.1 hpoint
  obtain ⟨pre, post, hsplit, hpre⟩ := List.eq_append_cons_of_mem hj
  have hbody : f.bodyPoints ivs b = f.bodyPoints ivs { b with body := pre } ++
      ⟨regsOf ivs pj.inst.operands, ivs.regOf? (.inst j)⟩ ::
        f.bodyPoints ivs { b with body := post } := by
    unfold bodyPoints
    rw [hsplit, List.filterMap_append, List.filterMap_cons, hpj]
    rfl
  obtain ⟨qj, hqj, hres⟩ := hasResult_of_registerValues (List.mem_of_getElem? (h.regOf _ _ hw))
  -- whoever reads it has a listing of it in front, and the first has none
  have hreads : ∀ i ∈ pre ++ [j], ∀ q, f.inst? i = some q → r ∉ regsOf ivs q.inst.operands := by
    intro i hi q hq hr
    obtain ⟨v, hv, hreg⟩ := mem_regsOf.1 hr
    rw [h.regOf_inj hreg hw] at hv
    rcases List.mem_append.1 hi with hi | hi
    · obtain ⟨first, last, rfl⟩ := List.append_of_mem hi
      have := hlate id b hb first i (last ++ j :: post) (by simpa using hsplit) q hq j qj hv
        hj hqj hres
      exact hpre (List.mem_append_left _ this)
    · obtain rfl := List.mem_singleton.1 hi
      exact hpre (hlate id b hb pre i post hsplit q hq i qj hv hj hqj hres)
  refine ⟨f.bodyPoints ivs { b with body := pre }, _, f.bodyPoints ivs { b with body := post },
    hbody, hw, fun q hq => ?_⟩
  rcases List.mem_append.1 hq with hq | hq
  · obtain ⟨i, hi, hq⟩ := List.mem_filterMap.1 hq
    obtain ⟨pi, hpi, rfl⟩ := Option.map_eq_some_iff.1 hq
    exact hreads i (List.mem_append_left _ hi) pi hpi
  · obtain rfl := List.mem_singleton.1 hq
    exact hreads j (List.mem_append_right _ List.mem_cons_self) pj hpj

/-- A block of a function that reads late writes a register before it reads it. -/
lemma writtenFirst_blockPoints {order : List BlockId} (h : Numbered (f.registerValues order) ivs)
    (hlate : f.ReadsLate) {id : BlockId} {b : Block} (hb : f.block? id = some b) (r : VirtReg) :
    WrittenFirst r (f.blockPoints ivs id b) := by
  have hleading : ∀ p ∈ f.leadingPoints ivs id b, r ∉ p.reads := by
    intro p hp
    rw [reads_leadingPoints hp]
    exact List.not_mem_nil
  have hcopies : ∀ p ∈ f.copyPoints ivs id, p.writes ≠ some r := by
    intro p hp
    rw [writes_copyPoints hp]
    exact (Option.some_ne_none r).symm
  have hend : ∀ p ∈ [endPoint ivs b], p.writes ≠ some r := by
    intro p hp
    rw [List.mem_singleton.1 hp]
    exact (Option.some_ne_none r).symm
  exact (((writtenFirst_bodyPoints h hlate hb r).prepend hleading).append hcopies).append hend

end Func

namespace LiveScan

variable {regs : Intervals} {s : LiveScan}

/-- The tables of a scan for the registers `regs`, the costs included. -/
structure Whole (regs : Intervals) (s : LiveScan) : Prop extends s.Over regs where
  cost : s.cost.size = regs.size

lemma whole_init (regs : Intervals) : (LiveScan.init regs).Whole regs :=
  ⟨Func.over_init regs, by simp [LiveScan.init]⟩

lemma write?_eq (h : s.Whole regs) (c : Weight) (pos : Nat) {r : VirtReg}
    (hr : r.index < regs.size) :
    write? c pos s r = .ok (write c pos s r) ∧ (write c pos s r).Whole regs := by
  have hcost : (write c pos s r).cost = s.cost.modify r.index (·.add c) := rfl
  refine ⟨?_, over_write h.toOver c pos hr, ?_⟩
  · unfold write? write
    dsimp only
    rw [update?_ok (h.cost.symm ▸ hr), ok_bind, h.live.erase?_ok hr, ok_bind]
    dsimp only
    split
    · rw [load?_ok (h.stopAt.symm ▸ hr) 0]
      rfl
    · rfl
  · rw [hcost, Array.size_modify, h.cost]

lemma read?_eq (h : s.Whole regs) (c : Weight) (pos : Nat) {r : VirtReg}
    (hr : r.index < regs.size) :
    read? c pos s r = .ok (read c pos s r) ∧ (read c pos s r).Whole regs := by
  have hcost : (read c pos s r).cost = s.cost.modify r.index (·.add c) := by
    unfold read
    dsimp only
    split <;> rfl
  refine ⟨?_, over_read h.toOver c pos r, ?_⟩
  · unfold read?
    rw [update?_ok (h.cost.symm ▸ hr), ok_bind, h.live.insert?_ok hr, ok_bind]
    dsimp only
    by_cases hlive : s.live.contains r.index = true
    · rw [if_neg (by simp [hlive])]
      exact congrArg Except.ok (if_pos hlive).symm
    · rw [if_pos (by simp [hlive]), store?_ok (h.stopAt.symm ▸ hr)]
      exact congrArg Except.ok (if_neg hlive).symm
  · rw [hcost, Array.size_modify, h.cost]

/-- Going back over a point whose registers exist is not refused. -/
lemma point?_eq (h : s.Whole regs) (c : Weight) {e : Point × Nat} (he : e.1.Over regs.size)
    (hslot : e.2 * 4 + 3 < slotLimit) :
    point? c s e = .ok (point c s e) ∧ (point c s e).Whole regs := by
  have hwrite : e.1.writes.elim (pure s) (write? c e.2 s) =
        .ok (e.1.writes.elim s (write c e.2 s)) ∧
      (e.1.writes.elim s (write c e.2 s)).Whole regs := by
    cases hw : e.1.writes with
    | none => exact ⟨rfl, h⟩
    | some r => exact write?_eq h c e.2 (he.writes r hw)
  obtain ⟨hwrite, hs⟩ := hwrite
  have hreads := foldlM_eq_and (f := read c e.2)
    (fun (rest : List VirtReg) s => s.Whole regs ∧ ∀ r ∈ rest, r.index < regs.size)
    (fun r rest s hs => by
      obtain ⟨heq, hwhole⟩ := read?_eq hs.1 c e.2 (hs.2 r List.mem_cons_self)
      exact ⟨heq, hwhole, fun q hq => hs.2 q (List.mem_cons_of_mem _ hq)⟩) ⟨hs, he.reads⟩
  unfold point? point
  rw [ensure_ok hslot, ok_bind, hwrite, ok_bind]
  exact ⟨hreads.1, hreads.2.1⟩

/-- Going back over points of a numbered line is not refused. -/
lemma points?_eq (h : s.Whole regs) (c : Weight) {l : List (Point × Nat)}
    (hl : ∀ e ∈ l, e.1.Over regs.size ∧ e.2 * 4 + 3 < slotLimit) :
    l.foldlM (point? c) s = .ok (l.foldl (point c) s) ∧ (l.foldl (point c) s).Whole regs := by
  obtain ⟨heq, hwhole, -⟩ := foldlM_eq_and
    (fun (rest : List (Point × Nat)) (s : LiveScan) => s.Whole regs ∧
      ∀ e ∈ rest, e.1.Over regs.size ∧ e.2 * 4 + 3 < slotLimit)
    (fun e rest s hs => by
      obtain ⟨he, hpos⟩ := hs.2 e List.mem_cons_self
      obtain ⟨heq, hwhole⟩ := point?_eq hs.1 c he hpos
      exact ⟨heq, hwhole, fun x hx => hs.2 x (List.mem_cons_of_mem _ hx)⟩) ⟨h, hl⟩
  exact ⟨heq, hwhole⟩

/-- Behind which points a register is live: where it is needed. -/
lemma isSome_stop_points {r : VirtReg} {out : Bool} {points : List Point} (next pos : Nat)
    (li : Interval) :
    ((points.zipIdx pos).foldr (Trace.point r) (Trace.behind next out li)).stop.isSome = true ↔
      Needed r (out = true) points := by
  induction points generalizing pos with
  | nil => cases out <;> simp [Trace.behind, Needed]
  | cons p rest ih =>
    rw [List.zipIdx_cons, List.foldr_cons, Trace.stop_point, Needed, ← ih (pos + 1)]
    by_cases hr : r ∈ p.reads
    · simp [hr]
    · by_cases hw : p.writes = some r
      · simp [hr, hw]
      · simp [hr, hw]

lemma SameNames.exists_get? {ivs : Intervals} (h : SameNames regs ivs) {r : VirtReg}
    (hr : r.index < regs.size) : ∃ li, ivs.get? r = some li := by
  rw [← h.size] at hr
  exact ⟨_, Array.getElem?_eq_getElem hr⟩

/-- Going back over the points of a block leaves the registers live that are needed in front. -/
lemma bit_live_points (h : s.Over regs) {b : BlockLayout} {out : BitSet}
    (hout : out.Over regs.size) (hb : ∀ p ∈ b.points, p.Over regs.size) {r : VirtReg}
    (hr : r.index < regs.size) :
    ((b.points.zipIdx b.start).foldr (fun e s => s.point (costAt b.depth) e)
        (s.behind b out)).live.bit r.index = true ↔
      Needed r (out.bit r.index = true) b.points := by
  obtain ⟨hover, htrace⟩ := trace?_points (over_behind h b hout) (costAt b.depth)
    (l := b.points.zipIdx b.start) fun e he => hb e.1 (List.fst_mem_of_mem_zipIdx he)
  have hpoints := htrace r
  rw [trace?_behind h b hr] at hpoints
  generalize (b.points.zipIdx b.start).foldr (fun e s => s.point (costAt b.depth) e)
    (s.behind b out) = s' at hover hpoints ⊢
  obtain ⟨li, hli⟩ := h.names.exists_get? hr
  obtain ⟨lj, hlj⟩ := hover.names.exists_get? hr
  unfold trace? at hpoints
  rw [hli, hlj] at hpoints
  have hstop := congrArg (fun t : Trace => t.stop.isSome) (Option.some.inj hpoints)
  rw [← isSome_stop_points b.next b.start li, ← hstop]
  dsimp only
  cases s'.live.bit r.index <;> simp

/-- Every register that is live behind a block has a place for its end. -/
lemma stops?_eq (h : s.Whole regs) {out : BitSet} (hout : out.Over regs.size) (stop : Nat) :
    out.toList.foldlM (fun m r => store? m r stop) s.stopAt =
      .ok (out.toList.foldl (fun m r => m.setIfInBounds r stop) s.stopAt) := by
  refine foldlM_eq (fun (rest : List Nat) m => m.size = regs.size ∧ ∀ r ∈ rest, r < regs.size)
    ?_ ⟨h.stopAt, fun r hr => ?_⟩
  · rintro r rest m ⟨hsize, hrest⟩
    refine ⟨store?_ok (hsize ▸ hrest r List.mem_cons_self) _, ?_,
      fun q hq => hrest q (List.mem_cons_of_mem _ hq)⟩
    rw [Array.size_setIfInBounds, hsize]
  · exact hout.bit_lt ((BitSet.mem_toList_iff_bit _ _).1 hr)

/-- Every register that is live in front of a block has an end. -/
lemma enter?_eq (h : s.Whole regs) (start : Nat) :
    s.live.toList.foldlM (fun ivs r => do
        let stop ← load? s.stopAt r
        return ivs.modify ⟨r⟩ (·.addSegment (start * 4) stop)) s.intervals =
      .ok (s.enter start).intervals := by
  refine foldlM_eq (fun (rest : List Nat) _ => ∀ r ∈ rest, r < s.stopAt.size) ?_ fun r hr => ?_
  · intro r rest ivs hrest
    rw [load?_ok (hrest r List.mem_cons_self) 0]
    exact ⟨rfl, fun q hq => hrest q (List.mem_cons_of_mem _ hq)⟩
  · rw [h.stopAt]
    exact h.live.bit_lt ((BitSet.mem_toList_iff_bit _ _).1 hr)

/-- Going back over a block is not refused, if what the equations say of it is what its points
say. -/
lemma block?_eq (h : s.Whole regs) {b : BlockLayout} {out liveIn : BitSet}
    (hout : out.Over regs.size) (hb : ∀ p ∈ b.points, p.Over regs.size)
    (hslot : b.next * 4 < slotLimit) (hliveIn : liveIn.Over regs.size)
    (hlive : ∀ r : VirtReg, r.index < regs.size →
      (liveIn.bit r.index = true ↔ Needed r (out.bit r.index = true) b.points)) :
    s.block? b out liveIn = .ok (s.block b out) ∧ (s.block b out).Whole regs := by
  have hpos : ∀ e ∈ (b.points.zipIdx b.start).reverse,
      e.1.Over regs.size ∧ e.2 * 4 + 3 < slotLimit := by
    intro e he
    have hmem := List.mem_reverse.1 he
    refine ⟨hb e.1 (List.fst_mem_of_mem_zipIdx hmem), ?_⟩
    have hlt := List.snd_lt_of_mem_zipIdx hmem
    unfold BlockLayout.next at hslot
    omega
  obtain ⟨hpoints, hscan⟩ :=
    points?_eq ⟨over_behind h.toOver b hout, h.cost⟩ (costAt b.depth) hpos
  have hbit : ∀ r : VirtReg, r.index < regs.size →
      (((b.points.zipIdx b.start).reverse.foldl (point (costAt b.depth))
        (s.behind b out)).live.bit r.index = true ↔
        Needed r (out.bit r.index = true) b.points) := by
    intro r hr
    rw [List.foldl_reverse]
    exact bit_live_points h.toOver hout hb hr
  have hblock : s.block b out = enter ((b.points.zipIdx b.start).reverse.foldl
    (point (costAt b.depth)) (s.behind b out)) b.start := rfl
  rw [hblock]
  unfold block?
  rw [ensure_ok hslot, ok_bind, stops?_eq h hout, ok_bind]
  change (do
    let s ← (b.points.zipIdx b.start).reverse.foldlM (point? (costAt b.depth)) (s.behind b out)
    _) = _ ∧ _
  rw [hpoints, ok_bind]
  generalize (b.points.zipIdx b.start).reverse.foldl (point (costAt b.depth)) (s.behind b out)
    = s' at hscan hbit ⊢
  -- the points need what the equations say, so the two sets have the same bits
  have hsame : s'.live = liveIn := by
    refine hscan.live.ext hliveIn fun i hi => Bool.eq_iff_iff.2 ?_
    exact (hbit ⟨i⟩ hi).trans (hlive ⟨i⟩ hi).symm
  rw [ensure_ok hsame, ok_bind, enter?_eq hscan b.start, ok_bind]
  exact ⟨rfl, ⟨hscan.names.modifyAll _ _, hscan.live, hscan.stopAt⟩, hscan.cost⟩

end LiveScan

/-! ### All blocks -/

namespace Func

variable {f : Func} {loops : LoopForest} {order : List BlockId}

/-- What the equations of a block say of what is live into it. -/
lemma bit_liveInOf_ofLayout {n : Nat} {layout : List BlockLayout} {b : BlockLayout}
    (hb : b.Over n) {out : BitSet} (hout : out.Over n) (r : VirtReg) :
    ((FlowBlock.ofLayout f n layout b).liveInOf out).bit r.index = true ↔
      (out.bit r.index = true ∨ r ∈ b.read) ∧ r ∉ b.written := by
  rw [(FlowBlock.over_ofLayout f n layout b).bit_liveInOf hout, FlowBlock.bit_needs_ofLayout hb,
    ← Bool.not_eq_true, FlowBlock.bit_writes_ofLayout hb, or_and_right]

/-- The blocks of the layout write what they read first. -/
lemma writtenFirst_layoutIn (hlate : f.ReadsLate) {b : BlockLayout}
    (hb : b ∈ f.layoutIn loops order) (r : VirtReg) : WrittenFirst r b.points := by
  obtain ⟨e, he, -, hpoints⟩ := mem_layoutFrom hb
  obtain ⟨id, -, he⟩ := List.mem_filterMap.1 he
  obtain ⟨bb, hbb, rfl⟩ := Option.map_eq_some_iff.1 he
  rw [hpoints]
  exact writtenFirst_blockPoints (f.numbered_newRegisters order) hlate hbb r

section All

variable (horder : order.Nodup) (hlate : f.ReadsLate)
  (hslots : ∀ b ∈ f.layoutIn loops order, b.next * 4 < slotLimit)

include hlate hslots

/-- Going back over a block of the layout is not refused, and comes to what is live into it. -/
lemma blockAt?_eq {s : LiveScan} (hs : s.Whole (f.newRegisters order)) {b : BlockLayout} {k : Nat}
    (hb : (f.layoutIn loops order)[k]? = some b) :
    let flow := f.solveLiveness (f.newRegisters order).size (f.layoutIn loops order)
    s.blockAt? flow (b, k) = .ok (s.block b (f.liveOutIn loops order b)) ∧
      (s.block b (f.liveOutIn loops order b)).Whole (f.newRegisters order) := by
  intro flow
  set n := (f.newRegisters order).size
  have hflow : flow = ⟨solveLiveIn n (f.flowIn loops order),
      ((f.layoutIn loops order).map (f.liveOutIn loops order)).toArray⟩ :=
    f.solveLiveness_layoutIn loops order
  have hover := f.over_flowIn loops order
  have hgrown := grown_solveLiveIn hover
  have hmem := List.mem_of_getElem? hb
  have hpoints := over_layout (f.numbered_newRegisters order) hmem
  have hout : (f.liveOutIn loops order b).Over n := f.over_liveOutIn loops order b
  have hfb : (f.flowIn loops order)[k]? =
      some (FlowBlock.ofLayout f n (f.layoutIn loops order) b) := by
    unfold flowIn
    rw [List.getElem?_map, hb]
    rfl
  have hk : k < (solveLiveIn n (f.flowIn loops order)).size :=
    hgrown.size ▸ (List.getElem?_eq_some_iff.1 hfb).1
  have hlive : ∀ r : VirtReg, r.index < n →
      ((liveInAt n (solveLiveIn n (f.flowIn loops order)) k).bit r.index = true ↔
        Needed r ((f.liveOutIn loops order b).bit r.index = true) b.points) := by
    intro r _
    rw [hgrown.solves (sweep_solveLiveIn hover) hfb,
      (writtenFirst_layoutIn hlate hmem r).needed_iff]
    refine (bit_liveInOf_ofLayout (.of_points hpoints) hout r).trans ?_
    rw [BlockLayout.mem_read, BlockLayout.mem_written]
    simp
  unfold LiveScan.blockAt?
  rw [hflow, load?_some (x := f.liveOutIn loops order b) (by simp [hb]), ok_bind,
    load?_ok hk (.empty n), ok_bind]
  exact LiveScan.block?_eq hs hout hpoints (hslots b hmem) (hgrown.inRange k) hlive

include horder

/-- The intervals of the blocks in some order are found without a false step, and with no surprise
about what is live into a block. -/
lemma intervalsIn?_eq (hloops : loops.Places) :
    f.intervalsIn? loops order = .ok (f.intervalsIn loops order) := by
  have hnum := f.numbered_newRegisters order
  obtain ⟨hnd, hlt⟩ := blocks_layoutIn f loops horder
  have hlayout : f.layout? (f.newRegisters order) loops order = .ok (f.layoutIn loops order) :=
    layout?_eq hloops order
  have hsolve := solveLiveness?_eq hnd hlt fun b hb => .of_points (over_layout hnum hb)
  unfold intervalsIn?
  dsimp only
  rw [hlayout, ok_bind, hsolve, ok_bind,
    foldlM_eq (f := fun s e => s.block e.1 (f.liveOutIn loops order e.1))
      (fun (rest : List (BlockLayout × Nat)) s => s.Whole (f.newRegisters order) ∧
        ∀ e ∈ rest, (f.layoutIn loops order)[e.2]? = some e.1) ?_
      ⟨LiveScan.whole_init _, fun e he => List.mem_zipIdx_iff_getElem?.1 he⟩]
  · -- the scan that runs does not ask for the places
    have hfold : ∀ (g : LiveScan → BlockLayout → LiveScan) (l : List BlockLayout) (s : LiveScan),
        l.zipIdx.foldl (fun s e => g s e.1) s = l.foldl g s := by
      intro g l s
      rw [← List.foldl_map, List.zipIdx_map_fst]
    rw [ok_bind, hfold fun s b => s.block b (f.liveOutIn loops order b), intervalsIn_eq]
    unfold scanIn
    rw [List.foldl_map]
    rfl
  · rintro ⟨b, k⟩ rest s ⟨hs, hrest⟩
    obtain ⟨heq, hwhole⟩ := blockAt?_eq hlate hslots hs (hrest _ List.mem_cons_self)
    exact ⟨heq, hwhole, fun x hx => hrest x (List.mem_cons_of_mem _ hx)⟩

end All

/-- The slots of a function have numbers. -/
def SlotsFit (f : Func) (loops : LoopForest) : Prop :=
  ∀ b ∈ f.layoutIn loops f.blockOrder, b.next * 4 < slotLimit

/-- The live intervals of a function are found without a false step. -/
lemma liveIntervals?_eq (hf : f.EdgesAgree) (hlate : f.ReadsLate)
    (hslots : f.SlotsFit (f.loopForest f.cfg.domTree)) :
    f.liveIntervals? (f.loopForest f.cfg.domTree) =
      f.liveIntervals (f.loopForest f.cfg.domTree) := by
  have hg := hf.consistent
  have horder : f.blockOrder.Nodup :=
    (Digraph.reversePostorder_lists hg hg.entry_lt).1.map fun _ _ h => BlockId.mk.inj h
  unfold liveIntervals?
  rw [Digraph.reversePostorder?_eq hg, ok_bind, (exists_liveIntervals hg _).2]
  exact intervalsIn?_eq horder hlate hslots (places_loopForest hf)

end Func

end SsaBackend
