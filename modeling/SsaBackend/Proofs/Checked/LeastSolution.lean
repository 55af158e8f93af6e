import Mathlib.Order.Bounds.Defs
import Mathlib.Data.Set.Lattice
import SsaBackend.Proofs.Checked.Liveness

/-!
# Liveness is the least solution of its equations

The blocks of a layout, in whatever order and with whatever edges between them, have equations
between the registers live into them and out of them (`Func.SolvesLiveness`). The tables that the
sweeps leave behind solve the equations, and no solution is smaller at any block
(`Func.solveLiveness_isLeast`).

The equations are stated over sets of registers and know nothing of words and places. What is
read off the tables as sets is exactly what follows from the equations in finitely many steps
(`FlowLive`), and what follows from the equations is in every solution.
-/

namespace SsaBackend

/-! ## Tables as sets -/

/-- The registers in the set at a place of a table. -/
def registersAt (a : Array BitSet) (i : Nat) : Set VirtReg :=
  {r | ∃ s, a[i]? = some s ∧ s.contains r.index = true}

/-- A set of registers for each of `k` blocks, in front of the block and behind it. -/
abbrev LiveSets (k : Nat) : Type := (Fin k → Set VirtReg) × (Fin k → Set VirtReg)

/-- What the tables say of the first `k` blocks. -/
def FlowTables.sets (t : FlowTables) (k : Nat) : LiveSets k :=
  (fun i => registersAt t.liveIn i, fun i => registersAt t.liveOut i)

lemma mem_registersAt {n : Nat} {a : Array BitSet} {i : Nat} (h : (liveInAt n a i).Over n)
    (r : VirtReg) : r ∈ registersAt a i ↔ (liveInAt n a i).bit r.index = true := by
  have hget : liveInAt n a i = a[i]?.getD (.empty n) := Array.getD_eq_getD_getElem? ..
  rw [hget] at h ⊢
  show (∃ s, a[i]? = some s ∧ s.contains r.index = true) ↔ _
  cases ha : a[i]? with
  | none => simp [BitSet.bit_empty]
  | some s =>
    rw [ha] at h
    simp [show s.contains r.index = s.bit r.index from h.contains r.index]

/-! ## Solutions -/

namespace Func

variable {f : Func} {n : Nat} {layout : List BlockLayout}

/-- The sets solve the equations of liveness for the blocks of a layout. -/
structure SolvesLiveness (f : Func) (layout : List BlockLayout) (s : LiveSets layout.length) :
    Prop where
  /-- Live out of a block is what is live into a successor that is in the layout. -/
  out_eq : ∀ i, s.2 i = ⋃ j ∈ {j | layout[j].block ∈ f.succs layout[i].block}, s.1 j
  /-- Live into a block is what it reads without writing it, and what it lets through. -/
  into_eq : ∀ i, s.1 i = ({r | r ∈ layout[i].read} \ {r | r ∈ layout[i].written}) ∪
    (s.2 i \ {r | r ∈ layout[i].written})

section

variable (hnd : (layout.map (·.block)).Nodup) (hover : ∀ b ∈ layout, b.Over n)

/-- The equations of the blocks of a layout. -/
abbrev flowOf (f : Func) (n : Nat) (layout : List BlockLayout) : List FlowBlock :=
  layout.map (FlowBlock.ofLayout f n layout)

variable (f n layout) in
lemma over_flowOf : ∀ b ∈ f.flowOf n layout, b.Over n :=
  List.forall_mem_map.2 fun b _ => FlowBlock.over_ofLayout f n layout b

variable (f n layout) in
lemma grown_flowOf : Grown n (f.flowOf n layout) (solveLiveIn n (f.flowOf n layout)) :=
  grown_solveLiveIn (over_flowOf f n layout)

variable (f n layout) in
lemma solveLiveness_eq : f.solveLiveness n layout = ⟨solveLiveIn n (f.flowOf n layout),
    ((f.flowOf n layout).map (·.liveOut n (solveLiveIn n (f.flowOf n layout)))).toArray⟩ :=
  solveFlow_eq (over_flowOf f n layout)

lemma mem_liveIn_iff (i : Nat) (r : VirtReg) :
    r ∈ registersAt (f.solveLiveness n layout).liveIn i ↔
      (liveInAt n (solveLiveIn n (f.flowOf n layout)) i).bit r.index = true := by
  rw [solveLiveness_eq]
  exact mem_registersAt ((grown_flowOf f n layout).inRange i) r

lemma mem_liveOut_iff (i : Fin layout.length) (r : VirtReg) :
    r ∈ registersAt (f.solveLiveness n layout).liveOut i ↔
      ((FlowBlock.ofLayout f n layout layout[i]).liveOut n
        (solveLiveIn n (f.flowOf n layout))).bit r.index = true := by
  unfold registersAt
  rw [solveLiveness_eq]
  simp [(FlowBlock.over_liveOut (grown_flowOf f n layout).inRange _).contains]

include hnd hover

/-- The tables solve the equations. -/
lemma solvesLiveness_sets :
    f.SolvesLiveness layout ((f.solveLiveness n layout).sets layout.length) := by
  have hgrown := grown_flowOf f n layout
  refine ⟨fun i => ?_, fun i => ?_⟩
  · ext r
    refine (mem_liveOut_iff i r).trans ((FlowBlock.bit_liveOut hgrown.inRange _ _).trans ?_)
    simp only [Set.mem_iUnion]
    constructor
    · rintro ⟨j, hsucc, hr⟩
      obtain ⟨c, hc, hmem⟩ := (FlowBlock.mem_succs_ofLayout hnd).1 hsucc
      obtain ⟨hj, rfl⟩ := List.getElem?_eq_some_iff.1 hc
      exact ⟨⟨j, hj⟩, hmem, (mem_liveIn_iff j r).2 hr⟩
    · rintro ⟨j, hmem, hr⟩
      exact ⟨j, (FlowBlock.mem_succs_ofLayout hnd).2 ⟨layout[j], by simp, hmem⟩,
        (mem_liveIn_iff j r).1 hr⟩
  · ext r
    have hb : (f.flowOf n layout)[i.val]? = some (FlowBlock.ofLayout f n layout layout[i]) := by
      simp [flowOf]
    have hregs : layout[i].Over n := hover _ (List.getElem_mem i.isLt)
    -- a sweep would put into the place what stands there already
    refine (mem_liveIn_iff i r).trans ?_
    rw [hgrown.solves (sweep_solveLiveIn (over_flowOf f n layout)) hb,
      bit_liveInOf_ofLayout hregs (FlowBlock.over_liveOut hgrown.inRange _),
      ← mem_liveOut_iff i r, or_and_right, or_comm]
    rfl

/-- What follows from the equations is in every solution. -/
lemma SolvesLiveness.mem_of_flowLive {s : LiveSets layout.length} (hs : f.SolvesLiveness layout s)
    {r : VirtReg} {i : Nat} (h : FlowLive (f.flowOf n layout) r.index i)
    (hi : i < layout.length) : r ∈ s.1 ⟨i, hi⟩ := by
  have hblock : ∀ {i b}, (f.flowOf n layout)[i]? = some b → ∀ hi : i < layout.length,
      b = FlowBlock.ofLayout f n layout layout[i] := by
    intro i b hb hi
    simpa [flowOf, hi, eq_comm] using hb
  -- the two ways in which liveness follows are the two sides of the equation in front of a block
  induction h with
  | @needs i b hb hneeds =>
    obtain rfl := hblock hb hi
    rw [hs.into_eq]
    exact .inl ((FlowBlock.bit_needs_ofLayout (hover _ (List.getElem_mem hi)) r).1 hneeds)
  | @passes i j b hb hw hsucc _ ih =>
    obtain rfl := hblock hb hi
    obtain ⟨c, hc, hmem⟩ := (FlowBlock.mem_succs_ofLayout hnd).1 hsucc
    obtain ⟨hj, rfl⟩ := List.getElem?_eq_some_iff.1 hc
    rw [hs.into_eq]
    refine .inr ⟨?_, fun hwritten => ?_⟩
    · rw [hs.out_eq]
      exact Set.mem_biUnion (x := ⟨j, hj⟩) hmem (ih hj)
    · rw [(FlowBlock.bit_writes_ofLayout (hover _ (List.getElem_mem hi)) r).2 hwritten] at hw
      cases hw

end

/-- Liveness is the least solution. For blocks that are there, each of them listed once, and read
and write registers among the first `n`, the sweeps come to rest, no access on the way is refused,
and the tables have a set for each block in front of it and behind it. These sets solve the
equations, and lie at every block inside those of any other solution. -/
theorem solveLiveness_isLeast (hnd : (layout.map (·.block)).Nodup)
    (hlive : ∀ b ∈ layout, f.hasBlock b.block = true) (hover : ∀ b ∈ layout, b.Over n) :
    Rests (sweepStep n (f.flowOf n layout)) (Array.replicate layout.length (.empty n))
      (f.solveLiveness n layout).liveIn ∧
    f.solveLiveness? n layout = .ok (f.solveLiveness n layout) ∧
    (f.solveLiveness n layout).liveIn.size = layout.length ∧
    (f.solveLiveness n layout).liveOut.size = layout.length ∧
    IsLeast {s | f.SolvesLiveness layout s} ((f.solveLiveness n layout).sets layout.length) := by
  have hflow := over_flowOf f n layout
  have hlen : (f.flowOf n layout).length = layout.length := List.length_map _
  have hsolves := solvesLiveness_sets (f := f) hnd hover
  refine ⟨?_, ?_, ?_, ?_, hsolves, fun s hs => ?_⟩
  · rw [solveLiveness_eq, ← hlen]
    exact rests_repeatUpTo (sweepStep_solveLiveIn hflow)
  · exact solveLiveness?_eq hnd (fun b hb => lt_blockCapacity_of_hasBlock (hlive b hb)) hover
  · rw [solveLiveness_eq]
    exact (grown_flowOf f n layout).size.trans hlen
  · rw [solveLiveness_eq]
    simp
  · have hinto : ∀ i, ((f.solveLiveness n layout).sets layout.length).1 i ⊆ s.1 i := by
      intro i r hr
      have hlive := (bit_solveLiveIn hflow i r.index).1 ((mem_liveIn_iff i r).1 hr)
      exact hs.mem_of_flowLive hnd hover hlive i.isLt
    refine ⟨hinto, fun i => ?_⟩
    -- the equation behind a block takes smaller sets to smaller ones
    rw [hsolves.out_eq, hs.out_eq]
    exact Set.biUnion_mono subset_rfl fun j _ => hinto j

end Func

/-- A layout of the loop of `rotation` and of what follows it, listed from the end. The loop reads
the first register and writes the third; the second passes through it to where it is read. -/
def rotationTail : List BlockLayout :=
  [⟨⟨2⟩, 0, [{ reads := [⟨1⟩, ⟨2⟩] }], 0⟩, ⟨⟨1⟩, 1, [{ reads := [⟨0⟩], writes := some ⟨2⟩ }], 1⟩]

theorem solveLiveness_rotationTail :
    (rotation.solveLiveness 3 rotationTail).liveIn.toList.map (·.toList) = [[1, 2], [0, 1]] ∧
    (rotation.solveLiveness 3 rotationTail).liveOut.toList.map (·.toList) = [[], [0, 1, 2]] ∧
    IsLeast {s | rotation.SolvesLiveness rotationTail s}
      ((rotation.solveLiveness 3 rotationTail).sets 2) := by
  have hnd : (rotationTail.map (·.block)).Nodup := by decide
  have hlive : ∀ b ∈ rotationTail, rotation.hasBlock b.block = true := by decide
  have hover : ∀ b ∈ rotationTail, b.Over 3 := by decide
  obtain ⟨-, -, -, -, hleast⟩ := Func.solveLiveness_isLeast hnd hlive hover
  exact ⟨by decide +kernel, by decide +kernel, hleast⟩

end SsaBackend
