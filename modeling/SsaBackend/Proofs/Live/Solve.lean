import SsaBackend.Live.Solve
import SsaBackend.Proofs.BitSet
import SsaBackend.Proofs.Tables

/-!
# The least solution of the liveness equations

The equations of the blocks have a least solution: a register is live into a block if that
follows from the equations in finitely many steps (`FlowLive`). The sweeps compute it
(`bit_solveLiveIn`). Between two updates every set lies below what the equations make of it, so
the sets only grow, and every sweep but the last adds a register to a block; and nothing is ever
added that does not follow from the equations (`Grown`). When a sweep changes nothing, no update
in it did, and the equations hold. What such a sweep writes down as live out of a block then
follows from what is live into the blocks in the end (`solveFlow_eq`), although it is written
while the sweep is under way.
-/

namespace SsaBackend

/-- That the register is live into a block follows from the equations. -/
inductive FlowLive (blocks : List FlowBlock) (r : Nat) : Nat → Prop
  | needs {i : Nat} {b : FlowBlock} (hb : blocks[i]? = some b) (h : b.needs.bit r = true) :
    FlowLive blocks r i
  | passes {i s : Nat} {b : FlowBlock} (hb : blocks[i]? = some b) (hw : b.writes.bit r = false)
    (hs : s ∈ b.succs) (h : FlowLive blocks r s) : FlowLive blocks r i

/-- A sum goes down with one of its terms, if none goes up. -/
lemma total_map_lt {α : Type} {f g : α → Nat} {l : List α} (hle : ∀ a ∈ l, f a ≤ g a) {a : α}
    (ha : a ∈ l) (hlt : f a < g a) : total (l.map f) < total (l.map g) := by
  induction l with
  | nil => cases ha
  | cons b rest ih =>
    rw [List.map_cons, List.map_cons, total_cons, total_cons]
    have hb := hle b (List.mem_cons_self ..)
    have hrest : ∀ c ∈ rest, f c ≤ g c := fun c hc => hle c (List.mem_cons_of_mem _ hc)
    rcases List.mem_cons.1 ha with rfl | ha
    · have := total_map_le hrest
      omega
    · have := ih hrest ha
      omega

section

variable {n : Nat} {blocks : List FlowBlock} {a : Array BitSet}

/-! ## One equation -/

/-- The registers live into a block, as the table has them. -/
abbrev liveInAt (n : Nat) (a : Array BitSet) (i : Nat) : BitSet := a.getD i (.empty n)

/-- The sets of a block are sets of registers below `n`. -/
structure FlowBlock.Over (n : Nat) (b : FlowBlock) : Prop where
  needs : b.needs.Over n
  writes : b.writes.Over n

namespace FlowBlock

lemma over_unions (h : ∀ i, (liveInAt n a i).Over n) {out : BitSet} (hout : out.Over n)
    (l : List Nat) : (l.foldl (fun out s => out.union (liveInAt n a s)) out).Over n := by
  induction l generalizing out with
  | nil => exact hout
  | cons s rest ih => exact ih (hout.union (h s))

lemma bit_unions (h : ∀ i, (liveInAt n a i).Over n) {out : BitSet} (hout : out.Over n)
    (l : List Nat) (r : Nat) :
    (l.foldl (fun out s => out.union (liveInAt n a s)) out).bit r = true ↔
      out.bit r = true ∨ ∃ s ∈ l, (liveInAt n a s).bit r = true := by
  induction l generalizing out with
  | nil => simp
  | cons s rest ih =>
    rw [List.foldl_cons, ih (hout.union (h s)), hout.bit_union (h s), Bool.or_eq_true, or_assoc]
    simp

lemma over_liveOut (h : ∀ i, (liveInAt n a i).Over n) (b : FlowBlock) : (b.liveOut n a).Over n :=
  over_unions h (.empty n) b.succs

lemma bit_liveOut (h : ∀ i, (liveInAt n a i).Over n) (b : FlowBlock) (r : Nat) :
    (b.liveOut n a).bit r = true ↔ ∃ s ∈ b.succs, (liveInAt n a s).bit r = true := by
  refine (bit_unions h (.empty n) b.succs r).trans ?_
  simp [BitSet.bit_empty]

lemma Over.liveInOf {b : FlowBlock} (hb : b.Over n) {out : BitSet} (hout : out.Over n) :
    (b.liveInOf out).Over n :=
  (hout.sdiff hb.writes).union hb.needs

lemma Over.bit_liveInOf {b : FlowBlock} (hb : b.Over n) {out : BitSet} (hout : out.Over n)
    (r : Nat) : (b.liveInOf out).bit r = true ↔
      out.bit r = true ∧ b.writes.bit r = false ∨ b.needs.bit r = true := by
  unfold FlowBlock.liveInOf
  rw [(hout.sdiff hb.writes).bit_union hb.needs, hout.bit_sdiff hb.writes]
  simp

end FlowBlock

/-! ## Growing -/

/-- What holds of the table between two updates. -/
structure Grown (n : Nat) (blocks : List FlowBlock) (a : Array BitSet) : Prop where
  size : a.size = blocks.length
  inRange : ∀ i, (liveInAt n a i).Over n
  /-- The table lies below what the equations make of it. -/
  below : ∀ i b, blocks[i]? = some b → ∀ r, (liveInAt n a i).bit r = true →
    (b.liveInOf (b.liveOut n a)).bit r = true
  sound : ∀ i r, (liveInAt n a i).bit r = true → FlowLive blocks r i

/-- No set of the first table has a register that the set of the second lacks. -/
def Within (n : Nat) (a a' : Array BitSet) : Prop :=
  ∀ i r, (liveInAt n a i).bit r = true → (liveInAt n a' i).bit r = true

lemma Within.trans {a b c : Array BitSet} (h : Within n a b) (h' : Within n b c) :
    Within n a c :=
  fun i r hr => h' i r (h i r hr)

/-- What the equations make of a larger table is larger. -/
lemma FlowBlock.liveInOf_mono {n : Nat} {b : FlowBlock} {a a' : Array BitSet} (hb : b.Over n)
    (ha : ∀ i, (liveInAt n a i).Over n) (ha' : ∀ i, (liveInAt n a' i).Over n)
    (h : Within n a a') {r : Nat} (hr : (b.liveInOf (b.liveOut n a)).bit r = true) :
    (b.liveInOf (b.liveOut n a')).bit r = true := by
  rw [hb.bit_liveInOf (over_liveOut ha b), bit_liveOut ha] at hr
  rw [hb.bit_liveInOf (over_liveOut ha' b), bit_liveOut ha']
  rcases hr with ⟨⟨s, hs, hr⟩, hw⟩ | hr
  · exact .inl ⟨⟨s, hs, h s r hr⟩, hw⟩
  · exact .inr hr

namespace Grown

lemma init (n : Nat) (blocks : List FlowBlock) :
    Grown n blocks (Array.replicate blocks.length (.empty n)) := by
  have hget : ∀ i, liveInAt n (Array.replicate blocks.length (.empty n)) i = .empty n :=
    fun i => getD_replicate _ i _
  refine ⟨by simp, ?_, ?_, ?_⟩
  · intro i
    rw [hget]
    exact .empty n
  · intro i b _ r hr
    rw [hget, BitSet.bit_empty] at hr
    cases hr
  · intro i r hr
    rw [hget, BitSet.bit_empty] at hr
    cases hr

/-- What an update of one block changes. -/
lemma liveInAt_sweepBlock (h : Grown n blocks a) {b : FlowBlock} {k : Nat}
    (hb : blocks[k]? = some b) (i : Nat) :
    liveInAt n (sweepBlock n a (b, k)) i =
      if k = i then b.liveInOf (b.liveOut n a) else liveInAt n a i := by
  have hlt : k < a.size := by
    rw [h.size]
    exact (List.getElem?_eq_some_iff.1 hb).1
  refine (getD_setIfInBounds a k i _ _).trans ?_
  by_cases hki : k = i
  · rw [if_pos ⟨hki, hki ▸ hlt⟩, if_pos hki]
  · rw [if_neg (fun hand => hki hand.1), if_neg hki]

lemma within_sweepBlock (h : Grown n blocks a) {b : FlowBlock} {k : Nat}
    (hb : blocks[k]? = some b) : Within n a (sweepBlock n a (b, k)) := by
  intro i r hr
  rw [h.liveInAt_sweepBlock hb]
  split
  · rename_i hik
    subst hik
    exact h.below k b hb r hr
  · exact hr

variable (hblocks : ∀ b ∈ blocks, b.Over n)

include hblocks

lemma over_sweepBlock (h : Grown n blocks a) {b : FlowBlock} {k : Nat} (hb : blocks[k]? = some b)
    (i : Nat) : (liveInAt n (sweepBlock n a (b, k)) i).Over n := by
  rw [h.liveInAt_sweepBlock hb]
  split
  · exact (hblocks b (List.mem_of_getElem? hb)).liveInOf (FlowBlock.over_liveOut h.inRange b)
  · exact h.inRange i

/-- An update of one block. -/
lemma sweepBlock (h : Grown n blocks a) {b : FlowBlock} {k : Nat} (hb : blocks[k]? = some b) :
    Grown n blocks (sweepBlock n a (b, k)) ∧ Within n a (SsaBackend.sweepBlock n a (b, k)) := by
  have hover := hblocks b (List.mem_of_getElem? hb)
  have hget := h.liveInAt_sweepBlock hb
  have hover' := h.over_sweepBlock hblocks hb
  have hgrow := h.within_sweepBlock hb
  refine ⟨⟨?_, hover', ?_, ?_⟩, hgrow⟩
  · exact (Array.size_setIfInBounds ..).trans h.size
  · intro i c hc r hr
    -- what the equations make of the larger table is larger
    refine FlowBlock.liveInOf_mono (hblocks c (List.mem_of_getElem? hc)) h.inRange hover' hgrow ?_
    rw [hget] at hr
    split at hr
    · rename_i hik
      subst hik
      rw [hb] at hc
      cases hc
      exact hr
    · exact h.below i c hc r hr
  · intro i r hr
    rw [hget] at hr
    split at hr
    · rename_i hik
      subst hik
      rw [hover.bit_liveInOf (FlowBlock.over_liveOut h.inRange b),
        FlowBlock.bit_liveOut h.inRange] at hr
      rcases hr with ⟨⟨s, hs, hr⟩, hw⟩ | hr
      · exact .passes hb hw hs (h.sound s r hr)
      · exact .needs hb hr
    · exact h.sound i r hr

/-- Updates of several blocks. -/
lemma sweepBlocks (h : Grown n blocks a) {l : List (FlowBlock × Nat)}
    (hl : ∀ e ∈ l, blocks[e.2]? = some e.1) :
    Grown n blocks (l.foldl (SsaBackend.sweepBlock n) a) ∧
      Within n a (l.foldl (SsaBackend.sweepBlock n) a) := by
  induction l generalizing a with
  | nil => exact ⟨h, fun i r hr => hr⟩
  | cons e rest ih =>
    obtain ⟨h1, hw1⟩ := sweepBlock hblocks h (hl e (List.mem_cons_self ..))
    obtain ⟨h2, hw2⟩ := ih h1 fun x hx => hl x (List.mem_cons_of_mem _ hx)
    exact ⟨h2, hw1.trans hw2⟩

lemma sweep (h : Grown n blocks a) :
    Grown n blocks (sweep n blocks a) ∧ Within n a (SsaBackend.sweep n blocks a) := by
  refine sweepBlocks hblocks h fun e he => ?_
  rw [List.mem_reverse] at he
  exact List.mem_zipIdx_iff_getElem?.1 he

omit hblocks

/-! ## A sweep that changes nothing -/

/-- Updates of other blocks leave a block alone. -/
lemma getElem?_sweepBlocks {l : List (FlowBlock × Nat)} {k : Nat} (hk : ∀ e ∈ l, e.2 ≠ k)
    (a : Array BitSet) : (l.foldl (SsaBackend.sweepBlock n) a)[k]? = a[k]? := by
  induction l generalizing a with
  | nil => rfl
  | cons e rest ih =>
    rw [List.foldl_cons, ih (fun x hx => hk x (List.mem_cons_of_mem _ hx))]
    exact Array.getElem?_setIfInBounds_ne (hk e (List.mem_cons_self ..))

/-- If the updates of different blocks change nothing together, none of them does. -/
lemma sweepBlock_eq {l : List (FlowBlock × Nat)} (hl : l.Pairwise fun e e' => e.2 ≠ e'.2)
    (h : l.foldl (SsaBackend.sweepBlock n) a = a) : ∀ e ∈ l, SsaBackend.sweepBlock n a e = a := by
  induction l with
  | nil => simp
  | cons e rest ih =>
    obtain ⟨hne, hl⟩ := List.pairwise_cons.1 hl
    rw [List.foldl_cons] at h
    have hfirst : SsaBackend.sweepBlock n a e = a := by
      have hk := getElem?_sweepBlocks (n := n) (fun x hx => Ne.symm (hne x hx))
        (SsaBackend.sweepBlock n a e)
      rw [h] at hk
      refine Array.ext_getElem? fun i => ?_
      by_cases hi : e.2 = i
      · rw [← hi, hk]
      · exact Array.getElem?_setIfInBounds_ne hi
    rw [hfirst] at h
    exact List.forall_mem_cons.2 ⟨hfirst, ih hl h⟩

/-- A sweep comes by every block once. -/
lemma pairwise_sweep (blocks : List FlowBlock) :
    blocks.zipIdx.reverse.Pairwise fun e e' => e.2 ≠ e'.2 := by
  rw [List.pairwise_reverse, List.pairwise_iff_getElem]
  intro i j hi hj hij
  simp only [List.getElem_zipIdx, ne_eq]
  omega

/-- A table that a sweep leaves alone solves the equations. -/
lemma solves (h : Grown n blocks a) (hstable : SsaBackend.sweep n blocks a = a) {i : Nat}
    {b : FlowBlock} (hb : blocks[i]? = some b) :
    liveInAt n a i = b.liveInOf (b.liveOut n a) := by
  have hsame := sweepBlock_eq (pairwise_sweep blocks) hstable (b, i)
    (List.mem_reverse.2 (List.mem_zipIdx_iff_getElem?.2 hb))
  have hlt : i < a.size := by
    rw [h.size]
    exact (List.getElem?_eq_some_iff.1 hb).1
  have hget := getD_setIfInBounds a i i (b.liveInOf (b.liveOut n a)) (.empty n)
  rw [if_pos ⟨rfl, hlt⟩] at hget
  rw [← hget]
  exact congrArg (fun a => liveInAt n a i) hsame.symm

end Grown

/-! ## The whole solution -/

/-- How many registers are not live into the blocks. -/
def dead (n : Nat) (blocks : List FlowBlock) (a : Array BitSet) : Nat :=
  total ((List.range blocks.length).map fun i =>
    total ((List.range n).map fun r => if (liveInAt n a i).bit r then 0 else 1))

lemma dead_le (n : Nat) (blocks : List FlowBlock) (a : Array BitSet) :
    dead n blocks a ≤ blocks.length * n := by
  have hbound : ∀ (l : List Nat) (f : Nat → Nat) (c : Nat), (∀ i ∈ l, f i ≤ c) →
      total (l.map f) ≤ l.length * c := by
    intro l f c hf
    induction l with
    | nil => simp
    | cons i rest ih =>
      have hi := hf i (List.mem_cons_self ..)
      have hrest := ih fun j hj => hf j (List.mem_cons_of_mem _ hj)
      rw [List.map_cons, total_cons, List.length_cons, Nat.add_mul]
      omega
  have hrow : ∀ i, total ((List.range n).map fun r =>
      if (liveInAt n a i).bit r then 0 else 1) ≤ n := by
    intro i
    have := hbound (List.range n) (fun r => if (liveInAt n a i).bit r then 0 else 1) 1
      fun r _ => by split <;> omega
    rw [List.length_range, Nat.mul_one] at this
    exact this
  have := hbound (List.range blocks.length) _ n fun i _ => hrow i
  rw [List.length_range] at this
  exact this

/-- A sweep that changes something adds a register to a block. -/
lemma dead_sweep (hblocks : ∀ b ∈ blocks, b.Over n) (h : Grown n blocks a)
    (hne : sweep n blocks a ≠ a) : dead n blocks (sweep n blocks a) < dead n blocks a := by
  obtain ⟨h', hgrow⟩ := h.sweep hblocks
  have hle : ∀ i r, (if (liveInAt n (sweep n blocks a) i).bit r then 0 else 1) ≤
      if (liveInAt n a i).bit r then 0 else 1 := by
    intro i r
    cases hr : (liveInAt n a i).bit r with
    | true =>
      exact Nat.le_of_eq (by rw [hgrow i r hr])
    | false => split <;> simp
  -- somewhere the tables differ
  obtain ⟨i, hi, hdiff⟩ : ∃ i, i < blocks.length ∧
      liveInAt n (sweep n blocks a) i ≠ liveInAt n a i := by
    by_contra hall
    push Not at hall
    refine hne (Array.ext (h'.size.trans h.size.symm) fun i hi hi' => ?_)
    have := hall i (h.size ▸ hi')
    simpa [liveInAt, Array.getD_eq_getD_getElem?, hi, hi'] using this
  obtain ⟨r, hr, hbit⟩ : ∃ r, r < n ∧
      (liveInAt n (sweep n blocks a) i).bit r ≠ (liveInAt n a i).bit r := by
    by_contra hall
    push Not at hall
    exact hdiff ((h'.inRange i).ext (h.inRange i) hall)
  have hold : (liveInAt n a i).bit r = false := by
    cases hb : (liveInAt n a i).bit r with
    | false => rfl
    | true => exact absurd (hgrow i r hb) (by rw [hb] at hbit; exact hbit)
  have hnew : (liveInAt n (sweep n blocks a) i).bit r = true := by
    rw [hold] at hbit
    simpa using hbit
  refine total_map_lt (fun j _ => total_map_le fun k _ => hle j k) (List.mem_range.2 hi) ?_
  refine total_map_lt (fun k _ => hle i k) (List.mem_range.2 hr) ?_
  rw [hnew, hold]
  decide

lemma sweepStep_eq {a' : Array BitSet} (h : sweepStep n blocks a = some a') :
    a' = sweep n blocks a ∧ sweep n blocks a ≠ a := by
  unfold sweepStep at h
  simp only at h
  split at h
  · cases h
  · rename_i hne
    exact ⟨(Option.some.inj h).symm, hne⟩

lemma grown_solveLiveIn (hblocks : ∀ b ∈ blocks, b.Over n) :
    Grown n blocks (solveLiveIn n blocks) := by
  refine repeatUpTo_induct (Grown n blocks) (fun a a' h hstep => ?_) _ _ (Grown.init n blocks)
  obtain ⟨rfl, -⟩ := sweepStep_eq hstep
  exact (h.sweep hblocks).1

/-- The sweeps that change something are so few that the bound on their number is not felt. -/
lemma sweepStep_solveLiveIn (hblocks : ∀ b ∈ blocks, b.Over n) :
    sweepStep n blocks (solveLiveIn n blocks) = none := by
  refine repeatUpTo_done (Grown n blocks) (dead n blocks) (fun a a' h hstep => ?_)
    (fun a a' h hstep => ?_) _ _ (Grown.init n blocks) (dead_le ..)
  · obtain ⟨rfl, -⟩ := sweepStep_eq hstep
    exact (h.sweep hblocks).1
  · obtain ⟨rfl, hne⟩ := sweepStep_eq hstep
    exact dead_sweep hblocks h hne

/-- The sweeps end with a table that a sweep leaves alone. -/
lemma sweep_solveLiveIn (hblocks : ∀ b ∈ blocks, b.Over n) :
    sweep n blocks (solveLiveIn n blocks) = solveLiveIn n blocks := by
  have hdone := sweepStep_solveLiveIn hblocks
  unfold sweepStep at hdone
  simp only at hdone
  split at hdone
  · assumption
  · cases hdone

/-- The registers live into a block are those of which the equations say so. -/
theorem bit_solveLiveIn (hblocks : ∀ b ∈ blocks, b.Over n) (i r : Nat) :
    (liveInAt n (solveLiveIn n blocks) i).bit r = true ↔ FlowLive blocks r i := by
  have hgrown := grown_solveLiveIn hblocks
  refine ⟨hgrown.sound i r, fun h => ?_⟩
  induction h with
  | needs hb hr =>
    rw [hgrown.solves (sweep_solveLiveIn hblocks) hb,
      (hblocks _ (List.mem_of_getElem? hb)).bit_liveInOf (FlowBlock.over_liveOut hgrown.inRange _)]
    exact .inr hr
  | passes hb hw hs _ ih =>
    rw [hgrown.solves (sweep_solveLiveIn hblocks) hb,
      (hblocks _ (List.mem_of_getElem? hb)).bit_liveInOf (FlowBlock.over_liveOut hgrown.inRange _),
      FlowBlock.bit_liveOut hgrown.inRange]
    exact .inl ⟨⟨_, hs, ih⟩, hw⟩

/-! ## What is live out of the blocks -/

namespace FlowTables

variable {t : FlowTables} {l : List (FlowBlock × Nat)}

/-- What is live into the blocks is brought up to date as if there were nothing else to do. -/
lemma liveIn_foldl (l : List (FlowBlock × Nat)) (t : FlowTables) :
    (l.foldl (update n) t).liveIn = l.foldl (sweepBlock n) t.liveIn := by
  induction l generalizing t with
  | nil => rfl
  | cons e rest ih => exact ih (t.update n e)

lemma size_liveOut_foldl (l : List (FlowBlock × Nat)) (t : FlowTables) :
    (l.foldl (update n) t).liveOut.size = t.liveOut.size := by
  induction l generalizing t with
  | nil => rfl
  | cons e rest ih => exact (ih (t.update n e)).trans (Array.size_setIfInBounds ..)

/-- Updates of other blocks leave what is live out of a block alone. -/
lemma getElem?_liveOut_foldl {k : Nat} (hk : ∀ e ∈ l, e.2 ≠ k) (t : FlowTables) :
    (l.foldl (update n) t).liveOut[k]? = t.liveOut[k]? := by
  induction l generalizing t with
  | nil => rfl
  | cons e rest ih =>
    rw [List.foldl_cons, ih fun x hx => hk x (List.mem_cons_of_mem _ hx)]
    exact Array.getElem?_setIfInBounds_ne (hk e List.mem_cons_self)

/-- Updates of different blocks that change nothing that is live into a block write down what is
live out of the blocks by the one table. -/
lemma getElem?_liveOut_of_stable (hl : l.Pairwise fun e e' => e.2 ≠ e'.2)
    (hsame : ∀ e ∈ l, sweepBlock n t.liveIn e = t.liveIn) {e : FlowBlock × Nat} (he : e ∈ l)
    (hlt : e.2 < t.liveOut.size) :
    (l.foldl (update n) t).liveOut[e.2]? = some (e.1.liveOut n t.liveIn) := by
  induction l generalizing t with
  | nil => cases he
  | cons c rest ih =>
    obtain ⟨hne, hl⟩ := List.pairwise_cons.1 hl
    obtain ⟨hc, hsame⟩ := List.forall_mem_cons.1 hsame
    have hin : (t.update n c).liveIn = t.liveIn := hc
    have hsize : (t.update n c).liveOut.size = t.liveOut.size := Array.size_setIfInBounds ..
    rw [List.foldl_cons]
    -- a block is written down once, and by a table that is the same at every block
    rcases List.mem_cons.1 he with rfl | he
    · rw [getElem?_liveOut_foldl fun x hx => Ne.symm (hne x hx)]
      exact Array.getElem?_setIfInBounds_self_of_lt hlt
    · have hout := ih (t := t.update n c) hl (hin ▸ hsame) he (hsize ▸ hlt)
      rwa [hin] at hout

end FlowTables

/-- The last sweep writes down what is live out of the blocks by what is live into them in the
end. -/
theorem solveFlow_eq (hblocks : ∀ b ∈ blocks, b.Over n) :
    solveFlow n blocks =
      ⟨solveLiveIn n blocks, (blocks.map (·.liveOut n (solveLiveIn n blocks))).toArray⟩ := by
  have hstable := sweep_solveLiveIn hblocks
  have hsame := Grown.sweepBlock_eq (Grown.pairwise_sweep blocks) hstable
  have hin : (solveFlow n blocks).liveIn = solveLiveIn n blocks :=
    (FlowTables.liveIn_foldl _ _).trans hstable
  have hsize : (solveFlow n blocks).liveOut.size = blocks.length :=
    (FlowTables.size_liveOut_foldl _ _).trans Array.size_replicate
  have hout : (solveFlow n blocks).liveOut =
      (blocks.map (·.liveOut n (solveLiveIn n blocks))).toArray := by
    refine Array.ext_getElem? fun i => ?_
    simp only [List.getElem?_toArray, List.getElem?_map]
    cases hb : blocks[i]? with
    | none =>
      rw [List.getElem?_eq_none_iff, ← hsize] at hb
      exact Array.getElem?_eq_none hb
    | some b =>
      refine FlowTables.getElem?_liveOut_of_stable (e := (b, i)) (Grown.pairwise_sweep blocks)
        hsame (List.mem_reverse.2 (List.mem_zipIdx_iff_getElem?.2 hb)) ?_
      rw [Array.size_replicate]
      exact (List.getElem?_eq_some_iff.1 hb).1
  cases hflow : solveFlow n blocks
  rw [hflow] at hin hout
  exact congrArg₂ FlowTables.mk hin hout

end

end SsaBackend
