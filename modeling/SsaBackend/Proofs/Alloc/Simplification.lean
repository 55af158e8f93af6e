import SsaBackend.Alloc.Simplify
import SsaBackend.Proofs.BitSet

/-!
# Simplification leaves no register out

Every register that is live somewhere has a vertex in the interference graph, and every
vertex is removed in the end, so every such register has a place in the order of removals
(`mem_order`). A vertex is always found as long as one is present: one with few neighbours,
or else the lightest. So what every removal keeps holds when nothing is present any more
(`simplify_ends`).
-/

namespace SsaBackend

namespace InterferenceGraph

open Simplifying

/-- The lightest of some vertices is one of them, and is found unless there are none. -/
lemma foldl_lighter {weight : Nat → Weight} {best : Option Nat} {l : List Nat} :
    (l.foldl (lighter weight) best = none ↔ best = none ∧ l = []) ∧
      ∀ v, l.foldl (lighter weight) best = some v → best = some v ∨ v ∈ l := by
  induction l generalizing best with
  | nil => simp
  | cons u rest ih =>
    have hstep : lighter weight best u = best ∨ lighter weight best u = some u := by
      cases best with
      | none => exact .inr rfl
      | some b =>
        unfold lighter
        simp only
        split
        · exact .inl rfl
        · exact .inr rfl
    have hne : lighter weight best u ≠ none := by
      cases best with
      | none => simp [lighter]
      | some b =>
        unfold lighter
        simp only
        split <;> simp
    rw [List.foldl_cons]
    refine ⟨by simp [ih.1, hne], ?_⟩
    intro v hv
    rcases ih.2 v hv with h | h
    · rcases hstep with h' | h'
      · exact .inl (h' ▸ h)
      · rw [h'] at h
        simp only [Option.some.injEq] at h
        exact .inr (h ▸ List.mem_cons_self ..)
    · exact .inr (List.mem_cons_of_mem _ h)

/-- The vertex to remove next is present. -/
lemma mem_of_next? {g : InterferenceGraph} {ivs : Intervals} {colors v : Nat} {spill : Bool}
    (h : g.next? ivs colors = some (v, spill)) : v ∈ g.present.toList := by
  unfold next? at h
  simp only at h
  split at h
  · rename_i u hu
    cases h
    exact List.mem_of_find?_eq_some hu
  · obtain ⟨u, hu, he⟩ := Option.map_eq_some_iff.1 h
    cases he
    rcases foldl_lighter.2 v hu with h | h
    · cases h
    · exact h

/-- There is always a vertex to remove next, unless none is present. -/
lemma nil_of_next? {g : InterferenceGraph} {ivs : Intervals} {colors : Nat}
    (h : g.next? ivs colors = none) : g.present.toList = [] := by
  unfold next? at h
  simp only at h
  split at h
  · cases h
  · rw [Option.map_eq_none_iff] at h
    exact (foldl_lighter.1.1 h).2

/-- Every vertex is present or has been removed, and nothing is present that is no vertex. -/
structure Removing (g : InterferenceGraph) (s : Simplifying) : Prop where
  regs : s.graph.regs = g.regs
  valid : s.graph.present.Valid
  capacity : s.graph.present.capacity = g.size
  listed : ∀ v r, g.regs[v]? = some r → s.graph.present.bit v = true ∨ ∃ m ∈ s.removals, m.reg = r

/-- The number of vertices that are present. -/
def presence (g : InterferenceGraph) (s : Simplifying) : Nat :=
  (List.range g.size).countP s.graph.present.bit

lemma presence_le (g : InterferenceGraph) (s : Simplifying) : presence g s ≤ g.size :=
  Nat.le_trans List.countP_le_length (Nat.le_of_eq List.length_range)

lemma step_eq {ivs : Intervals} {colors : Nat} {s s' : Simplifying}
    (h : step ivs colors s = some s') :
    ∃ v spill r, s.graph.next? ivs colors = some (v, spill) ∧ s.graph.regs[v]? = some r ∧
      s' = ⟨s.graph.erase v,
        ⟨r, spill, s.graph.degree v, s.graph.weightOf ivs v⟩ :: s.removals⟩ := by
  unfold step at h
  obtain ⟨⟨v, spill⟩, hv, h⟩ := Option.bind_eq_some_iff.1 h
  obtain ⟨r, hr, h⟩ := Option.bind_eq_some_iff.1 h
  cases h
  exact ⟨v, spill, r, hv, hr, rfl⟩

variable {g : InterferenceGraph} {ivs : Intervals} {colors : Nat} {s s' : Simplifying}

lemma Removing.step (hs : Removing g s) (h : step ivs colors s = some s') : Removing g s' := by
  obtain ⟨v, spill, r, hv, hr, rfl⟩ := step_eq h
  have hbit := (BitSet.mem_toList_iff_bit _ v).1 (mem_of_next? hv)
  have hlt := hs.valid.bit_lt v hbit
  refine ⟨hs.regs, BitSet.valid_erase hs.valid hlt, ?_, ?_⟩
  · rw [← hs.capacity]
    exact BitSet.capacity_erase _ _
  · intro u q hu
    rcases hs.listed u q hu with hb | ⟨m, hm, hq⟩
    · by_cases huv : v = u
      · -- the vertex that was removed is listed now
        subst huv
        rw [hs.regs, hu] at hr
        cases hr
        exact .inr ⟨_, List.mem_cons_self .., rfl⟩
      · left
        show (s.graph.present.erase v).bit u = true
        rw [BitSet.bit_erase hs.valid hlt, hb]
        simp [huv]
    · exact .inr ⟨m, List.mem_cons_of_mem _ hm, hq⟩

/-- Each removal lowers the number of vertices that are present. -/
lemma presence_step (hs : Removing g s) (h : step ivs colors s = some s') :
    presence g s' < presence g s := by
  obtain ⟨v, spill, r, hv, hr, rfl⟩ := step_eq h
  have hbit := (BitSet.mem_toList_iff_bit _ v).1 (mem_of_next? hv)
  have hlt := hs.valid.bit_lt v hbit
  have herase : ∀ u, (s.graph.erase v).present.bit u = (s.graph.present.bit u && !decide (v = u)) :=
    fun u => BitSet.bit_erase hs.valid hlt u
  have hmem : v ∈ List.range g.size := List.mem_range.2 (hs.capacity ▸ hlt)
  show (List.range g.size).countP (s.graph.erase v).present.bit < _
  rw [show (s.graph.erase v).present.bit = fun u => s.graph.present.bit u && !decide (v = u) from
    funext herase]
  -- the removed vertex is counted before and not after
  have hsplit := List.append_of_mem hmem
  obtain ⟨l1, l2, hl⟩ := hsplit
  unfold presence
  rw [hl, List.countP_append, List.countP_append, List.countP_cons, List.countP_cons]
  have hmono : ∀ l : List Nat, l.countP (fun u => s.graph.present.bit u && !decide (v = u)) ≤
      l.countP s.graph.present.bit := by
    intro l
    refine List.countP_mono_left fun u _ hu => ?_
    rw [Bool.and_eq_true] at hu
    exact hu.1
  have h1 := hmono l1
  have h2 := hmono l2
  simp only [hbit, decide_true, Bool.not_true, Bool.and_false, if_true]
  simp only [Bool.false_eq_true, if_false]
  omega

/-- A vertex that is present has a register, so it can be removed. -/
lemma Removing.nil_of_step (hs : Removing g s) (h : Simplifying.step ivs colors s = none) :
    s.graph.present.toList = [] := by
  cases hn : s.graph.next? ivs colors with
  | none => exact nil_of_next? hn
  | some e =>
    exfalso
    obtain ⟨v, spill⟩ := e
    have hbit := (BitSet.mem_toList_iff_bit _ v).1 (mem_of_next? hn)
    have hlt : v < g.regs.size := by
      have := hs.valid.bit_lt v hbit
      rw [hs.capacity] at this
      exact this
    have hreg : s.graph.reg? v = some g.regs[v] := by
      show s.graph.regs[v]? = _
      rw [hs.regs]
      exact Array.getElem?_eq_getElem hlt
    unfold Simplifying.step at h
    simp [hn, hreg] at h

lemma removing_build (ivs : Intervals) : Removing (build ivs) ⟨build ivs, []⟩ := by
  refine ⟨rfl, BitSet.valid_full _, ?_, ?_⟩
  · show (ivs.intervals.filter (!·.isEmpty)).size = _
    simp [size, build]
  · intro v r hv
    left
    show (BitSet.full _).bit v = true
    rw [BitSet.bit_full, decide_eq_true_eq]
    have := (Array.getElem?_eq_some_iff.1 hv).1
    simpa [build] using this

/-- What holds when simplification begins and is kept by every removal holds when it ends, and then
nothing is present. -/
theorem simplify_ends (ivs : Intervals) (colors : Nat) {P : Simplifying → Prop}
    (hstart : P ⟨build ivs, []⟩)
    (hstep : ∀ s s', Removing (build ivs) s → P s →
      Simplifying.step ivs colors s = some s' → P s') :
    ∃ done, (build ivs).simplify ivs colors = (⟨done.removals.reverse⟩, done.graph) ∧
      Removing (build ivs) done ∧ P done ∧ done.graph.present.toList = [] := by
  set done := repeatUpTo (Simplifying.step ivs colors) (build ivs).size ⟨build ivs, []⟩
  have hend : Removing (build ivs) done ∧ P done :=
    repeatUpTo_induct (fun s => Removing (build ivs) s ∧ P s)
      (fun s s' hs h => ⟨hs.1.step h, hstep s s' hs.1 hs.2 h⟩) _ _ ⟨removing_build ivs, hstart⟩
  -- there are as many rounds as vertices, and every round removes one
  have hdone : Simplifying.step ivs colors done = none :=
    repeatUpTo_done (Removing (build ivs)) (presence (build ivs)) (fun _ _ hs h => hs.step h)
      (fun _ _ hs h => presence_step hs h) _ _ (removing_build ivs) (presence_le _ _)
  exact ⟨done, rfl, hend.1, hend.2, hend.1.nil_of_step hdone⟩

/-- Every register that is live somewhere has a place in the order of removals. -/
theorem mem_order (ivs : Intervals) (colors : Nat) {li : Interval} (hli : li ∈ ivs.toList)
    (hlive : li.segments ≠ []) :
    li.reg ∈ ((build ivs).simplify ivs colors).1.order := by
  obtain ⟨done, hdone, hend, -, hnone⟩ :=
    simplify_ends ivs colors (P := fun _ => True) trivial fun _ _ _ _ _ => trivial
  have hmem : li ∈ ivs.intervals.filter (!·.isEmpty) := by
    refine Array.mem_filter.2 ⟨by simpa [Intervals.toList] using hli, ?_⟩
    simpa [Interval.isEmpty] using hlive
  obtain ⟨v, hv, hget⟩ := Array.mem_iff_getElem.1 (Array.mem_map_of_mem (f := Interval.reg) hmem)
  have hv' : (build ivs).regs[v]? = some li.reg := by
    rw [Array.getElem?_eq_some_iff]
    exact ⟨hv, hget⟩
  rw [hdone]
  rcases hend.listed v li.reg hv' with hb | ⟨m, hm, hr⟩
  · exact absurd ((BitSet.mem_toList_iff_bit _ v).2 hb)
      (List.eq_nil_iff_forall_not_mem.1 hnone v)
  · exact List.mem_map.2 ⟨m, List.mem_reverse.2 hm, hr⟩

/-- No register is removed more than once. -/
theorem length_order (ivs : Intervals) (colors : Nat) :
    ((build ivs).simplify ivs colors).1.order.length ≤ ivs.size := by
  -- a removal more is a vertex less
  obtain ⟨done, hdone, -, hcount, -⟩ := simplify_ends ivs colors
    (P := fun s => s.removals.length + presence (build ivs) s ≤ (build ivs).size)
    (by simpa using presence_le (build ivs) ⟨build ivs, []⟩) fun s s' hs hle h => by
      have hless := presence_step hs h
      obtain ⟨v, spill, r, -, -, rfl⟩ := step_eq h
      rw [List.length_cons]
      omega
  have hsize : (build ivs).size ≤ ivs.size := by
    show (Array.map _ (ivs.intervals.filter _)).size ≤ ivs.intervals.size
    rw [Array.size_map]
    exact Array.size_filter_le
  rw [hdone]
  show ((List.reverse _).map _).length ≤ _
  rw [List.length_map, List.length_reverse]
  omega

end InterferenceGraph

/-- The priority of a register that is removed once is one more than its place. -/
lemma Simplification.priority_getElem {s : Simplification} (h : s.order.Nodup) {i : Nat}
    (hi : i < s.order.length) : s.priority s.order[i] = i + 1 := by
  have hfind : s.order.findIdx? (· = s.order[i]) = some i := by
    rw [List.findIdx?_eq_some_iff_getElem]
    refine ⟨hi, by simp, ?_⟩
    intro j hj
    have hne := List.pairwise_iff_getElem.1 h j i (by omega) hi hj
    simpa using hne
  unfold priority
  rw [hfind]
  rfl

end SsaBackend
