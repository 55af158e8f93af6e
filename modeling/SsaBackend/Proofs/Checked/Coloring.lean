import SsaBackend.Proofs.Alloc.Degrees
import SsaBackend.Proofs.Checked.Access

/-!
# Coloring, with every row looked at

The interference graph is made by comparing every interval with those behind it, and entering each
of two that overlap in the row of the other; then vertices are removed from a set of those present.
Here a row or a vertex that is not there is refused. Nothing is refused: the rows are what they are
defined to be (`build?_eq`), and the removals those that are made (`simplify?_eq`).
-/

namespace SsaBackend

namespace InterferenceGraph

/-! ## The definitions -/

/-- Enters `j` in the row of `i`. -/
def enter? (rows : Array BitSet) (i j : Nat) : Except Error (Array BitSet) := do
  store? rows i (← (← load? rows i).insert? j).2

/-- Compares two intervals, and enters each in the row of the other if they overlap. -/
def compare? (live : Array Interval) (rows : Array BitSet) (e : Nat × Nat) :
    Except Error (Array BitSet) := do
  if (← load? live e.1).overlaps (← load? live e.2) then enter? (← enter? rows e.1 e.2) e.2 e.1
  else return rows

/-- Every place below `n` with those behind it. -/
def pairs (n : Nat) : List (Nat × Nat) :=
  (List.range n).flatMap fun i => ((List.range n).filter (i < ·)).map (i, ·)

/-- The graph of the given intervals, all vertices present. -/
def build? (ivs : Intervals) : Except Error InterferenceGraph := do
  let live := ivs.intervals.filter (!·.isEmpty)
  let rows ← (pairs live.size).foldlM (compare? live)
    (Array.replicate live.size (.empty live.size))
  return { regs := live.map (·.reg), rows, present := .full live.size }

/-- Removes one vertex, which must be one of the graph. -/
def Simplifying.step? (ivs : Intervals) (colors : Nat) (s : Simplifying) :
    Except Error (Option Simplifying) := do
  match s.graph.next? ivs colors with
  | none => return none
  | some (v, spill) =>
    match s.graph.reg? v with
    | none => return none
    | some reg =>
      let (_, graph) ← s.graph.erase? v
      return some
        ⟨graph, ⟨reg, spill, s.graph.degree v, s.graph.weightOf ivs v⟩ :: s.removals⟩

/-- Removes every vertex, and answers with the removals and the graph that is left. -/
def simplify? (g : InterferenceGraph) (ivs : Intervals) (colors : Nat) :
    Except Error (Simplification × InterferenceGraph) := do
  let done ← repeatToEnd? (Simplifying.step? ivs colors) (g.size + 1) ⟨g, []⟩
  return (⟨done.removals.reverse⟩, done.graph)

/-! ## Rows -/

lemma mem_pairs {n : Nat} {e : Nat × Nat} : e ∈ pairs n ↔ e.1 < e.2 ∧ e.2 < n := by
  unfold pairs
  simp only [List.mem_flatMap, List.mem_range, List.mem_map, List.mem_filter, decide_eq_true_eq]
  constructor
  · rintro ⟨i, -, j, ⟨hj, hij⟩, rfl⟩
    exact ⟨hij, hj⟩
  · rintro ⟨hij, hj⟩
    exact ⟨e.1, hij.trans hj, e.2, ⟨hj, hij⟩, rfl⟩

/-- There is one row for each of `n` vertices, with a place for each. -/
structure Rows (n : Nat) (rows : Array BitSet) : Prop where
  size : rows.size = n
  rowsOver : ∀ v < n, (rows.getD v (.empty n)).Over n

/-- The rows with `j` entered in the row of `i`. -/
def enter (n : Nat) (rows : Array BitSet) (i j : Nat) : Array BitSet :=
  rows.setIfInBounds i ((rows.getD i (.empty n)).insert j)

/-- The rows once two vertices are compared. -/
def compare (live : Array Interval) (rows : Array BitSet) (e : Nat × Nat) : Array BitSet :=
  if interfere live e.1 e.2 then
    enter live.size (enter live.size rows e.1 e.2) e.2 e.1
  else rows

namespace Rows

variable {n i j : Nat} {rows : Array BitSet}

lemma replicate (n : Nat) : Rows n (Array.replicate n (.empty n)) := by
  refine ⟨Array.size_replicate, fun v _ => ?_⟩
  rw [getD_replicate]
  exact BitSet.Over.empty n

lemma getD_enter (h : Rows n rows) (hi : i < n) (v : Nat) : (enter n rows i j).getD v (.empty n) =
    if i = v then (rows.getD i (.empty n)).insert j else rows.getD v (.empty n) := by
  unfold enter
  rw [getD_setIfInBounds, h.size]
  by_cases hv : i = v
  · rw [if_pos ⟨hv, hv ▸ hi⟩, if_pos hv]
  · rw [if_neg fun hc => hv hc.1, if_neg hv]

lemma enter (h : Rows n rows) (hi : i < n) : Rows n (enter n rows i j) := by
  refine ⟨Array.size_setIfInBounds.trans h.size, fun v hv => ?_⟩
  rw [h.getD_enter hi]
  split
  · exact (h.rowsOver i hi).insert j
  · exact h.rowsOver v hv

lemma bit_enter (h : Rows n rows) (hi : i < n) (hj : j < n) (v w : Nat) :
    ((InterferenceGraph.enter n rows i j).getD v (.empty n)).bit w =
      ((rows.getD v (.empty n)).bit w || decide (i = v ∧ j = w)) := by
  rw [h.getD_enter hi]
  by_cases hv : i = v
  · subst hv
    rw [if_pos rfl, (h.rowsOver i hi).bit_insert hj]
    simp
  · rw [if_neg hv]
    simp [hv]

lemma enter?_eq (h : Rows n rows) (hi : i < n) (hj : j < n) :
    enter? rows i j = .ok (InterferenceGraph.enter n rows i j) := by
  unfold enter?
  rw [load?_ok (h.size.symm ▸ hi) (.empty n), ok_bind, (h.rowsOver i hi).insert?_ok hj, ok_bind,
    store?_ok (h.size.symm ▸ hi)]
  rfl

end Rows

section Compare

variable {live : Array Interval} {rows : Array BitSet} {e : Nat × Nat}

lemma interfere_comm (live : Array Interval) (v w : Nat) :
    interfere live v w = interfere live w v := by
  unfold interfere
  rw [Nat.min_comm v w, Nat.max_comm v w, bne_comm]

lemma interfere_self (live : Array Interval) (v : Nat) : interfere live v v = false := by
  unfold interfere
  rw [bne_self_eq_false]
  split <;> rfl

lemma interfere_of_lt {v w : Nat} (hlt : v < w) {a b : Interval} (ha : live[v]? = some a)
    (hb : live[w]? = some b) : interfere live v w = a.overlaps b := by
  unfold interfere
  rw [Nat.min_eq_left hlt.le, Nat.max_eq_right hlt.le, ha, hb]
  simp [hlt.ne]

/-- A comparison is not refused. -/
lemma Rows.compare?_eq (h : Rows live.size rows) (he : e.1 < e.2 ∧ e.2 < live.size) :
    compare? live rows e = .ok (compare live rows e) ∧ Rows live.size (compare live rows e) := by
  have h1 : e.1 < live.size := he.1.trans he.2
  obtain ⟨a, ha⟩ : ∃ a, live[e.1]? = some a := ⟨_, Array.getElem?_eq_getElem h1⟩
  obtain ⟨b, hb⟩ : ∃ b, live[e.2]? = some b := ⟨_, Array.getElem?_eq_getElem he.2⟩
  have hone := h.enter (j := e.2) h1
  unfold compare? compare
  rw [load?_some ha, load?_some hb, interfere_of_lt he.1 ha hb, ok_bind, ok_bind]
  split
  · rw [h.enter?_eq h1 he.2, ok_bind, hone.enter?_eq he.2 h1]
    exact ⟨rfl, hone.enter he.2⟩
  · exact ⟨rfl, h⟩

/-- Two vertices are entered where they are compared, if they interfere. -/
lemma Rows.bit_compare (h : Rows live.size rows) (he : e.1 < e.2 ∧ e.2 < live.size) (v w : Nat) :
    ((compare live rows e).getD v (.empty live.size)).bit w =
      ((rows.getD v (.empty live.size)).bit w ||
        (interfere live v w && decide (e = (v, w) ∨ e = (w, v)))) := by
  have h1 : e.1 < live.size := he.1.trans he.2
  obtain ⟨i, j⟩ := e
  unfold compare
  by_cases hij : interfere live i j = true
  · -- the pair is entered both ways round, and interferes both ways round
    have hsame : (interfere live v w && decide ((i, j) = (v, w) ∨ (i, j) = (w, v))) =
        (decide (i = v ∧ j = w) || decide (j = v ∧ i = w)) := by
      rw [← Bool.decide_or, Bool.eq_iff_iff, Bool.and_eq_true, decide_eq_true_eq,
        decide_eq_true_eq, Prod.mk.injEq, Prod.mk.injEq, and_comm (a := i = w)]
      constructor
      · exact fun hc => hc.2
      · rintro (⟨rfl, rfl⟩ | ⟨rfl, rfl⟩)
        · exact ⟨hij, .inl ⟨rfl, rfl⟩⟩
        · exact ⟨(interfere_comm ..).trans hij, .inr ⟨rfl, rfl⟩⟩
    rw [if_pos hij, (h.enter h1).bit_enter he.2 h1, h.bit_enter h1 he.2, hsame, Bool.or_assoc]
  · rw [if_neg hij]
    have hnone : (interfere live v w && decide ((i, j) = (v, w) ∨ (i, j) = (w, v))) = false := by
      rw [Bool.eq_false_iff, Ne, Bool.and_eq_true, decide_eq_true_eq]
      rintro ⟨hvw, ⟨⟨⟩⟩ | ⟨⟨⟩⟩⟩
      · exact hij hvw
      · exact hij ((interfere_comm ..).trans hvw)
    rw [hnone, Bool.or_false]

/-- The rows once all pairs of a list are compared. -/
lemma Rows.foldl_compare {l : List (Nat × Nat)} (hl : ∀ e ∈ l, e.1 < e.2 ∧ e.2 < live.size)
    (h : Rows live.size rows) : Rows live.size (l.foldl (compare live) rows) ∧ ∀ v w,
      ((l.foldl (compare live) rows).getD v (.empty live.size)).bit w =
        ((rows.getD v (.empty live.size)).bit w ||
          (interfere live v w && decide ((v, w) ∈ l ∨ (w, v) ∈ l))) := by
  induction l generalizing rows with
  | nil => exact ⟨h, fun v w => by simp⟩
  | cons e rest ih =>
    have he := hl e List.mem_cons_self
    obtain ⟨hrows, hbits⟩ :=
      ih (fun e' he' => hl e' (List.mem_cons_of_mem _ he')) (h.compare?_eq he).2
    refine ⟨hrows, fun v w => ?_⟩
    rw [List.foldl_cons, hbits, h.bit_compare he, Bool.or_assoc, ← Bool.and_or_distrib_left,
      ← Bool.decide_or]
    congr 3
    rw [List.mem_cons, List.mem_cons, eq_comm (a := e), eq_comm (a := e), eq_iff_iff]
    exact or_or_or_comm

end Compare

/-! ## Building and simplifying -/

/-- The rows that comparing leaves are those of the graph. -/
lemma foldl_compare_eq (live : Array Interval) :
    (pairs live.size).foldl (compare live) (Array.replicate live.size (.empty live.size)) =
      (Array.range live.size).map fun i =>
        (BitSet.empty live.size).insertAll ((List.range live.size).filter (interfere live i)) := by
  have hpairs : ∀ e ∈ pairs live.size, e.1 < e.2 ∧ e.2 < live.size := fun e he => mem_pairs.1 he
  obtain ⟨hrows, hbits⟩ := Rows.foldl_compare hpairs (Rows.replicate live.size)
  generalize (pairs live.size).foldl (compare live) _ = rows at hrows hbits
  refine Array.ext (by simpa using hrows.size) fun v hv hv' => ?_
  have hlt : v < live.size := hrows.size ▸ hv
  have hget : rows.getD v (.empty live.size) = rows[v] := by
    rw [Array.getD_eq_getD_getElem?, Array.getElem?_eq_getElem hv]
    rfl
  rw [Array.getElem_map, Array.getElem_range]
  refine (hget ▸ hrows.rowsOver v hlt).ext ((BitSet.Over.empty _).insertAll _) fun w hw => ?_
  rw [← hget, hbits, getD_replicate, (BitSet.Over.empty _).bit_insertAll
    fun i hi => List.mem_range.1 (List.mem_filter.1 hi).1]
  rw [Bool.eq_iff_iff]
  simp only [BitSet.bit_empty, Bool.false_or, Bool.and_eq_true, decide_eq_true_eq, mem_pairs,
    List.mem_filter, List.mem_range]
  constructor
  · exact fun h => ⟨hw, h.1⟩
  · refine fun h => ⟨h.2, ?_⟩
    rcases Nat.lt_trichotomy v w with hlt' | rfl | hlt'
    · exact .inl ⟨hlt', hw⟩
    · rw [interfere_self] at h
      cases h.2
    · exact .inr ⟨hlt', hlt⟩

/-- The graph is built without a false step. -/
lemma build?_eq (ivs : Intervals) : build? ivs = .ok (build ivs) := by
  unfold build? build
  dsimp only
  generalize ivs.intervals.filter (!·.isEmpty) = live
  have hfold : (pairs live.size).foldlM (compare? live)
      (Array.replicate live.size (BitSet.empty live.size)) =
      .ok ((pairs live.size).foldl (compare live)
        (Array.replicate live.size (BitSet.empty live.size))) := by
    refine foldlM_eq (fun l rows => Rows live.size rows ∧ ∀ e ∈ l, e.1 < e.2 ∧ e.2 < live.size) ?_
      ⟨Rows.replicate live.size, fun e he => mem_pairs.1 he⟩
    rintro e rest rows ⟨h, hl⟩
    obtain ⟨heq, hrows⟩ := h.compare?_eq (hl e List.mem_cons_self)
    exact ⟨heq, hrows, fun e' he' => hl e' (List.mem_cons_of_mem _ he')⟩
  rw [hfold, ok_bind, foldl_compare_eq]
  rfl

/-- A vertex that is removed is one of the graph. -/
lemma Removing.step?_eq {g : InterferenceGraph} {s : Simplifying} (h : Removing g s)
    (ivs : Intervals) (colors : Nat) :
    Simplifying.step? ivs colors s = .ok (Simplifying.step ivs colors s) := by
  unfold Simplifying.step? Simplifying.step
  cases hnext : s.graph.next? ivs colors with
  | none => rfl
  | some c =>
    obtain ⟨v, spill⟩ := c
    cases hreg : s.graph.reg? v with
    | none =>
      simp only [Option.bind_eq_bind, Option.bind_some, hreg]
      rfl
    | some reg =>
      have hv : v < g.size := by
        rw [← h.capacity]
        exact h.valid.bit_lt v ((BitSet.mem_toList_iff_bit _ v).1 (mem_of_next? hnext))
      have hover : s.graph.present.Over g.size := ⟨h.valid, h.capacity⟩
      have herase : s.graph.erase? v = .ok (s.graph.present.contains v, s.graph.erase v) := by
        unfold erase?
        rw [hover.erase?_ok hv]
        rfl
      simp only [Option.bind_eq_bind, Option.bind_some, hreg, herase]
      rfl

/-- The vertices of the graph of some intervals are removed without a false step. -/
lemma simplify?_eq (ivs : Intervals) (colors : Nat) :
    (build ivs).simplify? ivs colors = .ok ((build ivs).simplify ivs colors) := by
  have hdone : Simplifying.step ivs colors
      (repeatUpTo (Simplifying.step ivs colors) (build ivs).size ⟨build ivs, []⟩) = none := by
    refine repeatUpTo_done (Removing (build ivs)) (presence (build ivs))
      (fun _ _ hs h => hs.step h) (fun _ _ hs h => presence_step hs h) _ _
      (removing_build ivs) ?_
    have := List.countP_le_length (p := (build ivs).present.bit) (l := List.range (build ivs).size)
    rw [List.length_range] at this
    exact this
  unfold simplify?
  rw [repeatToEnd?_eq (Removing (build ivs)) (fun _ h => h.step?_eq ivs colors)
    (fun _ _ hs h => hs.step h) (removing_build ivs) hdone]
  rfl

end InterferenceGraph

end SsaBackend
