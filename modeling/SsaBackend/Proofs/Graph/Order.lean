import Mathlib.Data.List.Nodup
import SsaBackend.Proofs.BitSet
import SsaBackend.Proofs.Graph.SpanWalk

/-!
# What a depth-first order lists

A traversal enters a node once, and puts the leaving of it on its stack. So the nodes entered are
those on the stack to be left and those left already, each of them once (`Walk.Sound`). As soon as
the stack is empty the nodes left are those that can be reached
(`Digraph.reversePostorder_lists`).
-/

namespace SsaBackend

namespace Digraph

/-- The node that is left by a visit. -/
def Visit.left? : Visit → Option Nat
  | .enter _ => none
  | .leave n => some n

namespace Walk

variable {g : Digraph} {start : Nat} {s : Walk}

/-- The nodes that were entered: those still to be left, and those left already. -/
def opened (s : Walk) : List Nat := s.stack.filterMap Visit.left? ++ s.done

/-- What holds between two steps. -/
structure Sound (g : Digraph) (start : Nat) (s : Walk) : Prop where
  inRange : s.entered.Over g.size
  entered : ∀ n, s.entered.bit n = true ↔ n ∈ s.opened
  once : s.opened.Nodup
  begun : s.entered.bit start = true ∨ .enter start ∈ s.stack
  found : ∀ n, n ∈ s.opened ∨ .enter n ∈ s.stack → Reaches g.Edge start n
  closed : ∀ m n, s.entered.bit m = true → g.Edge m n → s.entered.bit n = true ∨ .enter n ∈ s.stack

/-- What entering a node will cost: its leaving, and one visit for each of its edges. -/
def price (g : Digraph) (s : Walk) (n : Nat) : Nat :=
  if s.entered.bit n then 0 else 1 + (g.succs n).length

/-- The visits on the stack and those that are still to come: every step lowers it. -/
def toDo (g : Digraph) (s : Walk) : Nat :=
  s.stack.length + total ((List.range g.size).map (price g s))

/-- The successors of a node that were not entered when it is. -/
def fresh (g : Digraph) (s : Walk) (n : Nat) : List Nat :=
  (g.succs n).filter fun m => !(s.entered.insert n).contains m

/-- The traversal when it has entered a node and `rest` was on the stack below. -/
def enter (g : Digraph) (s : Walk) (n : Nat) (rest : List Visit) : Walk :=
  { s with entered := s.entered.insert n, stack := (s.fresh g n).map .enter ++ .leave n :: rest }

/-- Nothing is left by visits that enter. -/
lemma filterMap_left_enter (l : List Nat) : (l.map Visit.enter).filterMap Visit.left? = [] := by
  rw [List.filterMap_eq_nil_iff]
  intro v hv
  obtain ⟨m, -, rfl⟩ := List.mem_map.1 hv
  rfl

lemma opened_enter {n : Nat} {rest : List Visit} (hstack : s.stack = .enter n :: rest) :
    (s.enter g n rest).opened = n :: s.opened := by
  unfold Walk.enter opened
  rw [List.filterMap_append, filterMap_left_enter, hstack]
  rfl

section

variable {n : Nat} {rest : List Visit} (h : Sound g start s)

include h

/-- Leaving a node moves it from the stack to those left. -/
lemma Sound.leave (hstack : s.stack = .leave n :: rest) :
    Sound g start { s with stack := rest, done := n :: s.done } := by
  have hopened : s.opened = n :: (rest.filterMap Visit.left? ++ s.done) := by
    unfold opened
    rw [hstack]
    rfl
  have hperm : (rest.filterMap Visit.left? ++ n :: s.done).Perm s.opened := by
    rw [hopened]
    exact List.perm_middle
  have hkept : ∀ m, .enter m ∈ s.stack ↔ .enter m ∈ rest := by
    intro m
    rw [hstack]
    simp
  refine ⟨h.inRange, ?_, hperm.nodup_iff.2 h.once, ?_, ?_, ?_⟩
  · intro m
    exact (h.entered m).trans hperm.mem_iff.symm
  · exact h.begun.imp_right (hkept start).1
  · intro m hm
    exact h.found m (hm.imp hperm.mem_iff.1 (hkept m).2)
  · intro k m hk hedge
    exact (h.closed k m hk hedge).imp_right (hkept m).1

/-- A node that was entered before is passed over. -/
lemma Sound.skip (hstack : s.stack = .enter n :: rest) (hold : s.entered.bit n = true) :
    Sound g start { s with stack := rest } := by
  have hopened : s.opened = rest.filterMap Visit.left? ++ s.done := by
    unfold opened
    rw [hstack]
    rfl
  have hkept : ∀ m, s.entered.bit m = true ∨ .enter m ∈ s.stack →
      s.entered.bit m = true ∨ .enter m ∈ rest := by
    rintro m (hm | hm)
    · exact .inl hm
    · rw [hstack, List.mem_cons] at hm
      rcases hm with hm | hm
      · cases hm
        exact .inl hold
      · exact .inr hm
  refine ⟨h.inRange, ?_, ?_, hkept start h.begun, ?_, ?_⟩
  · intro m
    rw [h.entered, hopened]
    exact Iff.rfl
  · have honce := h.once
    rw [hopened] at honce
    exact honce
  · intro m hm
    refine h.found m (hm.imp ?_ fun hm => hstack ▸ List.mem_cons_of_mem _ hm)
    rw [hopened]
    exact id
  · intro k m hk hedge
    exact hkept m (h.closed k m hk hedge)

lemma Sound.bit_enter (hn : n < g.size) (m : Nat) :
    (s.enter g n rest).entered.bit m = (s.entered.bit m || decide (n = m)) :=
  h.inRange.bit_insert hn m

/-- Entering a node for the first time. -/
lemma Sound.enter (hstack : s.stack = .enter n :: rest) (hn : n < g.size)
    (hnew : s.entered.bit n = false) : Sound g start (s.enter g n rest) := by
  have hbit : ∀ m, (s.enter g n rest).entered.bit m = (s.entered.bit m || decide (n = m)) :=
    h.bit_enter hn
  have hopened := opened_enter (g := g) hstack
  have hfresh : ∀ m, m ∈ s.fresh g n ↔
      m ∈ g.succs n ∧ (s.enter g n rest).entered.bit m = false := by
    intro m
    unfold fresh
    rw [List.mem_filter, (h.inRange.insert n).contains, Bool.not_eq_true']
    exact Iff.rfl
  have hkept : ∀ m, .enter m ∈ (s.enter g n rest).stack ↔
      m ∈ s.fresh g n ∨ .enter m ∈ rest := by
    intro m
    simp [Walk.enter]
  have hreach := h.found n (.inr (hstack ▸ List.mem_cons_self))
  refine ⟨h.inRange.insert n, ?_, ?_, ?_, ?_, ?_⟩
  · intro m
    rw [hbit, hopened, List.mem_cons, Bool.or_eq_true, h.entered, decide_eq_true_eq, or_comm,
      eq_comm]
  · rw [hopened]
    refine List.nodup_cons.2 ⟨?_, h.once⟩
    rw [← h.entered, hnew]
    simp
  · -- the start was entered before, is entered now, or still waits
    rcases h.begun with hb | hb
    · exact .inl (by rw [hbit, hb, Bool.true_or])
    · rw [hstack, List.mem_cons] at hb
      rcases hb with hb | hb
      · cases hb
        exact .inl (by simp [hbit])
      · exact .inr ((hkept start).2 (.inr hb))
  · intro m hm
    rw [hopened, hkept, List.mem_cons] at hm
    rcases hm with (rfl | hm) | hm | hm
    · exact hreach
    · exact h.found m (.inl hm)
    · exact hreach.step ((hfresh m).1 hm).1
    · exact h.found m (.inr (hstack ▸ List.mem_cons_of_mem _ hm))
  · intro k m hk hedge
    rw [hkept]
    -- an edge from the new node leads to a node that is entered or waits from now on
    by_cases hm : (s.enter g n rest).entered.bit m = true
    · exact .inl hm
    rw [Bool.not_eq_true] at hm
    rw [hbit, Bool.or_eq_true, decide_eq_true_eq] at hk
    rcases hk with hk | rfl
    · rcases h.closed k m hk hedge with hc | hc
      · rw [hbit, hc] at hm
        cases hm
      · rw [hstack, List.mem_cons] at hc
        rcases hc with hc | hc
        · cases hc
          simp [hbit] at hm
        · exact .inr (.inr hc)
    · exact .inr (.inl ((hfresh m).2 ⟨hedge, hm⟩))

/-- The node that is entered pays for its leaving and for its edges. -/
lemma Sound.toDo_enter (hstack : s.stack = .enter n :: rest) (hn : n < g.size)
    (hnew : s.entered.bit n = false) : toDo g (s.enter g n rest) < toDo g s := by
  have hbit : ∀ m, (s.enter g n rest).entered.bit m = (s.entered.bit m || decide (n = m)) :=
    h.bit_enter hn
  have hchange := total_map_change (f := price g (s.enter g n rest)) (g := price g s)
    (List.nodup_range (n := g.size)) (List.mem_range.2 hn) fun m _ hm => by
      unfold price
      rw [hbit, decide_eq_false (Ne.symm hm), Bool.or_false]
  have hafter : price g (s.enter g n rest) n = 0 := by simp [price, hbit]
  have hbefore : price g s n = 1 + (g.succs n).length := by simp [price, hnew]
  have hlen : (s.enter g n rest).stack.length = (s.fresh g n).length + (1 + rest.length) := by
    unfold Walk.enter
    rw [List.length_append, List.length_map, List.length_cons, Nat.add_comm 1]
  have hle : (s.fresh g n).length ≤ (g.succs n).length := List.length_filter_le ..
  unfold toDo
  rw [hlen, hstack, List.length_cons]
  omega

end

/-- A visit that enters no node is taken off the stack. -/
lemma toDo_pop {v : Visit} {rest : List Visit} (hstack : s.stack = v :: rest) (done : List Nat) :
    toDo g { s with stack := rest, done } < toDo g s := by
  unfold toDo
  rw [hstack, List.length_cons]
  show rest.length + total ((List.range g.size).map (price g s)) < _
  omega

lemma Sound.step (hg : g.Consistent) (hstart : start < g.size) (h : Sound g start s) {s' : Walk}
    (hs : Walk.step g s = some s') : Sound g start s' ∧ toDo g s' < toDo g s := by
  unfold Walk.step at hs
  split at hs
  · cases hs
  · rename_i n rest hstack
    cases hs
    exact ⟨h.leave hstack, toDo_pop hstack _⟩
  · rename_i n rest hstack
    have hn : n < g.size := by
      have := h.found n (.inr (hstack ▸ List.mem_cons_self))
      exact this.induct (P := (· < g.size)) hstart fun a b _ ha hab => hg.succ_lt a ha b hab
    split at hs
    · rename_i hnew
      cases hs
      rw [Bool.and_eq_true, Bool.not_eq_true', h.inRange.contains] at hnew
      exact ⟨h.enter hstack hn hnew.2, h.toDo_enter hstack hn hnew.2⟩
    · rename_i hold
      cases hs
      refine ⟨h.skip hstack ?_, toDo_pop hstack _⟩
      rw [h.inRange.contains] at hold
      simpa [hn] using hold

/-- A traversal starts with nothing entered, and its bound pays for all nodes and edges. -/
lemma sound_start (g : Digraph) (start : Nat) :
    Sound g start ⟨BitSet.empty g.size, [.enter start], []⟩ ∧
      toDo g ⟨BitSet.empty g.size, [.enter start], []⟩ ≤ g.walkBound := by
  have hbit : ∀ n, (BitSet.empty g.size).bit n = false := BitSet.bit_empty g.size
  refine ⟨⟨.empty _, ?_, List.nodup_nil, .inr List.mem_cons_self, ?_, ?_⟩, ?_⟩
  · intro n
    simp [hbit, opened, Visit.left?]
  · rintro n (hn | hn)
    · simp [opened, Visit.left?] at hn
    · cases List.mem_singleton.1 hn
      exact Reaches.init
  · intro m n hm
    rw [hbit] at hm
    cases hm
  · have hsum : ∀ l : List Nat,
        total (l.map (price g ⟨BitSet.empty g.size, [.enter start], []⟩)) =
        l.length + total (l.map fun n => (g.succs n).length) := by
      intro l
      induction l with
      | nil => rfl
      | cons n l ih =>
        have hprice : price g ⟨BitSet.empty g.size, [.enter start], []⟩ n =
            1 + (g.succs n).length := by simp [price, hbit]
        rw [List.map_cons, List.map_cons, total_cons, total_cons, ih, hprice, List.length_cons]
        omega
    unfold toDo walkBound edgeCount
    rw [hsum, List.length_range]
    show 1 + (g.size + _) ≤ _
    omega

/-- The traversal comes to its end. -/
lemma step_end (hg : g.Consistent) (hstart : start < g.size) :
    Walk.step g (repeatUpTo (Walk.step g) g.walkBound
      ⟨BitSet.empty g.size, [.enter start], []⟩) = none := by
  obtain ⟨hsound, hbound⟩ := sound_start g start
  exact repeatUpTo_done (Sound g start) (toDo g) (fun _ _ h hs => (h.step hg hstart hs).1)
    (fun _ _ h hs => (h.step hg hstart hs).2) _ _ hsound hbound

/-- The order is what the traversal has left by its end. Whatever every step keeps holds there. -/
lemma exists_end (hg : g.Consistent) (hstart : start < g.size) (P : Walk → Prop)
    (hinit : P ⟨BitSet.empty g.size, [.enter start], []⟩)
    (hstep : ∀ s s', P s → Walk.step g s = some s' → P s') :
    ∃ s, Sound g start s ∧ P s ∧ s.stack = [] ∧ g.reversePostorder start = s.done := by
  refine ⟨repeatUpTo (Walk.step g) g.walkBound ⟨BitSet.empty g.size, [.enter start], []⟩, ?_,
    repeatUpTo_induct P hstep _ _ hinit, ?_, rfl⟩
  · exact repeatUpTo_induct _ (fun _ _ h hs => (h.step hg hstart hs).1) _ _ (sound_start g start).1
  · have hdone := step_end hg hstart
    unfold Walk.step at hdone
    split at hdone
    · assumption
    · cases hdone
    · split at hdone
      · cases hdone
      · cases hdone

end Walk

/-- The order lists the nodes that can be reached, each of them once. -/
theorem reversePostorder_lists {g : Digraph} (hg : g.Consistent) {start : Nat}
    (hstart : start < g.size) :
    (g.reversePostorder start).Nodup ∧
      ∀ n, n ∈ g.reversePostorder start ↔ Reaches g.Edge start n := by
  obtain ⟨s, hsound, -, hnil, horder⟩ :=
    Walk.exists_end hg hstart (fun _ => True) trivial fun _ _ _ _ => trivial
  have hopened : s.opened = s.done := by
    unfold Walk.opened
    rw [hnil]
    rfl
  rw [horder, ← hopened]
  refine ⟨hsound.once, fun n => ?_⟩
  constructor
  · intro hn
    exact hsound.found n (.inl hn)
  · intro h
    rw [← hsound.entered]
    refine h.induct (P := fun n => s.entered.bit n = true) ?_ ?_
    · exact hsound.begun.resolve_right (by simp [hnil])
    · intro a b _ ha hab
      exact (hsound.closed a b ha hab).resolve_right (by simp [hnil])

end Digraph

end SsaBackend
