import SsaBackend.Proofs.BitSet
import SsaBackend.Proofs.Graph.SpanWalk

/-!
# What a search finds

`Digraph.reachable` keeps the nodes it has met in a set and those whose successors it has not
looked at on a stack. Between two steps every node met can be reached, and everything a met node
leads to is met too unless the node is still on the stack (`Reach.Sound`). A node is put on the
stack once, so that the search ends within its bound, and what it has met then is what can be
reached (`Digraph.contains_reachable`).
-/

namespace SsaBackend

namespace Digraph

namespace Reach

variable {g : Digraph} {s : Reach}

/-- Whether a node was not met yet. -/
def unmet (s : Reach) (n : Nat) : Nat := if s.met.contains n then 0 else 1

/-- The nodes on the stack and those not met yet: every step lowers it. -/
def toDo (g : Digraph) (s : Reach) : Nat :=
  s.stack.length + total ((List.range g.size).map s.unmet)

/-- A node that is met goes onto the stack. -/
lemma toDo_push {m : Nat} (hv : s.met.Valid) (hm : m < s.met.capacity)
    (hnew : m < g.size ∧ s.met.contains m = false) :
    toDo g ⟨s.met.insert m, m :: s.stack⟩ = toDo g s := by
  have hins := BitSet.contains_insert hv hm
  have hchange := total_map_change (f := Reach.unmet ⟨s.met.insert m, m :: s.stack⟩)
    (g := s.unmet) (List.nodup_range (n := g.size)) (List.mem_range.2 hnew.1) fun b _ hb => by
      unfold unmet
      simp [hins, Ne.symm hb]
  have hafter : Reach.unmet ⟨s.met.insert m, m :: s.stack⟩ m = 0 := by
    unfold unmet
    simp [hins]
  have hbefore : s.unmet m = 1 := by
    unfold unmet
    simp [hnew.2]
  unfold toDo
  simp only [List.length_cons]
  omega

/-- Meeting several nodes. -/
lemma foldl_meet (l : List Nat) (s : Reach) (hv : s.met.Valid) (hc : s.met.capacity = g.size) :
    let t := l.foldl meet s
    t.met.Valid ∧ t.met.capacity = g.size ∧
      (∀ n, t.met.contains n = true ↔ s.met.contains n = true ∨ n ∈ l ∧ n < g.size) ∧
      (∀ n ∈ t.stack, n ∈ s.stack ∨ n ∈ l ∧ n < g.size) ∧
      (∀ n, t.met.contains n = true → n ∉ t.stack → s.met.contains n = true ∧ n ∉ s.stack) ∧
      toDo g t = toDo g s := by
  induction l generalizing s with
  | nil =>
    refine ⟨hv, hc, by simp, fun n hn => .inl hn, fun n hn hs => ⟨hn, hs⟩, rfl⟩
  | cons m rest ih =>
    rw [List.foldl_cons]
    by_cases hnew : m < g.size ∧ s.met.contains m = false
    · -- the node is new
      have hm : s.meet m = ⟨s.met.insert m, m :: s.stack⟩ := by
        unfold meet
        rw [if_pos (by simpa [hc] using hnew)]
      have hins := BitSet.contains_insert hv (i := m) (hc ▸ hnew.1)
      rw [hm]
      obtain ⟨hv', hc', hmet, hstack, hout, hdo⟩ := ih ⟨s.met.insert m, m :: s.stack⟩
        (BitSet.valid_insert hv m) ((BitSet.capacity_insert ..).trans hc)
      refine ⟨hv', hc', ?_, ?_, ?_, hdo.trans ?_⟩
      · intro n
        rw [hmet, hins, Bool.or_eq_true, decide_eq_true_eq, List.mem_cons]
        constructor
        · rintro ((h | rfl) | h)
          · exact .inl h
          · exact .inr ⟨.inl rfl, hnew.1⟩
          · exact .inr ⟨.inr h.1, h.2⟩
        · rintro (h | ⟨rfl | h, hlt⟩)
          · exact .inl (.inl h)
          · exact .inl (.inr rfl)
          · exact .inr ⟨h, hlt⟩
      · intro n hn
        rcases hstack n hn with hn | ⟨hn, hlt⟩
        · rcases List.mem_cons.1 hn with rfl | hn
          · exact .inr ⟨List.mem_cons_self, hnew.1⟩
          · exact .inl hn
        · exact .inr ⟨List.mem_cons_of_mem _ hn, hlt⟩
      · intro n hn hns
        obtain ⟨hn, hns⟩ := hout n hn hns
        rw [List.mem_cons, not_or] at hns
        rw [hins, Bool.or_eq_true, decide_eq_true_eq] at hn
        exact ⟨hn.resolve_right (Ne.symm hns.1), hns.2⟩
      · exact toDo_push hv (hc ▸ hnew.1) hnew
    · have hm : s.meet m = s := by
        unfold meet
        rw [if_neg (by simpa [hc] using hnew)]
      -- otherwise meeting it changes nothing
      rw [hm]
      obtain ⟨hv', hc', hmet, hstack, hout, hdo⟩ := ih s hv hc
      refine ⟨hv', hc', ?_, ?_, hout, hdo⟩
      · intro n
        rw [hmet, List.mem_cons]
        constructor
        · exact Or.imp_right fun h => ⟨.inr h.1, h.2⟩
        · rintro (h | ⟨rfl | h, hlt⟩)
          · exact .inl h
          · exact .inl (by simpa [hlt] using hnew)
          · exact .inr ⟨h, hlt⟩
      · intro n hn
        exact (hstack n hn).imp_right fun h => ⟨List.mem_cons_of_mem _ h.1, h.2⟩

/-- What holds between two steps. -/
structure Sound (g : Digraph) (start : Nat) (s : Reach) : Prop where
  valid : s.met.Valid
  capacity : s.met.capacity = g.size
  start_met : s.met.contains start = true
  stack : ∀ n ∈ s.stack, s.met.contains n = true
  reached : ∀ n, s.met.contains n = true → Reaches g.Edge start n
  closed : ∀ m n, s.met.contains m = true → m ∉ s.stack → g.Edge m n → n < g.size →
    s.met.contains n = true

lemma Sound.step {start : Nat} (h : Sound g start s) {s' : Reach} (hs : Reach.step g s = some s') :
    Sound g start s' ∧ toDo g s' < toDo g s := by
  unfold Reach.step at hs
  split at hs
  · cases hs
  · rename_i n rest hstack
    cases hs
    have hn := h.stack n (hstack ▸ List.mem_cons_self)
    obtain ⟨hv, hc, hmet, hst, hout, hdo⟩ :=
      foldl_meet (g := g) (g.succs n) { s with stack := rest } h.valid h.capacity
    refine ⟨⟨hv, hc, (hmet start).2 (.inl h.start_met), ?_, ?_, ?_⟩, ?_⟩
    · intro m hm
      rcases hst m hm with hm | hm
      · exact (hmet m).2 (.inl (h.stack m (hstack ▸ List.mem_cons_of_mem _ hm)))
      · exact (hmet m).2 (.inr hm)
    · intro m hm
      rcases (hmet m).1 hm with hm | hm
      · exact h.reached m hm
      · exact (h.reached n hn).step hm.1
    · intro m k hm hms hedge hk
      obtain ⟨hm', hrest⟩ := hout m hm hms
      rw [hmet]
      by_cases he : m = n
      · exact .inr ⟨he ▸ hedge, hk⟩
      · refine .inl (h.closed m k hm' ?_ hedge hk)
        rw [hstack, List.mem_cons, not_or]
        exact ⟨he, hrest⟩
    · rw [hdo]
      unfold toDo
      rw [hstack]
      show rest.length + total ((List.range g.size).map s.unmet) < _
      rw [List.length_cons]
      omega

lemma total_map_one (l : List Nat) : total (l.map fun _ => 1) = l.length := by
  induction l with
  | nil => rfl
  | cons a l ih =>
    rw [List.map_cons, total_cons, ih, List.length_cons]
    omega

/-- The search starts with its start node met, and nothing else. -/
lemma sound_start {start : Nat} (hlt : start < g.size) :
    Sound g start (meet ⟨BitSet.empty g.size, []⟩ start) ∧
      toDo g (meet ⟨BitSet.empty g.size, []⟩ start) ≤ g.size := by
  have hempty : ∀ n, (BitSet.empty g.size).contains n = false := by
    intro n
    show (decide _ && (BitSet.empty g.size).bit n) = false
    rw [BitSet.bit_empty, Bool.and_false]
  obtain ⟨hv, hc, hmet, hst, hout, hdo⟩ := foldl_meet (g := g) [start]
    ⟨BitSet.empty g.size, []⟩ (BitSet.valid_empty _) rfl
  have hmet' : ∀ n, (meet ⟨BitSet.empty g.size, []⟩ start).met.contains n = true ↔ n = start := by
    intro n
    refine (hmet n).trans ?_
    rw [hempty, List.mem_singleton]
    constructor
    · rintro (h | h)
      · cases h
      · exact h.1
    · rintro rfl
      exact .inr ⟨rfl, hlt⟩
  refine ⟨⟨hv, hc, (hmet' start).2 rfl, ?_, ?_, ?_⟩, ?_⟩
  · intro n hn
    rcases hst n hn with hn | hn
    · cases hn
    · exact (hmet n).2 (.inr hn)
  · intro n hn
    rw [hmet'] at hn
    subst hn
    exact Reaches.init
  · intro m n hm hms
    have := (hout m hm hms).1
    rw [hempty] at this
    cases this
  · refine Nat.le_trans (Nat.le_of_eq hdo) ?_
    show 0 + total ((List.range g.size).map _) ≤ g.size
    have hone : (List.range g.size).map (Reach.unmet ⟨BitSet.empty g.size, []⟩) =
        (List.range g.size).map fun _ => 1 := by
      refine List.map_congr_left fun n _ => ?_
      unfold unmet
      rw [if_neg (by rw [hempty]; simp)]
    rw [hone, Nat.zero_add]
    exact Nat.le_of_eq (by rw [total_map_one, List.length_range])

/-- The search comes to its end. -/
lemma step_end {start : Nat} (hlt : start < g.size) :
    Reach.step g (repeatUpTo (Reach.step g) g.size
      (Reach.meet ⟨BitSet.empty g.size, []⟩ start)) = none := by
  obtain ⟨hstart, hdo⟩ := sound_start (g := g) hlt
  exact repeatUpTo_done (Sound g start) (toDo g) (fun _ _ h hstep => (h.step hstep).1)
    (fun _ _ h hstep => (h.step hstep).2) _ _ hstart hdo

end Reach

/-- A search finds what can be reached, in a graph with all edges among its nodes. -/
theorem contains_reachable {g : Digraph} (hg : g.Consistent) {start : Nat} (hlt : start < g.size)
    (n : Nat) : (g.reachable start).contains n = true ↔ Reaches g.Edge start n := by
  have hdone := Reach.step_end (g := g) hlt
  set s := repeatUpTo (Reach.step g) g.size (Reach.meet ⟨BitSet.empty g.size, []⟩ start) with hs
  have hsound : Reach.Sound g start s :=
    repeatUpTo_induct _ (fun _ _ h hstep => (h.step hstep).1) _ _ (Reach.sound_start hlt).1
  have hnil : s.stack = [] := by
    unfold Reach.step at hdone
    split at hdone
    · assumption
    · cases hdone
  show s.met.contains n = true ↔ _
  constructor
  · exact hsound.reached n
  · intro h
    refine (h.induct (P := fun n => n < g.size ∧ s.met.contains n = true)
      ⟨hlt, hsound.start_met⟩ ?_).2
    intro a b _ ha hab
    have hb := hg.succ_lt a ha.1 b hab
    exact ⟨hb, hsound.closed a b ha.2 (by simp [hnil]) hab hb⟩

end Digraph

end SsaBackend
