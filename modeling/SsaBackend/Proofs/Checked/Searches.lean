import SsaBackend.Proofs.Checked.Access
import SsaBackend.Proofs.Graph.Order
import SsaBackend.Proofs.Graph.Reachability

/-!
# The searches, with every set looked at

A search enters the nodes it meets in a set that has a place for each node of the graph. Here the
set refuses a node that it has no place for. In a graph whose edges stay inside nothing is refused
(`reversePostorder?_eq`, `reachable?_eq`).
-/

namespace SsaBackend

namespace Digraph

/-- Does the next thing on the stack. -/
def Walk.step? (g : Digraph) (s : Walk) : Except Error (Option Walk) := do
  match s.stack with
  | [] => return none
  | .leave n :: rest => return some { s with stack := rest, done := n :: s.done }
  | .enter n :: rest =>
    let (new, entered) ← s.entered.insert? n
    if new then
      let fresh := (g.succs n).filter (!entered.contains ·)
      return some { s with entered, stack := fresh.map .enter ++ .leave n :: rest }
    else return some { s with stack := rest }

/-- The reverse of postorder; nothing is reached from outside the graph. -/
def reversePostorder? (g : Digraph) (start : Nat) : Except Error (List Nat) := do
  if g.size ≤ start then return []
  return (← repeatToEnd? (Walk.step? g) (g.walkBound + 1)
    ⟨BitSet.empty g.size, [.enter start], []⟩).done

/-- The nodes reachable from `start`, each after those first found through it. -/
def postorder? (g : Digraph) (start : Nat) : Except Error (List Nat) := do
  return (← g.reversePostorder? start).reverse

/-- Marks a node, and puts it on the stack if it is met for the first time. -/
def Reach.meet? (s : Reach) (n : Nat) : Except Error Reach := do
  let (new, met) ← s.met.insert? n
  if new then return ⟨met, n :: s.stack⟩ else return s

/-- Meets the successors of the node on top of the stack. -/
def Reach.step? (g : Digraph) (s : Reach) : Except Error (Option Reach) := do
  match s.stack with
  | [] => return none
  | n :: rest => some <$> (g.succs n).foldlM Reach.meet? { s with stack := rest }

/-- The nodes that can be reached from `start`; none from outside the graph. -/
def reachable? (g : Digraph) (start : Nat) : Except Error BitSet := do
  if g.size ≤ start then return BitSet.empty g.size
  return (← repeatToEnd? (Reach.step? g) (g.size + 1)
    (← Reach.meet? ⟨BitSet.empty g.size, []⟩ start)).met

variable {g : Digraph} {start : Nat}

/-! ## Orders -/

/-- A step of a traversal is not refused. -/
lemma Walk.step?_eq (hg : g.Consistent) (hstart : start < g.size) {s : Walk}
    (h : Walk.Sound g start s) : Walk.step? g s = .ok (Walk.step g s) := by
  unfold Walk.step? Walk.step
  cases hstack : s.stack with
  | nil => rfl
  | cons v rest =>
    cases v with
    | leave n => rfl
    | enter n =>
      have hn : n < g.size := by
        have hreach := h.found n (.inr (hstack ▸ List.mem_cons_self))
        exact hreach.induct (P := (· < g.size)) hstart fun a b _ ha hab => hg.succ_lt a ha b hab
      dsimp only
      rw [h.inRange.insert?_ok hn, ok_bind]
      dsimp only
      rw [decide_eq_true hn, Bool.true_and]
      split <;> rfl

/-- A traversal that is to begin outside the graph enters nothing. -/
lemma reversePostorder_of_le (hstart : g.size ≤ start) : g.reversePostorder start = [] := by
  have hend : ∀ n, (repeatUpTo (Walk.step g) n ⟨BitSet.empty g.size, [], []⟩).done = [] := by
    intro n
    rw [repeatUpTo_of_none rfl]
  unfold reversePostorder
  cases g.walkBound with
  | zero => rfl
  | succ n =>
    have hskip : Walk.step g ⟨BitSet.empty g.size, [.enter start], []⟩ =
        some ⟨BitSet.empty g.size, [], []⟩ := by
      unfold Walk.step
      dsimp only
      rw [decide_eq_false (Nat.not_lt.2 hstart), Bool.false_and]
      rfl
    rw [repeatUpTo, hskip]
    exact hend n

/-- The order is found without a false step. -/
lemma reversePostorder?_eq (hg : g.Consistent) (start : Nat) :
    g.reversePostorder? start = .ok (g.reversePostorder start) := by
  by_cases hout : g.size ≤ start
  · rw [reversePostorder_of_le hout]
    exact if_pos hout
  have hstart : start < g.size := by omega
  -- the running loop has turns enough, so the one that must end does so in the same state
  unfold reversePostorder?
  rw [if_neg hout, repeatToEnd?_eq (Walk.Sound g start)
    (fun _ h => Walk.step?_eq hg hstart h) (fun _ _ h hs => (h.step hg hstart hs).1)
    (Walk.sound_start g start).1 (Walk.step_end hg hstart)]
  rfl

lemma postorder?_eq (hg : g.Consistent) (start : Nat) :
    g.postorder? start = .ok (g.postorder start) := by
  unfold postorder?
  rw [reversePostorder?_eq hg]
  rfl

/-! ## Reachability -/

/-- A node of the graph is met. -/
lemma Reach.meet?_eq {s : Reach} {n : Nat} (hs : s.met.Over g.size) (hn : n < g.size) :
    s.meet? n = .ok (s.meet n) ∧ (s.meet n).met.Over g.size := by
  have hmeet : s.meet n = if !s.met.contains n then ⟨s.met.insert n, n :: s.stack⟩ else s := by
    unfold Reach.meet
    rw [decide_eq_true (hs.capacity.symm ▸ hn), Bool.true_and]
  constructor
  · unfold Reach.meet?
    rw [hs.insert?_ok hn, ok_bind, hmeet]
    dsimp only
    split <;> rfl
  · rw [hmeet]
    split
    · exact hs.insert n
    · exact hs

/-- A step of a search is not refused. -/
lemma Reach.step?_eq (hg : g.Consistent) (hstart : start < g.size) {s : Reach}
    (h : Reach.Sound g start s) : Reach.step? g s = .ok (Reach.step g s) := by
  unfold Reach.step? Reach.step
  cases hstack : s.stack with
  | nil => rfl
  | cons n rest =>
    have hn : n < g.size := by
      have hreach := h.reached n (h.stack n (hstack ▸ List.mem_cons_self))
      exact hreach.induct (P := (· < g.size)) hstart fun a b _ ha hab => hg.succ_lt a ha b hab
    have hfold : (g.succs n).foldlM Reach.meet? { s with stack := rest } =
        .ok ((g.succs n).foldl Reach.meet { s with stack := rest }) := by
      refine foldlM_eq (fun l s => s.met.Over g.size ∧ ∀ m ∈ l, m < g.size) ?_
        ⟨⟨h.valid, h.capacity⟩, hg.succ_lt n hn⟩
      rintro m l s' ⟨hs', hl⟩
      obtain ⟨heq, hover⟩ := Reach.meet?_eq hs' (hl m List.mem_cons_self)
      exact ⟨heq, hover, fun k hk => hl k (List.mem_cons_of_mem _ hk)⟩
    dsimp only
    rw [hfold]
    rfl

/-- A search that is to begin outside the graph meets nothing. -/
lemma reachable_of_le (hstart : g.size ≤ start) : g.reachable start = BitSet.empty g.size := by
  have hmeet : Reach.meet ⟨BitSet.empty g.size, []⟩ start = ⟨BitSet.empty g.size, []⟩ := by
    have hcap : (BitSet.empty g.size).capacity = g.size := rfl
    unfold Reach.meet
    dsimp only
    rw [hcap, decide_eq_false (Nat.not_lt.2 hstart), Bool.false_and]
    rfl
  unfold reachable
  rw [hmeet, repeatUpTo_of_none rfl]

/-- What can be reached is found without a false step. -/
lemma reachable?_eq (hg : g.Consistent) (start : Nat) :
    g.reachable? start = .ok (g.reachable start) := by
  by_cases hout : g.size ≤ start
  · rw [reachable_of_le hout]
    exact if_pos hout
  have hstart : start < g.size := by omega
  unfold reachable?
  rw [if_neg hout, (Reach.meet?_eq (BitSet.Over.empty g.size) hstart).1, ok_bind,
    repeatToEnd?_eq (Reach.Sound g start) (fun _ h => Reach.step?_eq hg hstart h)
      (fun _ _ h hs => (h.step hs).1) (Reach.sound_start hstart).1 (Reach.step_end hstart)]
  rfl

end Digraph

end SsaBackend
