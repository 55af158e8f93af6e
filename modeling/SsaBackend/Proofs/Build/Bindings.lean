import SsaBackend.Draft.Bindings
import SsaBackend.Proofs.Tables

/-!
# Looking up what was bound

What the bindings of a draft say after each of the changes to them.
-/

namespace SsaBackend

/-- Variables are told apart by their numbers. -/
lemma Variable.index_inj {x y : Variable} : x.index = y.index ↔ x = y := by
  cases x
  cases y
  simp

namespace Bindings

variable {s : Bindings} {x y : Variable} {b c : BlockId} {v : Value} {i phi : InstId}

/-! ## Values -/

lemma value?_bind : (s.bind x b v).value? y c = if y = x ∧ c = b then some v else s.value? y c := by
  unfold bind value?
  simp only [NatMap.get?_insert]
  by_cases hc : c = b
  · subst hc
    simp only [if_true, Option.bind_some, NatMap.get?_insert, and_true]
    by_cases hy : y = x
    · rw [if_pos hy, if_pos (by rw [hy])]
    · rw [if_neg hy, if_neg fun he => hy (Variable.index_inj.1 he)]
      cases s.defs.get? c.index with
      | none => rfl
      | some m => rfl
  · rw [if_neg fun he => hc (BlockId.index_inj.1 he), if_neg fun h => hc h.2]

lemma value?_bind_self : (s.bind x b v).value? x b = some v := by
  rw [value?_bind, if_pos ⟨rfl, rfl⟩]

/-- Binding a variable where it was not bound loses nothing. -/
lemma value?_bind_of_none {u : Value} (hnone : s.value? x b = none)
    (hu : s.value? y c = some u) : (s.bind x b v).value? y c = some u := by
  rw [value?_bind, if_neg]
  · exact hu
  · rintro ⟨rfl, rfl⟩
    rw [hnone] at hu
    cases hu

lemma value?_mapValues (g : Value → Value) :
    (s.mapValues g).value? x b = (s.value? x b).map g := by
  unfold mapValues value?
  simp only [NatMap.get?_map]
  cases s.defs.get? b.index with
  | none => rfl
  | some m => exact NatMap.get?_map ..

/-! ## Guards -/

lemma mem_guard : i ∈ (s.guard phi).guarded ↔ i = phi ∨ i ∈ s.guarded := by
  unfold guard
  split
  · rename_i h
    constructor
    · exact .inr
    · intro h'
      rcases h' with rfl | h'
      · exact h
      · exact h'
  · exact List.mem_cons

/-- Guarding a phi changes nothing else. -/
lemma guard_eq : s.guard phi = { s with guarded := (s.guard phi).guarded } := by
  unfold guard
  split <;> rfl

@[simp] lemma value?_guard : (s.guard phi).value? x b = s.value? x b := by
  rw [guard_eq]
  rfl

@[simp] lemma isSealed_guard : (s.guard phi).isSealed b = s.isSealed b := by
  rw [guard_eq]
  rfl

@[simp] lemma pendingAt_guard : (s.guard phi).pendingAt b = s.pendingAt b := by
  rw [guard_eq]
  rfl

lemma mem_unguard : i ∈ (s.unguard phi).guarded ↔ i ∈ s.guarded ∧ i ≠ phi := by
  unfold unguard
  simp

/-! ## Sealed blocks -/

lemma isSealed_markSealed :
    (s.markSealed b).isSealed c = true ↔ c = b ∨ s.isSealed c = true := by
  unfold markSealed
  split
  · rename_i h
    constructor
    · exact .inr
    · intro h'
      rcases h' with rfl | h'
      · exact h
      · exact h'
  · simp [isSealed]

/-- Sealing a block changes nothing else. -/
lemma markSealed_eq :
    s.markSealed b = { s with sealedBlocks := (s.markSealed b).sealedBlocks } := by
  unfold markSealed
  split <;> rfl

@[simp] lemma value?_markSealed : (s.markSealed b).value? x c = s.value? x c := by
  rw [markSealed_eq]
  rfl

@[simp] lemma pendingAt_markSealed : (s.markSealed b).pendingAt c = s.pendingAt c := by
  rw [markSealed_eq]
  rfl

/-! ## Placeholders -/

lemma mem_pendingAt_addPending {e : Variable × InstId}
    (h : e ∈ (s.addPending x b phi).pendingAt c) :
    (c = b ∧ e = (x, phi)) ∨ e ∈ s.pendingAt c := by
  unfold addPending pendingAt at *
  simp only [NatMap.get?_insert] at h
  by_cases hc : c = b
  · subst hc
    simp only [if_true, Option.elim_some] at h
    obtain ⟨n, hn, rfl⟩ := List.mem_map.1 h
    rcases NatMap.mem_insertEntry hn with rfl | hn
    · exact .inl ⟨rfl, rfl⟩
    · refine .inr ?_
      cases hget : s.pending.get? c.index with
      | none =>
        rw [hget] at hn
        cases hn
      | some m =>
        rw [hget] at hn
        exact List.mem_map_of_mem hn
  · rw [if_neg fun he => hc (BlockId.index_inj.1 he)] at h
    exact .inr h

/-- A placeholder for a variable that has none yet is one more. -/
lemma pendingAt_addPending (h : ∀ e ∈ s.pendingAt b, e.1 ≠ x) (c : BlockId) :
    ((s.addPending x b phi).pendingAt c).Perm
      (if c = b then (x, phi) :: s.pendingAt b else s.pendingAt c) := by
  unfold addPending pendingAt at *
  simp only [NatMap.get?_insert]
  by_cases hc : c = b
  · subst hc
    simp only [if_true, Option.elim_some]
    have hkeys : ∀ e ∈ ((s.pending.get? c.index).getD .empty).entries, e.1 ≠ x.index := by
      intro e he hkey
      cases hget : s.pending.get? c.index with
      | none =>
        rw [hget] at he
        cases he
      | some m =>
        rw [hget] at h he
        exact h _ (List.mem_map_of_mem he) (Variable.index_inj.1 hkey)
    refine ((NatMap.insertEntry_perm hkeys).map _).trans ?_
    cases s.pending.get? c.index with
    | none => exact .refl _
    | some m => exact .refl _
  · rw [if_neg fun he => hc (BlockId.index_inj.1 he), if_neg hc]

lemma pendingAt_dropPending :
    (s.dropPending b).pendingAt c = if c = b then [] else s.pendingAt c := by
  unfold dropPending pendingAt
  simp only [NatMap.get?_erase]
  by_cases hc : c = b
  · simp [hc]
  · rw [if_neg fun he => hc (BlockId.index_inj.1 he), if_neg hc]

/-- The placeholders of each block stand in the order of their variables. -/
def PendingAscending (s : Bindings) : Prop := ∀ n m, s.pending.get? n = some m → m.Ascending

lemma PendingAscending.addPending (h : s.PendingAscending) :
    (s.addPending x b phi).PendingAscending := by
  intro n m hm
  unfold Bindings.addPending at hm
  simp only [NatMap.get?_insert] at hm
  split at hm
  · cases hm
    cases hget : s.pending.get? b.index with
    | none => exact NatMap.Ascending.empty.insert ..
    | some old => exact (h _ old hget).insert ..
  · exact h n m hm

lemma PendingAscending.dropPending (h : s.PendingAscending) :
    (s.dropPending b).PendingAscending := by
  intro n m hm
  unfold Bindings.dropPending at hm
  simp only [NatMap.get?_erase] at hm
  split at hm
  · cases hm
  · exact h n m hm

/-- No two placeholders of a block are for one variable. -/
lemma PendingAscending.pairwise (h : s.PendingAscending) (b : BlockId) :
    (s.pendingAt b).Pairwise fun e e' => e.1 ≠ e'.1 := by
  unfold pendingAt
  cases hget : s.pending.get? b.index with
  | none => exact List.Pairwise.nil
  | some m =>
    refine List.pairwise_map.2 ((h _ m hget).imp ?_)
    intro e e' hlt he
    have hkey : e.1 = e'.1 := congrArg Variable.index he
    omega

end Bindings

end SsaBackend
