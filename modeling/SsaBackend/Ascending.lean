/-!
# Ascending lists

A finite set as a list in strictly ascending order of a numeric key: the blocks of a loop,
the slots at which a register is read, the registers an instruction reads.
-/

namespace SsaBackend

/-- Places `a` among elements in ascending key order, unless its key is there already. -/
def insertAscending {α : Type} (key : α → Nat) (a : α) : List α → List α
  | [] => [a]
  | b :: rest =>
    if key a < key b then a :: b :: rest
    else if key a = key b then b :: rest
    else b :: insertAscending key a rest

/-- The elements in ascending key order, one for each key. -/
def ascending {α : Type} (key : α → Nat) (l : List α) : List α := l.foldr (insertAscending key) []

/-! ## Members -/

/-- What was placed is there, and nothing else came or went, if the key tells elements
apart. -/
theorem mem_insertAscending {α : Type} {key : α → Nat} (hkey : ∀ a b, key a = key b → a = b)
    {a x : α} {l : List α} : x ∈ insertAscending key a l ↔ x = a ∨ x ∈ l := by
  induction l with
  | nil => simp [insertAscending]
  | cons b rest ih =>
    simp only [insertAscending]
    split
    · simp
    · split
      · rename_i h
        rw [hkey a b h]
        simp
      · simp only [List.mem_cons, ih]
        constructor
        · rintro (h | h | h) <;> simp [h]
        · rintro (h | h | h) <;> simp [h]

/-- The members are those of the list. -/
theorem mem_ascending {α : Type} {key : α → Nat} (hkey : ∀ a b, key a = key b → a = b)
    {x : α} {l : List α} : x ∈ ascending key l ↔ x ∈ l := by
  induction l with
  | nil => simp [ascending]
  | cons a rest ih =>
    rw [ascending, List.foldr_cons, mem_insertAscending hkey, List.mem_cons]
    exact or_congr Iff.rfl ih

/-! ## Order -/

/-- An element below everything in the list stays below everything once another element
above it is placed. -/
theorem lt_of_mem_insertAscending {α : Type} {key : α → Nat} {m : Nat} {a : α} {l : List α}
    (ha : m < key a) (hl : ∀ x ∈ l, m < key x) : ∀ x ∈ insertAscending key a l, m < key x := by
  induction l with
  | nil =>
    intro x hx
    rw [insertAscending, List.mem_singleton] at hx
    exact hx ▸ ha
  | cons b rest ih =>
    intro x hx
    rw [insertAscending] at hx
    split at hx
    · rcases List.mem_cons.1 hx with h | h
      · exact h ▸ ha
      · exact hl x h
    · split at hx
      · exact hl x hx
      · rcases List.mem_cons.1 hx with h | h
        · exact h ▸ hl b (List.mem_cons_self ..)
        · exact ih (fun y hy => hl y (List.mem_cons_of_mem _ hy)) x h

/-- Placing an element keeps strictly ascending keys. -/
theorem pairwise_insertAscending {α : Type} {key : α → Nat} {a : α} {l : List α}
    (h : l.Pairwise fun x y => key x < key y) :
    (insertAscending key a l).Pairwise fun x y => key x < key y := by
  induction l with
  | nil => simp [insertAscending]
  | cons b rest ih =>
    obtain ⟨hb, hrest⟩ := List.pairwise_cons.1 h
    rw [insertAscending]
    split
    · -- the new element comes first
      rename_i hlt
      refine List.pairwise_cons.2 ⟨fun x hx => ?_, h⟩
      rcases List.mem_cons.1 hx with hx | hx
      · exact hx ▸ hlt
      · exact Nat.lt_trans hlt (hb x hx)
    · split
      · exact h
      · refine List.pairwise_cons.2 ⟨?_, ih hrest⟩
        exact lt_of_mem_insertAscending (by omega) hb

/-- The keys are strictly ascending. -/
theorem pairwise_ascending {α : Type} (key : α → Nat) (l : List α) :
    (ascending key l).Pairwise fun x y => key x < key y := by
  induction l with
  | nil => simp [ascending]
  | cons a rest ih => exact pairwise_insertAscending ih

end SsaBackend
