/-!
# Sums of lists

Sizes, counts and bounds are sums over lists of numbers: the slots of an interval over its
segments, the members of a set over its words, the edges of a graph over its nodes.
-/

namespace SsaBackend

/-- The sum of a list of numbers. -/
def total : List Nat → Nat
  | [] => 0
  | n :: rest => n + total rest

@[simp] theorem total_nil : total [] = 0 := rfl

@[simp] theorem total_cons (n : Nat) (l : List Nat) : total (n :: l) = n + total l := rfl

/-- The sum of two lists one behind the other. -/
@[simp] theorem total_append (l m : List Nat) : total (l ++ m) = total l + total m := by
  induction l with
  | nil => simp
  | cons n rest ih =>
    rw [List.cons_append, total_cons, total_cons, ih]
    omega

/-- Sums of the same length compare if their terms do. -/
theorem total_map_le {α : Type} {f g : α → Nat} {l : List α} (h : ∀ a ∈ l, f a ≤ g a) :
    total (l.map f) ≤ total (l.map g) := by
  induction l with
  | nil => simp
  | cons a rest ih =>
    rw [List.map_cons, List.map_cons, total_cons, total_cons]
    have ha := h a (List.mem_cons_self ..)
    have hrest := ih fun b hb => h b (List.mem_cons_of_mem _ hb)
    omega

/-- Changing one term of a sum changes the sum by as much. -/
theorem total_map_change {α : Type} {f g : α → Nat} {l : List α} {a : α} (hl : l.Nodup)
    (ha : a ∈ l) (h : ∀ b ∈ l, b ≠ a → f b = g b) :
    total (l.map f) + g a = total (l.map g) + f a := by
  induction l with
  | nil => cases ha
  | cons b rest ih =>
    obtain ⟨hb, hrest⟩ := List.nodup_cons.1 hl
    rw [List.map_cons, List.map_cons, total_cons, total_cons]
    rcases List.mem_cons.1 ha with rfl | hmem
    · -- the changed term is in front, and the others are the same
      have heq : rest.map f = rest.map g := by
        refine List.map_congr_left fun c hc => h c (List.mem_cons_of_mem _ hc) ?_
        intro he
        exact hb (he ▸ hc)
      rw [heq]
      omega
    · have hne : b ≠ a := fun he => hb (he ▸ hmem)
      have h1 := h b (List.mem_cons_self ..) hne
      have h2 := ih hrest hmem fun c hc => h c (List.mem_cons_of_mem _ hc)
      omega

end SsaBackend
