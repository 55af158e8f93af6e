import Mathlib.Tactic.Common
import SsaBackend.NatMap

/-!
# Looking up what was written to a table

Tables are arrays that are read with a default and written within bounds, or maps whose pairs
stand in ascending key order.
-/

namespace SsaBackend

variable {α : Type}

/-! ## Arrays -/

/-- A write is seen at its own place, if that is inside the table, and nowhere else. -/
lemma getD_setIfInBounds (a : Array α) (i j : Nat) (v d : α) :
    (a.setIfInBounds i v).getD j d = if i = j ∧ j < a.size then v else a.getD j d := by
  simp only [Array.getD_eq_getD_getElem?, Array.getElem?_setIfInBounds]
  by_cases hij : i = j
  · subst hij
    by_cases hlt : i < a.size
    · simp [hlt]
    · simp [hlt]
  · simp [hij]

/-- A change is seen at its own place, if that is inside the table, and nowhere else. -/
lemma getD_modify (a : Array α) (i j : Nat) (f : α → α) (d : α) :
    (a.modify i f).getD j d = if i = j ∧ j < a.size then f (a.getD j d) else a.getD j d := by
  simp only [Array.getD_eq_getD_getElem?, Array.getElem?_modify]
  by_cases hij : i = j
  · subst hij
    by_cases hlt : i < a.size
    · simp [hlt]
    · simp [hlt]
  · simp [hij]

lemma getD_replicate (n i : Nat) (v : α) : (Array.replicate n v).getD i v = v := by
  simp only [Array.getD_eq_getD_getElem?, Array.getElem?_replicate]
  split <;> rfl

lemma getD_range (n i : Nat) : (Array.range n).getD i i = i := by
  simp only [Array.getD_eq_getD_getElem?, Array.getElem?_range]
  split <;> rfl

/-- Changing what is at a place changes nothing if it stays what it is. -/
lemma modify_eq_self {a : Array α} {i : Nat} {g : α → α} (h : ∀ x, a[i]? = some x → g x = x) :
    a.modify i g = a := by
  refine Array.ext_getElem? fun j => ?_
  rw [Array.getElem?_modify]
  split
  · rename_i he
    subst he
    cases hx : a[i]? with
    | none => rfl
    | some x => rw [Option.map_some, h x hx]
  · rfl

/-- Changing what is at a place is writing there what it becomes. -/
lemma modify_eq_set {a : Array α} {i : Nat} {g : α → α} {x : α} (h : a[i]? = some x) :
    a.modify i g = a.setIfInBounds i (g x) := by
  have hlt := (Array.getElem?_eq_some_iff.1 h).1
  refine Array.ext_getElem? fun j => ?_
  rw [Array.getElem?_modify, Array.getElem?_setIfInBounds, if_pos hlt]
  split
  · rename_i he
    rw [← he, h, Option.map_some]
  · rfl

/-- Counting the places of a list by what stands there is counting the list. -/
lemma countP_range {l : List α} {p : α → Bool} {q : Nat → Bool}
    (h : ∀ (i : Nat) a, l[i]? = some a → q i = p a) :
    (List.range l.length).countP q = l.countP p := by
  induction l generalizing q with
  | nil => rfl
  | cons a rest ih =>
    have hrest : (List.range rest.length).countP (q ∘ Nat.succ) = rest.countP p :=
      ih fun i b hb => h (i + 1) b hb
    rw [List.length_cons, List.range_succ_eq_map, List.countP_cons, List.countP_cons,
      List.countP_map, h 0 a rfl, hrest]

/-! ## Maps in key order -/

namespace NatMap

/-- Inserting brings no other pair than its own. -/
lemma mem_insertEntry {key : Nat} {a : α} {e : Nat × α} {l : List (Nat × α)}
    (h : e ∈ insertEntry key a l) : e = (key, a) ∨ e ∈ l := by
  induction l with
  | nil => exact .inl (List.mem_singleton.1 h)
  | cons e' rest ih =>
    rw [insertEntry] at h
    split at h
    · exact List.mem_cons.1 h
    · split at h
      · rcases List.mem_cons.1 h with h | h
        · exact .inl h
        · exact .inr (List.mem_cons_of_mem _ h)
      · rcases List.mem_cons.1 h with h | h
        · exact .inr (h ▸ List.mem_cons_self)
        · rcases ih h with h | h
          · exact .inl h
          · exact .inr (List.mem_cons_of_mem _ h)

/-- A pair with a new key is one pair more. -/
lemma insertEntry_perm {key : Nat} {a : α} {l : List (Nat × α)} (h : ∀ e ∈ l, e.1 ≠ key) :
    (insertEntry key a l).Perm ((key, a) :: l) := by
  induction l with
  | nil => exact .refl _
  | cons e rest ih =>
    have hne : ¬ key = e.1 := Ne.symm (h e List.mem_cons_self)
    rw [insertEntry]
    split
    · exact .refl _
    · exact ((ih fun e' he' => h e' (List.mem_cons_of_mem _ he')).cons _).trans (.swap ..)

lemma mem_of_get? {m : NatMap α} {key : Nat} {a : α} (h : m.get? key = some a) :
    (key, a) ∈ m.entries := by
  unfold get? at h
  obtain ⟨l1, l2, he, -⟩ := List.lookup_eq_some_iff.1 h
  rw [he]
  simp

/-- The keys stand in ascending order. -/
def Ascending (m : NatMap α) : Prop := m.entries.Pairwise fun e e' => e.1 < e'.1

/-- Pairs in ascending order are what their keys look up. -/
lemma Ascending.get?_of_mem {m : NatMap α} (h : m.Ascending) {e : Nat × α} (he : e ∈ m.entries) :
    m.get? e.1 = some e.2 := by
  obtain ⟨l⟩ := m
  show l.lookup e.1 = some e.2
  have hl : l.Pairwise fun e e' => e.1 < e'.1 := h
  clear h
  induction l with
  | nil => cases he
  | cons e' rest ih =>
    obtain ⟨hlt, hrest⟩ := List.pairwise_cons.1 hl
    rw [lookup_pair]
    rcases List.mem_cons.1 he with rfl | he
    · rw [if_pos rfl]
    · have hkey := hlt e he
      rw [if_neg (by omega)]
      exact ih he hrest

lemma Ascending.empty : (NatMap.empty : NatMap α).Ascending := List.Pairwise.nil

lemma Ascending.insert {m : NatMap α} (h : m.Ascending) (key : Nat) (a : α) :
    (m.insert key a).Ascending := by
  obtain ⟨l⟩ := m
  show (insertEntry key a l).Pairwise _
  have hm : l.Pairwise fun e e' => e.1 < e'.1 := h
  clear h
  induction l with
  | nil => exact List.pairwise_singleton ..
  | cons e rest ih =>
    obtain ⟨hlt, hrest⟩ := List.pairwise_cons.1 hm
    rw [insertEntry]
    split
    · -- in front of all
      rename_i hkey
      refine List.pairwise_cons.2 ⟨?_, hm⟩
      intro e' he'
      rcases List.mem_cons.1 he' with rfl | he'
      · exact hkey
      · exact Nat.lt_trans hkey (hlt e' he')
    · split
      · -- in the place of the first
        rename_i hkey
        refine List.pairwise_cons.2 ⟨?_, hrest⟩
        intro e' he'
        exact hkey ▸ hlt e' he'
      · refine List.pairwise_cons.2 ⟨?_, ih hrest⟩
        intro e' he'
        rcases mem_insertEntry he' with rfl | he'
        · show e.1 < key
          omega
        · exact hlt e' he'

end NatMap

end SsaBackend
