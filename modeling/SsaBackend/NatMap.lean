/-!
# Finite maps in key order

A finite map from numbers is a list of pairs in strictly ascending key order. Order is part
of what callers see: bindings of a block are visited by variable, assignments are listed by
register. The lists stay short, so looking a key up walks the list.
-/

namespace SsaBackend

/-- A finite map from numbers, as pairs in ascending key order. -/
structure NatMap (α : Type) where
  entries : List (Nat × α)
  deriving DecidableEq, Repr

namespace NatMap

variable {α β : Type}

/-- The map without keys. -/
def empty : NatMap α := ⟨[]⟩

instance : Inhabited (NatMap α) := ⟨empty⟩

/-- The value of `key`, if it has one. -/
def get? (m : NatMap α) (key : Nat) : Option α := m.entries.lookup key

/-- Whether `key` has a value. -/
def contains (m : NatMap α) (key : Nat) : Bool := (m.get? key).isSome

/-- Places a pair among pairs in ascending key order, replacing the one with its key. -/
def insertEntry (key : Nat) (a : α) : List (Nat × α) → List (Nat × α)
  | [] => [(key, a)]
  | (k, b) :: rest =>
    if key < k then (key, a) :: (k, b) :: rest
    else if key = k then (key, a) :: rest
    else (k, b) :: insertEntry key a rest

/-- Gives `key` the value `a`. -/
def insert (m : NatMap α) (key : Nat) (a : α) : NatMap α := ⟨insertEntry key a m.entries⟩

/-- Takes the value of `key` away. -/
def erase (m : NatMap α) (key : Nat) : NatMap α := ⟨m.entries.filter (·.1 != key)⟩

/-- Applies `f` to every value. -/
def map (f : α → β) (m : NatMap α) : NatMap β := ⟨m.entries.map fun e => (e.1, f e.2)⟩

/-- The values in key order. -/
def values (m : NatMap α) : List α := m.entries.map (·.2)

/-- The number of keys. -/
def size (m : NatMap α) : Nat := m.entries.length

/-! ## Looking up what was written -/

@[simp] theorem get?_empty (key : Nat) : (empty : NatMap α).get? key = none := rfl

/-- The pair in front decides about its own key and no other. -/
theorem lookup_pair (k k' : Nat) (b : α) (l : List (Nat × α)) :
    ((k', b) :: l).lookup k = if k = k' then some b else l.lookup k := by
  rw [List.lookup_cons]
  by_cases h : k = k'
  · simp [h]
  · rw [if_neg h, beq_false_of_ne h]

theorem lookup_insertEntry (key k : Nat) (a : α) (l : List (Nat × α)) :
    (insertEntry key a l).lookup k = if k = key then some a else l.lookup k := by
  induction l with
  | nil => rw [insertEntry, lookup_pair]
  | cons e rest ih =>
    obtain ⟨k', b⟩ := e
    rw [insertEntry]
    split
    · rw [lookup_pair]
    · split
      · -- the key is there already, and its pair is replaced
        rename_i h
        subst h
        rw [lookup_pair, lookup_pair]
        by_cases h : k = key <;> simp [h]
      · -- the pair goes further back
        rename_i hne
        rw [lookup_pair, lookup_pair, ih]
        by_cases h : k = k'
        · have : k ≠ key := by omega
          rw [if_pos h, if_neg this, if_pos h]
        · rw [if_neg h, if_neg h]

@[simp] theorem get?_insert (m : NatMap α) (key k : Nat) (a : α) :
    (m.insert key a).get? k = if k = key then some a else m.get? k :=
  lookup_insertEntry key k a m.entries

theorem lookup_filter_ne (key k : Nat) (l : List (Nat × α)) :
    (l.filter (·.1 != key)).lookup k = if k = key then none else l.lookup k := by
  induction l with
  | nil => simp
  | cons e rest ih =>
    obtain ⟨k', b⟩ := e
    rw [List.filter_cons, lookup_pair]
    by_cases hk : k' = key
    · rw [if_neg (by simp [hk]), ih]
      by_cases h : k = key
      · rw [if_pos h, if_pos h]
      · rw [if_neg h, if_neg h, if_neg (hk ▸ h)]
    · rw [if_pos (by simp [hk]), lookup_pair, ih]
      by_cases h : k = k'
      · have : k ≠ key := by omega
        rw [if_pos h, if_neg this, if_pos h]
      · rw [if_neg h, if_neg h]

@[simp] theorem get?_erase (m : NatMap α) (key k : Nat) :
    (m.erase key).get? k = if k = key then none else m.get? k :=
  lookup_filter_ne key k m.entries

theorem lookup_map (f : α → β) (key : Nat) (l : List (Nat × α)) :
    (l.map fun e => (e.1, f e.2)).lookup key = (l.lookup key).map f := by
  induction l with
  | nil => rfl
  | cons e rest ih =>
    obtain ⟨k, b⟩ := e
    rw [List.map_cons, lookup_pair, lookup_pair, ih]
    by_cases h : key = k <;> simp [h]

@[simp] theorem get?_map (f : α → β) (m : NatMap α) (key : Nat) :
    (m.map f).get? key = (m.get? key).map f :=
  lookup_map f key m.entries

end NatMap

end SsaBackend
