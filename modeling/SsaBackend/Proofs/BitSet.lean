import Mathlib.Data.List.Perm.Subperm
import SsaBackend.Proofs.Words

/-!
# Members of bit sets

Who is a member after each operation, and how the members are counted and listed. `Valid` is the
condition under which the words speak for the members: there are as many words as the capacity
asks for, and no bit past the capacity is set.
-/

namespace SsaBackend

namespace BitSet

/-! ## Bits of sets -/

/-- Bit `i` of the words of a set. -/
def bit (s : BitSet) (i : Nat) : Bool := wordHas (s.words.getD (i / 64) 0) i

/-- The words speak for the members. -/
structure Valid (s : BitSet) : Prop where
  length : s.words.length = (s.capacity + 63) / 64
  bit_lt : ∀ i, s.bit i = true → i < s.capacity

lemma ahead_cursor (s : BitSet) : s.cursor.ahead = membersFrom 0 s.words := by
  unfold cursor Cursor.ahead
  cases s.words with
  | nil => simp [wordMembers_zero, membersFrom]
  | cons w rest => rfl

/-- The walk through a set is long enough to come upon every bit. -/
lemma toList_eq (s : BitSet) : s.toList = membersFrom 0 s.words := by
  rw [toList, Cursor.take_eq, ahead_cursor]
  exact List.take_of_length_le (length_membersFrom_le 0 s.words)

/-- Any number of steps through a set come upon as many members, or upon all of them. -/
lemma take_cursor (s : BitSet) (n : Nat) : s.cursor.take n = s.toList.take n := by
  rw [Cursor.take_eq, ahead_cursor, toList_eq]

/-- The listed members are the bits that are set. -/
lemma mem_toList_iff_bit (s : BitSet) (n : Nat) : n ∈ s.toList ↔ s.bit n = true := by
  rw [toList_eq, mem_membersFrom]
  simp [bit]

/-! ## Members after each operation -/

lemma bit_empty (capacity i : Nat) : (empty capacity).bit i = false := by
  unfold bit empty
  rw [List.getD_eq_getElem?_getD, List.getElem?_replicate]
  split <;> exact wordHas_zero i

lemma valid_empty (capacity : Nat) : (empty capacity).Valid := by
  refine ⟨by simp [empty], ?_⟩
  intro i hi
  rw [bit_empty] at hi
  cases hi

/-- A change of one word is seen in the bits of that word only. -/
lemma bit_modify (s : BitSet) (i j : Nat) (f : UInt64 → UInt64) (hi : i / 64 < s.words.length) :
    bit ⟨s.capacity, s.words.modify (i / 64) f⟩ j =
      if i / 64 = j / 64 then wordHas (f (s.words.getD (j / 64) 0)) j else s.bit j := by
  unfold bit
  simp only [List.getD_eq_getElem?_getD, List.getElem?_modify]
  by_cases hij : i / 64 = j / 64
  · rw [if_pos hij]
    rw [hij] at hi
    simp [hij, List.getElem?_eq_getElem hi]
  · rw [if_neg hij]
    simp [hij]

lemma div_lt_length {s : BitSet} (h : s.Valid) {i : Nat} (hi : i < s.capacity) :
    i / 64 < s.words.length := by
  rw [h.length]
  omega

lemma bit_insert {s : BitSet} (h : s.Valid) {i : Nat} (hi : i < s.capacity) (j : Nat) :
    (s.insert i).bit j = (s.bit j || decide (i = j)) := by
  rw [insert, if_pos hi, bit_modify s i j _ (div_lt_length h hi)]
  by_cases hij : i / 64 = j / 64
  · rw [if_pos hij, wordHas_or]
    have : i % 64 = j % 64 ↔ i = j := by omega
    simp only [bit, this]
  · rw [if_neg hij]
    have : i ≠ j := by
      rintro rfl
      exact hij rfl
    simp [this]

lemma valid_insert {s : BitSet} (h : s.Valid) (i : Nat) : (s.insert i).Valid := by
  by_cases hi : i < s.capacity
  · have hcap : (s.insert i).capacity = s.capacity := by rw [insert, if_pos hi]
    refine ⟨?_, ?_⟩
    · rw [hcap, ← h.length, insert, if_pos hi]
      simp
    · intro j hj
      rw [bit_insert h hi, Bool.or_eq_true, decide_eq_true_eq] at hj
      rw [hcap]
      rcases hj with hj | rfl
      · exact h.bit_lt j hj
      · exact hi
  · rw [insert, if_neg hi]
    exact h

@[simp] lemma capacity_insert (s : BitSet) (i : Nat) : (s.insert i).capacity = s.capacity := by
  rw [insert]
  split <;> rfl

lemma contains_insert {s : BitSet} (h : s.Valid) {i : Nat} (hi : i < s.capacity) (j : Nat) :
    (s.insert i).contains j = (s.contains j || decide (i = j)) := by
  show (decide (j < (s.insert i).capacity) && (s.insert i).bit j) = _
  rw [capacity_insert, bit_insert h hi]
  show _ = ((decide (j < s.capacity) && s.bit j) || decide (i = j))
  by_cases hij : i = j
  · subst hij
    simp [hi]
  · simp [hij]

lemma bit_erase {s : BitSet} (h : s.Valid) {i : Nat} (hi : i < s.capacity) (j : Nat) :
    (s.erase i).bit j = (s.bit j && !decide (i = j)) := by
  rw [erase, if_pos hi, bit_modify s i j _ (div_lt_length h hi)]
  by_cases hij : i / 64 = j / 64
  · rw [if_pos hij, wordHas_and_not]
    have : i % 64 = j % 64 ↔ i = j := by omega
    simp only [bit, this]
  · rw [if_neg hij]
    have : i ≠ j := by
      intro he
      exact hij (he ▸ rfl)
    simp [this]

@[simp] lemma capacity_erase (s : BitSet) (i : Nat) : (s.erase i).capacity = s.capacity := by
  unfold erase
  split <;> rfl

lemma valid_erase {s : BitSet} (h : s.Valid) {i : Nat} (hi : i < s.capacity) :
    (s.erase i).Valid := by
  refine ⟨?_, ?_⟩
  · rw [capacity_erase, ← h.length, erase, if_pos hi]
    simp
  · intro j hj
    rw [bit_erase h hi, Bool.and_eq_true] at hj
    rw [capacity_erase]
    exact h.bit_lt j hj.1

/-! ## The full set -/

lemma wordHas_ones (i : Nat) : wordHas (~~~0) i = true := by
  have : i % 64 < 64 := Nat.mod_lt _ (by omega)
  rw [wordHas_eq, UInt64.toBitVec_not, BitVec.getLsbD_not]
  simp [this]

/-- The last word of a full set has the bits below the capacity. -/
lemma wordHas_lastWord (capacity i : Nat) :
    wordHas (lastWord capacity) i =
      (decide (capacity % 64 = 0) || decide (i % 64 < capacity % 64)) := by
  unfold lastWord
  by_cases hc : capacity % 64 = 0
  · rw [if_pos hc, wordHas_ones]
    simp [hc]
  · rw [if_neg hc, wordHas_eq, UInt64.toBitVec_sub, toBitVec_wordBit]
    have hk : capacity % 64 < 64 := Nat.mod_lt _ (by omega)
    have hpow : 2 ^ (capacity % 64) < 2 ^ 64 := Nat.pow_lt_pow_right (by omega) hk
    have hpos : 0 < 2 ^ (capacity % 64) := Nat.two_pow_pos _
    -- one less than a power of two has exactly the bits below it
    have hnat : (BitVec.twoPow 64 (capacity % 64) - 1#64).toNat = 2 ^ (capacity % 64) - 1 := by
      rw [BitVec.toNat_sub, BitVec.toNat_twoPow]
      simp only [BitVec.toNat_ofNat]
      omega
    rw [BitVec.getLsbD, show (1 : UInt64).toBitVec = 1#64 from rfl, hnat,
      Nat.testBit_two_pow_sub_one]
    simp [hc]

lemma length_fillWords (capacity : Nat) (ws : List UInt64) :
    (fillWords capacity ws).length = ws.length := by
  induction ws with
  | nil => rfl
  | cons w rest ih =>
    cases rest with
    | nil => rfl
    | cons v rest => simpa [fillWords] using ih

/-- Every word but the last is all ones. -/
lemma getD_fillWords (capacity : Nat) (ws : List UInt64) (k : Nat) :
    (fillWords capacity ws).getD k 0 =
      if k + 1 < ws.length then ~~~0 else if k + 1 = ws.length then lastWord capacity else 0 := by
  induction ws generalizing k with
  | nil => simp [fillWords]
  | cons w rest ih =>
    cases rest with
    | nil => cases k <;> simp [fillWords]
    | cons v rest =>
      rw [fillWords]
      · cases k with
        | zero => simp
        | succ k =>
          rw [List.getD_cons_succ, ih]
          simp
      · simp

/-- A filled set has every number below its capacity. -/
lemma bit_fill {s : BitSet} (h : s.words.length = (s.capacity + 63) / 64) (i : Nat) :
    s.fill.bit i = decide (i < s.capacity) := by
  show wordHas ((fillWords s.capacity s.words).getD (i / 64) 0) i = _
  rw [getD_fillWords, h]
  split
  · -- a word before the last
    rw [wordHas_ones]
    have : i < s.capacity := by omega
    simp [this]
  · split
    · -- the last word
      rw [wordHas_lastWord]
      have : i < s.capacity ↔ s.capacity % 64 = 0 ∨ i % 64 < s.capacity % 64 := by omega
      simp [this]
    · rw [wordHas_zero]
      have : ¬ i < s.capacity := by omega
      simp [this]

lemma valid_fill {s : BitSet} (h : s.words.length = (s.capacity + 63) / 64) : s.fill.Valid := by
  refine ⟨(length_fillWords s.capacity s.words).trans h, fun i hi => ?_⟩
  rw [bit_fill h, decide_eq_true_eq] at hi
  exact hi

lemma bit_full (capacity i : Nat) : (full capacity).bit i = decide (i < capacity) :=
  bit_fill (valid_empty capacity).length i

lemma valid_full (capacity : Nat) : (full capacity).Valid := valid_fill (valid_empty capacity).length

lemma bit_clear (s : BitSet) (i : Nat) : s.clear.bit i = false := by
  unfold bit clear
  rw [List.getD_eq_getElem?_getD, List.getElem?_map]
  cases s.words[i / 64]? <;> exact wordHas_zero i

/-! ## Sets of numbers below a bound -/

/-- The words speak for a set of numbers below `n`. -/
structure Over (n : Nat) (s : BitSet) : Prop where
  valid : s.Valid
  capacity : s.capacity = n

namespace Over

variable {n : Nat} {s t : BitSet}

lemma bit_lt (h : s.Over n) {i : Nat} (hi : s.bit i = true) : i < n :=
  h.capacity ▸ h.valid.bit_lt i hi

lemma contains (h : s.Over n) (i : Nat) : s.contains i = s.bit i := by
  unfold BitSet.contains
  rw [h.capacity]
  show (decide (i < n) && s.bit i) = s.bit i
  cases hb : s.bit i with
  | false => rw [Bool.and_false]
  | true => simp [h.bit_lt hb]

lemma empty (n : Nat) : (BitSet.empty n).Over n := ⟨valid_empty n, rfl⟩

lemma insert (h : s.Over n) (i : Nat) : (s.insert i).Over n :=
  ⟨valid_insert h.valid i, (capacity_insert s i).trans h.capacity⟩

lemma bit_insert (h : s.Over n) {i : Nat} (hi : i < n) (j : Nat) :
    (s.insert i).bit j = (s.bit j || decide (i = j)) :=
  BitSet.bit_insert h.valid (h.capacity.symm ▸ hi) j

lemma erase (h : s.Over n) {i : Nat} (hi : i < n) : (s.erase i).Over n :=
  ⟨valid_erase h.valid (h.capacity.symm ▸ hi), (capacity_erase s i).trans h.capacity⟩

lemma bit_erase (h : s.Over n) {i : Nat} (hi : i < n) (j : Nat) :
    (s.erase i).bit j = (s.bit j && !decide (i = j)) :=
  BitSet.bit_erase h.valid (h.capacity.symm ▸ hi) j

lemma insertAll (h : s.Over n) (l : List Nat) : (s.insertAll l).Over n := by
  unfold BitSet.insertAll
  induction l generalizing s with
  | nil => exact h
  | cons i rest ih => exact ih (h.insert i)

lemma bit_insertAll (h : s.Over n) {l : List Nat} (hl : ∀ i ∈ l, i < n) (j : Nat) :
    (s.insertAll l).bit j = (s.bit j || decide (j ∈ l)) := by
  unfold BitSet.insertAll
  induction l generalizing s with
  | nil => simp
  | cons i rest ih =>
    rw [List.foldl_cons, ih (h.insert i) fun k hk => hl k (List.mem_cons_of_mem _ hk),
      h.bit_insert (hl i (List.mem_cons_self ..)), Bool.or_assoc]
    congr 1
    rw [Bool.eq_iff_iff, Bool.or_eq_true, decide_eq_true_iff, decide_eq_true_iff,
      decide_eq_true_iff, List.mem_cons, eq_comm]

lemma length_eq (hs : s.Over n) (ht : t.Over n) : s.words.length = t.words.length := by
  rw [hs.valid.length, ht.valid.length, hs.capacity, ht.capacity]

/-- Combining two sets word by word. -/
lemma bit_zipWith (hs : s.Over n) (ht : t.Over n) {f : UInt64 → UInt64 → UInt64}
    (hf : f 0 0 = 0) (i : Nat) :
    bit ⟨s.capacity, List.zipWith f s.words t.words⟩ i =
      wordHas (f (s.words.getD (i / 64) 0) (t.words.getD (i / 64) 0)) i := by
  have hlen := hs.length_eq ht
  unfold bit
  simp only [List.getD_eq_getElem?_getD, List.getElem?_zipWith]
  by_cases hi : i / 64 < s.words.length
  · rw [List.getElem?_eq_getElem hi, List.getElem?_eq_getElem (hlen ▸ hi)]
    rfl
  · rw [List.getElem?_eq_none (Nat.not_lt.1 hi), List.getElem?_eq_none (hlen ▸ Nat.not_lt.1 hi)]
    simp [hf]

lemma zipWith (hs : s.Over n) (ht : t.Over n) {f : UInt64 → UInt64 → UInt64}
    (hlt : ∀ i, bit ⟨s.capacity, List.zipWith f s.words t.words⟩ i = true → i < n) :
    Over n ⟨s.capacity, List.zipWith f s.words t.words⟩ := by
  refine ⟨⟨?_, fun i hi => hs.capacity.symm ▸ hlt i hi⟩, hs.capacity⟩
  show (List.zipWith f s.words t.words).length = _
  rw [List.length_zipWith, hs.valid.length, ht.valid.length, hs.capacity, ht.capacity,
    Nat.min_self]

lemma bit_union (hs : s.Over n) (ht : t.Over n) (i : Nat) :
    (s.union t).bit i = (s.bit i || t.bit i) := by
  unfold union
  rw [hs.bit_zipWith ht rfl, wordHas_eq, UInt64.toBitVec_or, BitVec.getLsbD_or, ← wordHas_eq,
    ← wordHas_eq]
  rfl

lemma union (hs : s.Over n) (ht : t.Over n) : (s.union t).Over n := by
  refine hs.zipWith ht fun i hi => ?_
  have hbit := hs.bit_union ht i
  unfold BitSet.union at hbit
  rw [hbit, Bool.or_eq_true] at hi
  exact hi.elim hs.bit_lt ht.bit_lt

lemma bit_sdiff (hs : s.Over n) (ht : t.Over n) (i : Nat) :
    (s.sdiff t).bit i = (s.bit i && !t.bit i) := by
  have hlt : i % 64 < 64 := Nat.mod_lt _ (by omega)
  unfold sdiff
  rw [hs.bit_zipWith ht rfl, wordHas_eq, UInt64.toBitVec_and, BitVec.getLsbD_and,
    UInt64.toBitVec_not, BitVec.getLsbD_not, ← wordHas_eq, ← wordHas_eq]
  simp only [hlt, decide_true, Bool.true_and]
  rfl

lemma sdiff (hs : s.Over n) (ht : t.Over n) : (s.sdiff t).Over n := by
  refine hs.zipWith ht fun i hi => ?_
  have hbit := hs.bit_sdiff ht i
  unfold BitSet.sdiff at hbit
  rw [hbit, Bool.and_eq_true] at hi
  exact hs.bit_lt hi.1

/-- Sets with the same members are one set. -/
lemma ext (hs : s.Over n) (ht : t.Over n) (h : ∀ i < n, s.bit i = t.bit i) : s = t := by
  have hall : ∀ i, s.bit i = t.bit i := by
    intro i
    by_cases hi : i < n
    · exact h i hi
    · have hs' : s.bit i = false := Bool.not_eq_true _ ▸ fun hb => hi (hs.bit_lt hb)
      have ht' : t.bit i = false := Bool.not_eq_true _ ▸ fun hb => hi (ht.bit_lt hb)
      rw [hs', ht']
  obtain ⟨sc, sw⟩ := s
  obtain ⟨tc, tw⟩ := t
  have hcap : sc = tc := hs.capacity.trans ht.capacity.symm
  have hlen : sw.length = tw.length := hs.length_eq ht
  subst hcap
  congr 1
  refine List.ext_getElem hlen fun k hk hk' => UInt64.toBitVec_inj.1 ?_
  refine BitVec.eq_of_getLsbD_eq fun j hj => ?_
  have hbit := hall (64 * k + j)
  unfold bit at hbit
  rw [wordHas_eq, wordHas_eq, show (64 * k + j) / 64 = k by omega,
    show (64 * k + j) % 64 = j by omega] at hbit
  simpa [List.getD_eq_getElem?_getD, hk, hk'] using hbit

end Over

lemma pairwise_toList (s : BitSet) : s.toList.Pairwise (· < ·) :=
  s.toList_eq ▸ pairwise_membersFrom 0 s.words

lemma nodup_toList (s : BitSet) : s.toList.Nodup := s.pairwise_toList.imp Nat.ne_of_lt

/-! ## Counting -/

lemma count_eq (s : BitSet) : s.count = s.toList.length := by
  rw [count, total_wordCount 0, toList_eq]

lemma isEmpty_iff (s : BitSet) : s.isEmpty = true ↔ s.toList = [] := by
  rw [toList_eq, membersFrom_eq_nil, isEmpty, List.all_eq_true]
  simp only [decide_eq_true_eq]

/-- The bits that the words of two sets have in common, however many words they are. -/
lemma bit_zipWith_and (s t : BitSet) (i : Nat) :
    bit ⟨s.capacity, List.zipWith (· &&& ·) s.words t.words⟩ i = (s.bit i && t.bit i) := by
  have hword : (List.zipWith (· &&& ·) s.words t.words).getD (i / 64) 0 =
      s.words.getD (i / 64) 0 &&& t.words.getD (i / 64) 0 := by
    simp only [List.getD_eq_getElem?_getD, List.getElem?_zipWith]
    cases s.words[i / 64]? <;> cases t.words[i / 64]? <;> simp
  unfold bit
  rw [hword, wordHas_eq, UInt64.toBitVec_and, BitVec.getLsbD_and, ← wordHas_eq, ← wordHas_eq]

/-- The numbers that are in both sets are counted, each once. -/
lemma interCount_eq {n : Nat} {s : BitSet} (hs : s.Over n) (t : BitSet) :
    s.interCount t = (List.range n).countP fun i => s.bit i && t.bit i := by
  set both : BitSet := ⟨s.capacity, List.zipWith (· &&& ·) s.words t.words⟩ with hboth
  have hcount : s.interCount t = both.toList.length := by
    unfold interCount
    rw [toList_eq, ← total_wordCount, hboth, List.map_zipWith]
  have hperm : both.toList.Perm ((List.range n).filter fun i => s.bit i && t.bit i) := by
    refine (List.perm_ext_iff_of_nodup both.nodup_toList (List.nodup_range.filter _)).2 fun i => ?_
    rw [mem_toList_iff_bit, bit_zipWith_and, List.mem_filter, List.mem_range, Bool.and_eq_true]
    exact ⟨fun h => ⟨hs.bit_lt h.1, h⟩, fun h => h.2⟩
  rw [hcount, hperm.length_eq, List.countP_eq_length_filter]

/-! ## Changes -/

/-- A list of words changes if one of its words does. -/
lemma any_zip_ne (f : UInt64 → UInt64 → UInt64) {as bs : List UInt64} (h : as.length = bs.length) :
    ((as.zip bs).any fun (a, b) => a != f a b) = decide (List.zipWith f as bs ≠ as) := by
  induction as generalizing bs with
  | nil => simp
  | cons a as ih =>
    cases bs with
    | nil => simp at h
    | cons b bs =>
      rw [List.zip_cons_cons, List.any_cons, ih (Nat.succ.inj h), List.zipWith_cons_cons,
        Bool.eq_iff_iff, Bool.or_eq_true, bne_iff_ne, decide_eq_true_iff, decide_eq_true_iff, Ne, Ne,
        Ne, List.cons.injEq, not_and_or, eq_comm]

/-- Words change exactly if the set does. -/
lemma Over.changes_eq {n : Nat} {s t : BitSet} (hs : s.Over n) (ht : t.Over n)
    (f : UInt64 → UInt64 → UInt64) :
    changes f s t = decide (⟨s.capacity, List.zipWith f s.words t.words⟩ ≠ s) := by
  rw [changes, any_zip_ne f (hs.length_eq ht)]
  cases s
  simp

end BitSet

end SsaBackend
