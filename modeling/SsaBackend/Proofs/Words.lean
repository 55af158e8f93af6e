import Mathlib.Data.List.Sort
import Mathlib.Tactic.Common
import SsaBackend.BitSet

/-!
# Bits of words

What the operations on words do to single bits, and how the bits of a list of words are counted
and listed.

A walk takes the lowest bit out of a word again and again. What it has before it (`Cursor.ahead`)
are the bits of the words in ascending order, and every step takes the first of them away.
-/

namespace SsaBackend

/-! ## Single bits -/

lemma toBitVec_wordBit (i : Nat) : (wordBit i).toBitVec = BitVec.twoPow 64 (i % 64) := by
  unfold wordBit
  rw [UInt64.toBitVec_shiftLeft]
  have : i % 64 < 64 := Nat.mod_lt _ (by omega)
  simp [BitVec.twoPow_eq]

/-- Asking for a bit of a word is reading that bit. -/
lemma wordHas_eq (w : UInt64) (i : Nat) : wordHas w i = w.toBitVec.getLsbD (i % 64) := by
  have hlt : i % 64 < 64 := Nat.mod_lt _ (by omega)
  have hand : (w &&& wordBit i).toBitVec =
      if w.toBitVec.getLsbD (i % 64) then BitVec.twoPow 64 (i % 64) else 0#64 := by
    rw [UInt64.toBitVec_and, toBitVec_wordBit, BitVec.and_twoPow]
  unfold wordHas
  cases hb : w.toBitVec.getLsbD (i % 64) with
  | false =>
    rw [hb, if_neg (by simp)] at hand
    have hz : w &&& wordBit i = 0 := UInt64.toBitVec_inj.1 (by simpa using hand)
    simp [hz]
  | true =>
    rw [hb, if_pos rfl] at hand
    have hne : w &&& wordBit i ≠ 0 := by
      intro hz
      rw [hz] at hand
      have hbit := congrArg (fun x => BitVec.getLsbD x (i % 64)) hand
      simp [BitVec.getLsbD_twoPow] at hbit
      omega
    simp [hne]

lemma wordHas_zero (i : Nat) : wordHas 0 i = false := by
  rw [wordHas_eq]
  simp

/-- Setting a bit sets that bit. -/
lemma wordHas_or (w : UInt64) (i j : Nat) :
    wordHas (w ||| wordBit i) j = (wordHas w j || decide (i % 64 = j % 64)) := by
  rw [wordHas_eq, wordHas_eq, UInt64.toBitVec_or, BitVec.getLsbD_or, toBitVec_wordBit,
    BitVec.getLsbD_twoPow]
  have : i % 64 < 64 := Nat.mod_lt _ (by omega)
  simp [this]

/-- Clearing a bit clears that bit. -/
lemma wordHas_and_not (w : UInt64) (i j : Nat) :
    wordHas (w &&& ~~~wordBit i) j = (wordHas w j && !decide (i % 64 = j % 64)) := by
  rw [wordHas_eq, wordHas_eq, UInt64.toBitVec_and, BitVec.getLsbD_and, UInt64.toBitVec_not,
    BitVec.getLsbD_not, toBitVec_wordBit, BitVec.getLsbD_twoPow]
  have hi : i % 64 < 64 := Nat.mod_lt _ (by omega)
  have hj : j % 64 < 64 := Nat.mod_lt _ (by omega)
  simp [hi, hj]

/-- The listed bits of a word are those that are set. -/
lemma mem_wordMembers (w : UInt64) (i : Nat) : i ∈ wordMembers w ↔ i < 64 ∧ wordHas w i = true := by
  unfold wordMembers
  split
  · rename_i hw
    rw [hw, wordHas_zero]
    simp
  · rw [List.mem_filter, List.mem_range]

lemma wordMembers_zero : wordMembers 0 = [] := if_pos rfl

lemma pairwise_wordMembers (w : UInt64) : (wordMembers w).Pairwise (· < ·) := by
  unfold wordMembers
  split
  · exact List.Pairwise.nil
  · exact List.pairwise_lt_range.filter _

lemma length_wordMembers_le (w : UInt64) : (wordMembers w).length ≤ 64 := by
  unfold wordMembers
  split
  · simp
  · exact (List.length_filter_le _ _).trans_eq List.length_range

/-! ## The lowest bit -/

/-- Taking one away from a number does not change the bits above one that is set. -/
lemma testBit_pred_of_lt {n l j : Nat} (hl : n.testBit l = true) (hj : l < j) :
    (n - 1).testBit j = n.testBit j := by
  have hlow : n % 2 ^ j ≠ 0 := by
    intro hz
    have hbit := Nat.testBit_mod_two_pow n j l
    rw [hz, hl] at hbit
    simp [hj] at hbit
  have hdiv : (n - 1) / 2 ^ j = n / 2 ^ j := by
    have hn := Nat.div_add_mod n (2 ^ j)
    have hlt := Nat.mod_lt n (Nat.two_pow_pos j)
    refine Nat.div_eq_of_lt_le ?_ ?_
    · rw [Nat.mul_comm]
      omega
    · rw [Nat.succ_mul, Nat.mul_comm]
      omega
  rw [Nat.testBit_eq_decide_div_mod_eq, Nat.testBit_eq_decide_div_mod_eq, hdiv]

/-- Taking one away from a number clears the lowest bit that is set. -/
lemma testBit_pred_lowest {n l : Nat} (hl : n.testBit l = true)
    (hlow : ∀ j < l, n.testBit j = false) : (n - 1).testBit l = false := by
  have hrest : n % 2 ^ l = 0 := by
    refine Nat.eq_of_testBit_eq fun j => ?_
    rw [Nat.testBit_mod_two_pow, Nat.zero_testBit]
    by_cases hj : j < l
    · rw [hlow j hj, Bool.and_false]
    · simp [hj]
  rw [Nat.testBit_eq_decide_div_mod_eq, decide_eq_true_eq] at hl
  obtain ⟨m, hm⟩ : ∃ m, n / 2 ^ l = m + 1 := by
    refine Nat.exists_eq_succ_of_ne_zero fun hz => ?_
    simp [hz] at hl
  have hdiv : (n - 1) / 2 ^ l = m := by
    have hn := Nat.div_add_mod n (2 ^ l)
    have hpos := Nat.two_pow_pos l
    rw [hm, hrest, Nat.mul_succ] at hn
    refine Nat.div_eq_of_lt_le ?_ ?_
    · rw [Nat.mul_comm]
      omega
    · rw [Nat.succ_mul, Nat.mul_comm]
      omega
  rw [Nat.testBit_eq_decide_div_mod_eq, hdiv, decide_eq_false_iff_not]
  omega

/-- The bits of a word are those of the number that it is. -/
lemma wordHas_eq_testBit (w : UInt64) {i : Nat} (hi : i < 64) :
    wordHas w i = w.toNat.testBit i := by
  rw [wordHas_eq, Nat.mod_eq_of_lt hi]
  rfl

lemma exists_wordHas {w : UInt64} (hw : w ≠ 0) : ∃ i < 64, wordHas w i = true := by
  by_contra hnone
  refine hw (UInt64.toBitVec_inj.1 (BitVec.eq_of_getLsbD_eq fun i hi => ?_))
  have hbit : wordHas w i = false := Bool.not_eq_true _ ▸ fun h => hnone ⟨i, hi, h⟩
  rw [wordHas_eq, Nat.mod_eq_of_lt hi] at hbit
  simpa using hbit

/-- The lowest bit of a word is set, and none below it. -/
lemma wordLowest_spec {w : UInt64} (hw : w ≠ 0) :
    wordLowest w < 64 ∧ wordHas w (wordLowest w) = true ∧
      ∀ j < wordLowest w, wordHas w j = false := by
  obtain ⟨i, hi, hhas⟩ := exists_wordHas hw
  unfold wordLowest
  cases hfind : (List.range 64).find? (wordHas w) with
  | none =>
    have hnot := List.find?_range_eq_none.1 hfind i hi
    simp [hhas] at hnot
  | some l =>
    obtain ⟨hl, hlt, hlow⟩ := List.find?_range_eq_some.1 hfind
    exact ⟨List.mem_range.1 hlt, hl, fun j hj => by simpa using hlow j hj⟩

/-- Combining a nonzero word with its predecessor clears its lowest bit. -/
lemma wordHas_and_pred {w : UInt64} (hw : w ≠ 0) {j : Nat} (hj : j < 64) :
    wordHas (w &&& (w - 1)) j = (wordHas w j && !decide (j = wordLowest w)) := by
  obtain ⟨hlt, hset, hlow⟩ := wordLowest_spec hw
  rw [wordHas_eq_testBit w hlt] at hset
  have hbelow : ∀ k < wordLowest w, w.toNat.testBit k = false := by
    intro k hk
    rw [← wordHas_eq_testBit w (by omega)]
    exact hlow k hk
  have hpred : (w - 1).toNat = w.toNat - 1 := by
    refine UInt64.toNat_sub_of_le w 1 (UInt64.le_iff_toNat_le.2 ?_)
    have hne : w.toNat ≠ 0 := fun hz => hw (UInt64.toNat_inj.1 hz)
    exact Nat.one_le_iff_ne_zero.2 hne
  rw [wordHas_eq_testBit _ hj, wordHas_eq_testBit _ hj, UInt64.toNat_and, Nat.testBit_and, hpred]
  rcases Nat.lt_trichotomy j (wordLowest w) with h | h | h
  · rw [hbelow j h, Bool.false_and, Bool.false_and]
  · rw [h, testBit_pred_lowest hset hbelow]
    simp
  · rw [testBit_pred_of_lt hset h]
    simp [Nat.ne_of_gt h]

/-- The bits of a word are its lowest, and those that are left when this one is taken out. -/
lemma wordMembers_eq_cons {w : UInt64} (hw : w ≠ 0) :
    wordMembers w = wordLowest w :: wordMembers (w &&& (w - 1)) := by
  obtain ⟨hlt, hset, hlow⟩ := wordLowest_spec hw
  have hmem : ∀ i, i ∈ wordMembers (w &&& (w - 1)) ↔ i ∈ wordMembers w ∧ i ≠ wordLowest w := by
    intro i
    rw [mem_wordMembers, mem_wordMembers]
    by_cases hi : i < 64
    · simp [hi, wordHas_and_pred hw hi]
    · simp [hi]
  refine (pairwise_wordMembers w).eq_of_mem_iff
    (List.pairwise_cons.2 ⟨fun i hi => ?_, pairwise_wordMembers _⟩) fun i => ?_
  · obtain ⟨hi, hne⟩ := (hmem i).1 hi
    rcases Nat.lt_or_ge i (wordLowest w) with h | h
    · simp [mem_wordMembers, hlow i h] at hi
    · omega
  · rw [List.mem_cons, hmem]
    by_cases hi : i = wordLowest w
    · simp [hi, mem_wordMembers, hlt, hset]
    · simp [hi]

/-! ## Bits of lists of words -/

/-- The bits of words of which the first has number `k`, in ascending order. -/
def membersFrom (k : Nat) : List UInt64 → List Nat
  | [] => []
  | w :: rest => (wordMembers w).map (64 * k + ·) ++ membersFrom (k + 1) rest

/-- Which bits are set in words that start at bit `64 * k`. -/
lemma mem_membersFrom (k n : Nat) (ws : List UInt64) :
    n ∈ membersFrom k ws ↔ k ≤ n / 64 ∧ wordHas (ws.getD (n / 64 - k) 0) n = true := by
  induction ws generalizing k with
  | nil => simp [membersFrom, wordHas_zero]
  | cons w ws ih =>
    rw [membersFrom, List.mem_append, ih, List.mem_map]
    have hmod : n % 64 < 64 := Nat.mod_lt _ (by omega)
    have hread : wordHas w (n % 64) = wordHas w n := by
      rw [wordHas_eq, wordHas_eq, Nat.mod_mod]
    constructor
    · rintro (⟨i, hi, rfl⟩ | ⟨hk, hn⟩)
      · obtain ⟨hlt, hhas⟩ := (mem_wordMembers w i).1 hi
        have hdiv : (64 * k + i) / 64 = k := by omega
        have hrem : (64 * k + i) % 64 = i := by omega
        refine ⟨by omega, ?_⟩
        rw [hdiv, Nat.sub_self, List.getD_cons_zero, wordHas_eq, hrem]
        rw [wordHas_eq, Nat.mod_eq_of_lt hlt] at hhas
        exact hhas
      · refine ⟨by omega, ?_⟩
        rw [show n / 64 - k = (n / 64 - (k + 1)) + 1 by omega, List.getD_cons_succ]
        exact hn
    · rintro ⟨hk, hn⟩
      rcases Nat.lt_or_eq_of_le hk with hlt | heq
      · right
        refine ⟨hlt, ?_⟩
        rw [show n / 64 - k = (n / 64 - (k + 1)) + 1 by omega, List.getD_cons_succ] at hn
        exact hn
      · left
        refine ⟨n % 64, (mem_wordMembers w _).2 ⟨hmod, ?_⟩, by omega⟩
        rw [hread]
        rw [heq, Nat.sub_self, List.getD_cons_zero] at hn
        exact hn

/-- The bits of words are listed in ascending order. -/
lemma pairwise_membersFrom (k : Nat) (ws : List UInt64) :
    (membersFrom k ws).Pairwise (· < ·) := by
  induction ws generalizing k with
  | nil => exact List.Pairwise.nil
  | cons w rest ih =>
    rw [membersFrom]
    refine List.pairwise_append.2 ⟨?_, ih (k + 1), ?_⟩
    · rw [List.pairwise_map]
      exact (pairwise_wordMembers w).imp fun hlt => Nat.add_lt_add_left hlt _
    · -- the bits of a word come before those of the next
      intro a ha b hb
      obtain ⟨i, hi, rfl⟩ := List.mem_map.1 ha
      have hlt := ((mem_wordMembers w i).1 hi).1
      have hge := ((mem_membersFrom (k + 1) b rest).1 hb).1
      omega

lemma length_membersFrom_le (k : Nat) (ws : List UInt64) :
    (membersFrom k ws).length ≤ 64 * ws.length := by
  induction ws generalizing k with
  | nil => simp [membersFrom]
  | cons w rest ih =>
    have hword := length_wordMembers_le w
    have hrest := ih (k + 1)
    rw [membersFrom, List.length_append, List.length_map, List.length_cons]
    omega

/-- Words are zero if none of their bits is set. -/
lemma membersFrom_eq_nil (k : Nat) (ws : List UInt64) :
    membersFrom k ws = [] ↔ ∀ w ∈ ws, w = 0 := by
  induction ws generalizing k with
  | nil => simp [membersFrom]
  | cons w rest ih =>
    have hword : wordMembers w = [] ↔ w = 0 := by
      by_cases hw : w = 0
      · simp [hw, wordMembers_zero]
      · simp [hw, wordMembers_eq_cons hw]
    rw [membersFrom, List.append_eq_nil_iff, List.map_eq_nil_iff, hword, ih, List.forall_mem_cons]

/-- As many bits are counted as are listed. -/
lemma total_wordCount (k : Nat) (ws : List UInt64) :
    total (ws.map wordCount) = (membersFrom k ws).length := by
  induction ws generalizing k with
  | nil => rfl
  | cons w rest ih =>
    rw [List.map_cons, total_cons, membersFrom, List.length_append, List.length_map, ih (k + 1)]
    rfl

/-! ## Walks -/

namespace Cursor

/-- The bits that a walk has before it. -/
def ahead (c : Cursor) : List Nat :=
  (wordMembers c.left).map (64 * c.place + ·) ++ membersFrom (c.place + 1) c.rest

/-- A step takes away the first bit that is ahead, and there is no step only if none is. -/
lemma nextFrom_cases (place : Nat) (left : UInt64) (rest : List UInt64) :
    (∃ i c, nextFrom place left rest = some (i, c) ∧ ahead ⟨place, left, rest⟩ = i :: c.ahead) ∨
      nextFrom place left rest = none ∧ ahead ⟨place, left, rest⟩ = [] := by
  induction rest generalizing place left with
  | nil =>
    by_cases hleft : left = 0
    · right
      simp [nextFrom, ahead, hleft, wordMembers_zero, membersFrom]
    · left
      refine ⟨_, _, if_neg hleft, ?_⟩
      simp [ahead, wordMembers_eq_cons hleft]
  | cons w rest ih =>
    by_cases hleft : left = 0
    · -- nothing is left of the word, and the walk goes on behind it
      have hpass : ahead ⟨place, left, w :: rest⟩ = ahead ⟨place + 1, w, rest⟩ := by
        simp [ahead, hleft, wordMembers_zero, membersFrom]
      rw [nextFrom, if_pos hleft, hpass]
      exact ih (place + 1) w
    · left
      refine ⟨_, _, if_neg hleft, ?_⟩
      simp [ahead, wordMembers_eq_cons hleft]

/-- The steps of a walk come upon the bits ahead, one after another. -/
lemma take_eq (n : Nat) (c : Cursor) : c.take n = c.ahead.take n := by
  induction n generalizing c with
  | zero => rfl
  | succ n ih =>
    rw [take, next?]
    rcases nextFrom_cases c.place c.left c.rest with ⟨i, c', hnext, hahead⟩ | ⟨hnext, hahead⟩
    · rw [hnext, show c.ahead = i :: c'.ahead from hahead, List.take_succ_cons, ← ih c']
    · rw [hnext, show c.ahead = [] from hahead, List.take_nil]

end Cursor

end SsaBackend
