import SsaBackend.Proofs.Pass.ConstantOps
import SsaBackend.Weight

/-!
# Folding is exact arithmetic

What the folder computes on words, said on the integers that the words stand for. A word has two
readings: the signed one, `Int64.toInt`, and the unsigned one, which `unsigned` takes from the
signed one. Every operation has an exact result, `BinaryOp.exact`, that knows of no width, and
`wrapped` is the signed reading of the word that such a number leaves.

Main statement: `folding_exact`. Operations on two constants, comparisons and casts give the exact
results, an operation is left alone exactly where it is `Undefined`, and a division by a constant
may be run early exactly if it is never left alone.
-/

namespace SsaBackend

/-! ## Readings of words -/

/-- The number from 0 to 2^64 - 1 of the word that stands for `n`. -/
def unsigned (n : Int) : Nat := (n % twoPow 64).toNat

/-- The number from -2^63 to 2^63 - 1 of the word that stands for `n`. -/
def wrapped (n : Int) : Int := n.bmod (twoPow 64)

lemma toInt_toInt64 (u : UInt64) : u.toInt64.toInt = wrapped u.toNat :=
  BitVec.toInt_eq_toNat_bmod u.toBitVec

lemma toInt_eq_wrapped (v : Int64) : v.toInt = wrapped v.toUInt64.toNat :=
  toInt_toInt64 v.toUInt64

/-- The signed reading of a word is in range. -/
lemma wrapped_toInt (v : Int64) : wrapped v.toInt = v.toInt := by
  rw [toInt_eq_wrapped]
  exact Int.bmod_bmod

lemma unsigned_toInt (v : Int64) : unsigned v.toInt = v.toUInt64.toNat := by
  have hlt := v.toUInt64.toNat_lt
  have hmod : v.toInt % (twoPow 64 : Nat) = (v.toUInt64.toNat : Int) % (twoPow 64 : Nat) := by
    rw [toInt_eq_wrapped]
    exact Int.bmod_emod
  unfold unsigned
  rw [hmod, show twoPow 64 = 18446744073709551616 from rfl]
  omega

/-- A product may be taken before or after the first factor is wrapped. -/
lemma wrapped_toInt_mul (v : Int64) (k : Int) :
    wrapped (v.toInt * k) = wrapped (v.toUInt64.toNat * k) := by
  rw [toInt_eq_wrapped]
  exact Int.bmod_mul_bmod

/-- The two readings agree on the lower bits. -/
lemma toInt_emod (v : Int64) {bits : Nat} (h : bits ≤ 64) :
    v.toInt % (twoPow bits : Nat) = (v.toUInt64.toNat : Int) % (twoPow bits : Nat) := by
  have hdvd : ((twoPow bits : Nat) : Int) ∣ (twoPow 64 : Nat) :=
    Int.natCast_dvd_natCast.2 (Nat.pow_dvd_pow 2 h)
  have hmod : v.toInt % (twoPow 64 : Nat) = (v.toUInt64.toNat : Int) % (twoPow 64 : Nat) := by
    rw [toInt_eq_wrapped]
    exact Int.bmod_emod
  rw [← Int.emod_emod_of_dvd _ hdvd, hmod, Int.emod_emod_of_dvd _ hdvd]

/-! ## Shifts of words -/

lemma toNat_shiftLeft {u s : UInt64} (hs : s.toNat < 64) :
    (u <<< s).toNat = u.toNat * twoPow s.toNat % twoPow 64 := by
  rw [UInt64.toNat_shiftLeft, Nat.mod_eq_of_lt hs, Nat.shiftLeft_eq]
  rfl

lemma toNat_shiftRight {u s : UInt64} (hs : s.toNat < 64) :
    (u >>> s).toNat = u.toNat / twoPow s.toNat := by
  rw [UInt64.toNat_shiftRight, Nat.mod_eq_of_lt hs, Nat.shiftRight_eq_div_pow]
  rfl

/-- Shifting a word to the right with its sign is division that rounds down. -/
lemma toInt_shiftRight {v : Int64} {s : UInt64} (hs : s.toNat < 64) :
    (v >>> s.toInt64).toInt = v.toInt / (twoPow s.toNat : Nat) := by
  have hmsb : s.toBitVec.msb = false := by
    rw [BitVec.msb_eq_decide]
    simp
    omega
  have hamount : (s.toBitVec.smod 64#64).toNat = s.toNat := by
    rw [BitVec.smod, hmsb, show (64#64).msb = false by decide]
    show (s.toBitVec % 64#64).toNat = s.toNat
    rw [BitVec.toNat_umod]
    exact Nat.mod_eq_of_lt hs
  show (v >>> s.toInt64).toBitVec.toInt = _
  rw [Int64.toBitVec_shiftRight, UInt64.toBitVec_toInt64, BitVec.sshiftRight',
    BitVec.toInt_sshiftRight]
  show v.toBitVec.toInt >>> (s.toBitVec.smod 64#64).toNat = _
  rw [hamount, Int.shiftRight_eq_div_pow]
  rfl

/-! ## Operations on two words -/

namespace BinaryOp

/-- The exact result for the signed readings of two words. The unsigned operations and the logic
on bits take the unsigned readings. Quotients are rounded toward zero, remainders have the sign of
the dividend, and a shift to the right with the sign rounds down. -/
def exact : BinaryOp → Int → Int → Int
  | add, a, b => a + b
  | sub, a, b => a - b
  | mul, a, b => a * b
  | sdiv, a, b => a.tdiv b
  | srem, a, b => a.tmod b
  | udiv, a, b => (unsigned a / unsigned b : Nat)
  | urem, a, b => (unsigned a % unsigned b : Nat)
  | and, a, b => (unsigned a &&& unsigned b : Nat)
  | or, a, b => (unsigned a ||| unsigned b : Nat)
  | xor, a, b => (unsigned a ^^^ unsigned b : Nat)
  | shl, a, b => a * twoPow b.toNat
  | lshr, a, b => (unsigned a / twoPow b.toNat : Nat)
  | ashr, a, b => a.fdiv (twoPow b.toNat)

/-- Where there is no result: the divisor is zero, the signed quotient is past the range, or the
amount of a shift is not one of 0 to 63. -/
def Undefined : BinaryOp → Int → Int → Prop
  | sdiv, a, b | srem, a, b => b = 0 ∨ a = -twoPow 63 ∧ b = -1
  | udiv, _, b | urem, _, b => b = 0
  | shl, _, b | lshr, _, b | ashr, _, b => ¬ (0 ≤ b ∧ b ≤ 63)
  | _, _, _ => False

/-- Operations that work bit by bit, and so on truth values too. -/
def IsLogic (op : BinaryOp) : Prop := op = and ∨ op = or ∨ op = xor

/-- A guarded answer is withheld exactly if the guard holds. -/
lemma guarded_none_iff {α : Type} {guard : Prop} [Decidable guard] {x : α} :
    (if guard then none else some x) = none ↔ guard := by
  split
  · rename_i h
    exact iff_of_true rfl h
  · rename_i h
    exact iff_of_false (Option.some_ne_none _) h

lemma eq_zero_iff (v : Int64) : v = 0 ↔ v.toInt = 0 := by
  rw [← Int64.toInt_inj, Int64.toInt_zero]

lemma overflows_iff (a b : Int64) :
    (b = 0 ∨ a = Int64.minValue ∧ b = -1) ↔
      (b.toInt = 0 ∨ a.toInt = -twoPow 63 ∧ b.toInt = -1) := by
  rw [eq_zero_iff, ← Int64.toInt_inj (x := a), ← Int64.toInt_inj (x := b) (y := -1)]
  exact Iff.rfl

lemma shiftAmount?_none {b : Int64} :
    shiftAmount? b = none ↔ ¬ (0 ≤ b.toInt ∧ b.toInt ≤ 63) := by
  have hzero : 0 ≤ b ↔ 0 ≤ b.toInt := Int64.le_iff_toInt_le
  have hlast : b < 64 ↔ b.toInt ≤ 63 := by
    rw [Int64.lt_iff_toInt_lt]
    exact Int.lt_add_one_iff (b := 63)
  rw [← hzero, ← hlast]
  unfold shiftAmount?
  split
  · rename_i h
    exact iff_of_false (Option.some_ne_none _) (not_not.2 h)
  · rename_i h
    exact iff_of_true rfl h

/-- The amount of a shift is the number that its word stands for. -/
lemma toNat_of_shiftAmount? {b : Int64} {s : UInt64} (h : shiftAmount? b = some s) :
    s.toNat = b.toInt.toNat ∧ s.toNat < 64 := by
  have hrange : ¬ ¬ (0 ≤ b.toInt ∧ b.toInt ≤ 63) := by
    rw [← shiftAmount?_none, h]
    simp
  rw [not_not] at hrange
  unfold shiftAmount? at h
  split at h
  · cases h
    have hsame := unsigned_toInt b
    unfold unsigned at hsame
    rw [show twoPow 64 = 18446744073709551616 from rfl] at hsame
    omega
  · cases h

/-- No operation is left alone but where it is undefined. -/
lemma onWords?_none {op : BinaryOp} {a b : Int64} :
    op.onWords? a b = none ↔ op.Undefined a.toInt b.toInt := by
  cases op with
  | sdiv | srem =>
    show (if _ then none else some _) = none ↔
      (b.toInt = 0 ∨ a.toInt = -twoPow 63 ∧ b.toInt = -1)
    rw [← overflows_iff]
    exact guarded_none_iff
  | udiv | urem =>
    show (if _ then none else some _) = none ↔ b.toInt = 0
    rw [← eq_zero_iff]
    exact guarded_none_iff
  | shl | lshr | ashr =>
    show Option.map _ (shiftAmount? b) = none ↔ _
    rw [Option.map_eq_none_iff]
    exact shiftAmount?_none
  | _ => simp [onWords?, Undefined]

/-- The result of an operation is the word of the exact result. -/
lemma onWords?_exact {op : BinaryOp} {a b c : Int64} (h : op.onWords? a b = some c) :
    c.toInt = wrapped (op.exact a.toInt b.toInt) := by
  cases op with
  | add =>
    cases h
    exact Int64.toInt_add a b
  | sub =>
    cases h
    exact Int64.toInt_sub a b
  | mul =>
    cases h
    exact Int64.toInt_mul a b
  | sdiv =>
    obtain ⟨-, ⟨⟩⟩ := Option.ite_none_left_eq_some.1 h
    exact Int64.toInt_div a b
  | srem =>
    obtain ⟨-, ⟨⟩⟩ := Option.ite_none_left_eq_some.1 h
    -- the remainder is taken towards zero, so it is exact already
    show _ = wrapped (a.toInt.tmod b.toInt)
    rw [← Int64.toInt_mod, wrapped_toInt]
  | udiv =>
    obtain ⟨-, ⟨⟩⟩ := Option.ite_none_left_eq_some.1 h
    rw [toInt_toInt64, UInt64.toNat_div, ← unsigned_toInt, ← unsigned_toInt]
    rfl
  | urem =>
    obtain ⟨-, ⟨⟩⟩ := Option.ite_none_left_eq_some.1 h
    rw [toInt_toInt64, UInt64.toNat_mod, ← unsigned_toInt, ← unsigned_toInt]
    rfl
  | and =>
    cases h
    show _ = wrapped (unsigned a.toInt &&& unsigned b.toInt : Nat)
    rw [unsigned_toInt, unsigned_toInt, ← UInt64.toNat_and]
    exact toInt_eq_wrapped (a &&& b)
  | or =>
    cases h
    show _ = wrapped (unsigned a.toInt ||| unsigned b.toInt : Nat)
    rw [unsigned_toInt, unsigned_toInt, ← UInt64.toNat_or]
    exact toInt_eq_wrapped (a ||| b)
  | xor =>
    cases h
    show _ = wrapped (unsigned a.toInt ^^^ unsigned b.toInt : Nat)
    rw [unsigned_toInt, unsigned_toInt, ← UInt64.toNat_xor]
    exact toInt_eq_wrapped (a ^^^ b)
  | shl =>
    obtain ⟨s, hs, rfl⟩ := Option.map_eq_some_iff.1 h
    -- the amount is below the width, or there is no result
    obtain ⟨hamount, hlt⟩ := toNat_of_shiftAmount? hs
    show _ = wrapped (a.toInt * (twoPow b.toInt.toNat : Nat))
    rw [toInt_toInt64, toNat_shiftLeft hlt, wrapped_toInt_mul, ← hamount, Int.natCast_emod,
      Int.natCast_mul]
    exact Int.emod_bmod _ (twoPow 64)
  | lshr =>
    obtain ⟨s, hs, rfl⟩ := Option.map_eq_some_iff.1 h
    obtain ⟨hamount, hlt⟩ := toNat_of_shiftAmount? hs
    show _ = wrapped (unsigned a.toInt / twoPow b.toInt.toNat : Nat)
    rw [toInt_toInt64, toNat_shiftRight hlt, unsigned_toInt, hamount]
  | ashr =>
    obtain ⟨s, hs, rfl⟩ := Option.map_eq_some_iff.1 h
    obtain ⟨hamount, hlt⟩ := toNat_of_shiftAmount? hs
    show _ = wrapped (a.toInt.fdiv (twoPow b.toInt.toNat : Nat))
    rw [Int.fdiv_eq_ediv_of_nonneg _ (Int.natCast_nonneg _), ← hamount, ← toInt_shiftRight hlt,
      wrapped_toInt]

/-! ## Operations on two constants -/

/-- Constants are folded where the words they count as are. -/
lemma fold?_none {op : BinaryOp} {x y : Const} :
    op.fold? x y = none ↔ op.onWords? x.toInt64 y.toInt64 = none := by
  constructor
  · intro h
    cases x with
    | int v => exact Option.map_eq_none_iff.1 h
    | bool p =>
      cases y with
      | int w => exact Option.map_eq_none_iff.1 h
      | bool q =>
        rw [fold?] at h
        split at h
        · cases h
        · exact Option.map_eq_none_iff.1 h
  · intro h
    cases hc : op.fold? x y with
    | none => rfl
    | some c => rw [onWords?_of_fold? hc] at h; cases h

/-- The result is a truth value exactly for logic on two truth values. -/
lemma fold?_bool_iff {op : BinaryOp} {x y c : Const} (h : op.fold? x y = some c) :
    (∃ b, c = .bool b) ↔ op.IsLogic ∧ (∃ p, x = .bool p) ∧ ∃ q, y = .bool q := by
  have hword : (op.onWords? x.toInt64 y.toInt64).map .int = some c → ¬ ∃ b, c = .bool b := by
    intro h
    obtain ⟨v, -, rfl⟩ := Option.map_eq_some_iff.1 h
    simp
  cases x with
  | int v =>
    refine iff_of_false (hword h) ?_
    rintro ⟨-, ⟨p, hp⟩, -⟩
    cases hp
  | bool p =>
    cases y with
    | int w =>
      refine iff_of_false (hword h) ?_
      rintro ⟨-, -, q, hq⟩
      cases hq
    | bool q =>
      rw [fold?] at h
      split at h
      · rename_i b hb
        cases h
        refine iff_of_true ⟨b, rfl⟩ ⟨?_, ⟨p, rfl⟩, q, rfl⟩
        cases op with
        | and | or | xor => simp [IsLogic]
        | _ => cases hb
      · rename_i hnone
        refine iff_of_false (hword h) ?_
        rintro ⟨rfl | rfl | rfl, -⟩
        all_goals cases hnone

end BinaryOp

/-! ## Comparisons and casts -/

/-- The order that a comparison asks for, of the signed readings of two words. -/
def Comparison.Orders : Comparison → Int → Int → Prop
  | eq, a, b => a = b
  | ne, a, b => a ≠ b
  | slt, a, b => a < b
  | sle, a, b => a ≤ b
  | sgt, a, b => a > b
  | sge, a, b => a ≥ b
  | ult, a, b => unsigned a < unsigned b
  | ule, a, b => unsigned a ≤ unsigned b
  | ugt, a, b => unsigned a > unsigned b
  | uge, a, b => unsigned a ≥ unsigned b

lemma Comparison.holds_iff (p : Comparison) (a b : Int64) :
    p.holds a b = true ↔ p.Orders a.toInt b.toInt := by
  cases p <;>
    simp [holds, Orders, unsigned_toInt, Int64.toInt_inj, Int64.lt_iff_toInt_lt,
      Int64.le_iff_toInt_le, UInt64.lt_iff_toNat_lt, UInt64.le_iff_toNat_le]

/-- The exact result of a cast. The low bits are a number of their own, which a truncation and an
extension by the sign read as signed and an extension by zeros as unsigned; in a word of 64 bits
the latter may leave the range. -/
def CastOp.exact : CastOp → Int → Nat → Int
  | trunc, n, bits | sext, n, bits => n.bmod (twoPow bits)
  | zext, n, bits => wrapped (n % twoPow bits)

/-- Scaling a number and its even modulus scales what is left, read as signed. -/
lemma bmod_mul (x : Int) (m : Nat) {k : Nat} (hk : 0 < k) :
    (x * k).bmod (2 * m * k) = x.bmod (2 * m) * k := by
  have hpos : (0 : Int) < k := Int.natCast_pos.2 hk
  have hmod : x * k % ((2 * m * k : Nat) : Int) = x % ((2 * m : Nat) : Int) * k := by
    rw [Int.natCast_mul (2 * m), Int.mul_comm x, Int.mul_comm _ (k : Int),
      Int.mul_emod_mul_of_pos _ _ hpos, Int.mul_comm]
  have hhalf : (((2 * m * k : Nat) : Int) + 1) / 2 = (m : Int) * k := by
    rw [Nat.mul_assoc, Int.natCast_mul, Int.natCast_mul]
    omega
  have hhalf' : (((2 * m : Nat) : Int) + 1) / 2 = m := by omega
  rw [Int.bmod_def, Int.bmod_def, hmod, hhalf, hhalf']
  simp only [Int.mul_lt_mul_right hpos]
  split
  · rfl
  · rw [Int.sub_mul, Int.natCast_mul (2 * m)]

/-- Raising the low bits of a word to its top and lowering them again. -/
lemma raise_lower (v : Int64) {low : Nat} (hpos : 1 ≤ low) (hlow : low ≤ 63) :
    let s := UInt64.ofNat (64 - low)
    ((v.toUInt64 <<< s).toInt64 >>> s.toInt64).toInt = v.toInt.bmod (twoPow low) ∧
      (v.toUInt64 <<< s >>> s).toNat = v.toUInt64.toNat % twoPow low := by
  intro s
  have hs : s.toNat = 64 - low := by
    show (UInt64.ofNat (64 - low)).toNat = _
    rw [UInt64.toNat_ofNat']
    omega
  have hlt : s.toNat < 64 := by omega
  have hscale : twoPow 64 = twoPow low * twoPow s.toNat := by
    rw [hs]
    show 2 ^ 64 = 2 ^ low * 2 ^ (64 - low)
    rw [← Nat.pow_add]
    congr 1
    omega
  have hunit : 0 < twoPow s.toNat := Nat.pow_pos (by decide)
  constructor
  · have heven : twoPow low = 2 * twoPow (low - 1) := by
      show 2 ^ low = 2 * 2 ^ (low - 1)
      rw [← Nat.pow_succ', Nat.succ_eq_add_one, Nat.sub_add_cancel hpos]
    have hraised : (v.toUInt64 <<< s).toInt64.toInt =
        v.toInt.bmod (twoPow low) * twoPow s.toNat := by
      calc (v.toUInt64 <<< s).toInt64.toInt
          = wrapped (v.toUInt64.toNat * twoPow s.toNat % twoPow 64 : Nat) := by
            rw [toInt_toInt64, toNat_shiftLeft hlt]
        _ = wrapped (v.toUInt64.toNat * twoPow s.toNat) := by
            rw [Int.natCast_emod, Int.natCast_mul]
            exact Int.emod_bmod _ (twoPow 64)
        _ = (v.toInt * twoPow s.toNat).bmod (twoPow low * twoPow s.toNat) := by
            rw [← wrapped_toInt_mul, wrapped, hscale]
        _ = v.toInt.bmod (twoPow low) * twoPow s.toNat := by
            rw [heven, bmod_mul _ _ hunit]
    rw [toInt_shiftRight hlt, hraised]
    exact Int.mul_ediv_cancel _ (Int.natCast_ne_zero.2 (Nat.pos_iff_ne_zero.1 hunit))
  · rw [toNat_shiftRight hlt, toNat_shiftLeft hlt, hscale, Nat.mul_mod_mul_right,
      Nat.mul_div_cancel _ hunit]

/-- A cast to a width of 1 to 64 gives the exact result. -/
lemma CastOp.apply_exact (op : CastOp) (v : Int64) {bits : Nat} (hpos : 1 ≤ bits)
    (hbits : bits ≤ 64) : (op.apply v bits).toInt = op.exact v.toInt bits := by
  rcases Nat.lt_or_eq_of_le hbits with hlt | rfl
  · obtain ⟨hsigned, hunsigned⟩ := raise_lower v hpos (Nat.le_of_lt_succ hlt)
    unfold apply
    rw [if_neg (Nat.not_le.2 hlt)]
    cases op with
    | trunc | sext => exact hsigned
    | zext =>
      show (UInt64.toInt64 _).toInt = wrapped (v.toInt % (twoPow bits : Nat))
      rw [toInt_toInt64, hunsigned, toInt_emod v hbits, Int.natCast_emod]
  · -- a word is all of its own bits
    unfold apply
    rw [if_pos (Nat.le_refl 64)]
    cases op with
    | trunc | sext => exact (wrapped_toInt v).symm
    | zext =>
      calc v.toInt
          = wrapped v.toInt := (wrapped_toInt v).symm
        _ = wrapped (v.toInt % (twoPow 64 : Nat)) := (Int.emod_bmod _ (twoPow 64)).symm

/-! ## Running a division early -/

/-- Division and remainder are folded for every dividend exactly if the divisor is not zero and,
for the signed ones, not -1: with that one the least word has no quotient. -/
lemma BinaryOp.fold?_always_iff {op : BinaryOp} (hop : op.isDivision = true) (c : Const) :
    (∀ x, ∃ r, op.fold? x c = some r) ↔
      c.toInt64 ≠ 0 ∧ ¬ (op.isSignedDivision = true ∧ c.toInt64 = -1) := by
  have hdefined : (∀ x, ∃ r, op.fold? x c = some r) ↔
      ∀ x : Const, ¬ op.Undefined x.toInt64.toInt c.toInt64.toInt := by
    refine forall_congr' fun x => ?_
    rw [← Option.ne_none_iff_exists', ne_eq, fold?_none, onWords?_none]
  have hleast : ∀ w : Int64, w.toInt = -1 ↔ w = -1 := fun w =>
    Int64.toInt_inj (x := w) (y := -1)
  rw [hdefined]
  cases op with
  | sdiv | srem =>
    show (∀ x : Const, ¬ (c.toInt64.toInt = 0 ∨ x.toInt64.toInt = -twoPow 63 ∧
      c.toInt64.toInt = -1)) ↔ _
    rw [← eq_zero_iff, hleast]
    constructor
    · intro h
      exact ⟨fun hz => h c (.inl hz), fun hm => h (.int Int64.minValue) (.inr ⟨rfl, hm.2⟩)⟩
    · rintro ⟨hz, hm⟩ x (h | h)
      · exact hz h
      · exact hm ⟨rfl, h.2⟩
  | udiv | urem =>
    show (∀ x : Const, ¬ c.toInt64.toInt = 0) ↔ _
    rw [← eq_zero_iff]
    exact ⟨fun h => ⟨h c, fun hm => Bool.false_ne_true hm.1⟩, fun h _ => h.1⟩
  | _ => cases hop

lemma Inst.isSpeculatable_division {op : BinaryOp} (hop : op.isDivision = true) (a : Value)
    (c : Const) : (Inst.binary op a (.const c)).isSpeculatable = true ↔
      c.toInt64 ≠ 0 ∧ ¬ (op.isSignedDivision = true ∧ c.toInt64 = -1) := by
  show (if op.isDivision then safeDivisor op (.const c) else true) = true ↔ _
  rw [if_pos hop]
  show (c.toInt64 != 0 && !(op.isSignedDivision && decide (c.toInt64 = -1))) = true ↔ _
  simp only [Bool.and_eq_true, bne_iff_ne, Bool.not_eq_true', ← Bool.not_eq_true,
    decide_eq_true_eq]

/-! ## The folder as a whole -/

/-- Folding is exact. An operation on two constants, truth values counting as 0 and 1, is left
alone exactly where it is undefined, and otherwise gives the word of the exact result, as a truth
value exactly for logic on two truth values. A comparison holds exactly if the numbers are in the
order it asks for. A cast to a width of 1 to 64 gives the exact result. And a division or remainder
by a constant may run where it did not run before exactly if it is folded for every dividend. -/
theorem folding_exact :
    (∀ (op : BinaryOp) (x y : Const),
      (op.fold? x y = none ↔ op.Undefined x.toInt64.toInt y.toInt64.toInt) ∧
      ∀ c, op.fold? x y = some c →
        c.toInt64.toInt = wrapped (op.exact x.toInt64.toInt y.toInt64.toInt) ∧
        ((∃ b, c = .bool b) ↔ op.IsLogic ∧ (∃ p, x = .bool p) ∧ ∃ q, y = .bool q)) ∧
    (∀ (p : Comparison) (a b : Int64), p.holds a b = true ↔ p.Orders a.toInt b.toInt) ∧
    (∀ (op : CastOp) (v : Int64) (bits : Nat), 1 ≤ bits → bits ≤ 64 →
      (op.apply v bits).toInt = op.exact v.toInt bits) ∧
    ∀ (op : BinaryOp) (a : Value) (c : Const), op ∈ [.sdiv, .udiv, .srem, .urem] →
      ((Inst.binary op a (.const c)).isSpeculatable = true ↔
        ∀ x, ∃ r, op.fold? x c = some r) := by
  refine ⟨?_, Comparison.holds_iff, fun op v bits => op.apply_exact v, ?_⟩
  · intro op x y
    refine ⟨BinaryOp.fold?_none.trans BinaryOp.onWords?_none, fun c hc => ⟨?_, ?_⟩⟩
    · exact BinaryOp.onWords?_exact (BinaryOp.onWords?_of_fold? hc)
    · exact BinaryOp.fold?_bool_iff hc
  · intro op a c hop
    have hdiv : op.isDivision = true := by
      revert op
      decide
    rw [Inst.isSpeculatable_division hdiv, BinaryOp.fold?_always_iff hdiv]

/-- At the ends of the range: the least word divided by -1 and a shift by 64 are left alone, a
shift by 63 is not; the lowest 8 bits of 384 are a negative number; and a signed division by -1 may
not run early, the unsigned one may. -/
theorem folding_exact_extremes :
    BinaryOp.sdiv.fold? (.int Int64.minValue) (.int (-1)) = none ∧
    BinaryOp.shl.fold? (.bool true) (.int 64) = none ∧
    (∀ c, BinaryOp.shl.fold? (.bool true) (.int 63) = some c → c.toInt64.toInt = -twoPow 63) ∧
    ((1 ≤ 8 ∧ 8 ≤ 64) ∧ (CastOp.sext.apply 384 8).toInt = -128) ∧
    (BinaryOp.sdiv ∈ [BinaryOp.sdiv, .udiv, .srem, .urem] ∧
      ¬ ∀ x, ∃ r, BinaryOp.sdiv.fold? x (.int (-1)) = some r) ∧
    BinaryOp.udiv ∈ [BinaryOp.sdiv, .udiv, .srem, .urem] ∧
      ∀ x, ∃ r, BinaryOp.udiv.fold? x (.int (-1)) = some r := by
  obtain ⟨hfold, -, hcast, hspeculate⟩ := folding_exact
  refine ⟨?_, ?_, ?_, ⟨by decide, hcast .sext 384 8 (by decide) (by decide)⟩, ⟨by decide, ?_⟩,
    by decide, ?_⟩
  · exact (hfold .sdiv (.int Int64.minValue) (.int (-1))).1.2 (.inr ⟨rfl, rfl⟩)
  · exact (hfold .shl (.bool true) (.int 64)).1.2 (by unfold BinaryOp.Undefined; decide)
  · intro c hc
    exact ((hfold .shl (.bool true) (.int 63)).2 c hc).1
  · exact mt (hspeculate .sdiv .undef (.int (-1)) (by decide)).2 (by decide)
  · exact (hspeculate .udiv .undef (.int (-1)) (by decide)).1 (by decide)

end SsaBackend
