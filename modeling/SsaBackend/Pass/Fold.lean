import SsaBackend.Inst

/-!
# Folding constants

What an instruction computes when its operands are known. Words are 64 bits wide and wrap.
Division by zero, signed division of the least word by -1 and shifts by 64 or more are not
folded: the trap, or the undefined result, stays where the program has it.
-/

namespace SsaBackend

namespace BinaryOp

/-- The amount of a shift, if it is one that is defined. -/
def shiftAmount? (b : Int64) : Option UInt64 := if 0 ≤ b ∧ b < 64 then some b.toUInt64 else none

/-- The operation on two words, where it is defined. -/
def onWords? : BinaryOp → Int64 → Int64 → Option Int64
  | add, a, b => some (a + b)
  | sub, a, b => some (a - b)
  | mul, a, b => some (a * b)
  | sdiv, a, b => if b = 0 ∨ (a = Int64.minValue ∧ b = -1) then none else some (a / b)
  | srem, a, b => if b = 0 ∨ (a = Int64.minValue ∧ b = -1) then none else some (a % b)
  | udiv, a, b => if b = 0 then none else some (a.toUInt64 / b.toUInt64).toInt64
  | urem, a, b => if b = 0 then none else some (a.toUInt64 % b.toUInt64).toInt64
  | and, a, b => some (a &&& b)
  | or, a, b => some (a ||| b)
  | xor, a, b => some (a ^^^ b)
  | shl, a, b => (shiftAmount? b).map fun s => (a.toUInt64 <<< s).toInt64
  | lshr, a, b => (shiftAmount? b).map fun s => (a.toUInt64 >>> s).toInt64
  | ashr, a, b => (shiftAmount? b).map fun s => a >>> s.toInt64

/-- The operation on two truth values, for the operations that yield one. -/
def onBools? : BinaryOp → Bool → Bool → Option Bool
  | and, a, b => some (a && b)
  | or, a, b => some (a || b)
  | xor, a, b => some (a != b)
  | _, _, _ => none

/-- The operation on two constants. Logic on truth values stays a truth value. -/
def fold? (op : BinaryOp) : Const → Const → Option Const
  | .bool a, .bool b =>
    match op.onBools? a b with
    | some c => some (.bool c)
    | none => (op.onWords? (Const.bool a).toInt64 (Const.bool b).toInt64).map .int
  | a, b => (op.onWords? a.toInt64 b.toInt64).map .int

end BinaryOp

/-- Whether a comparison holds of two words. -/
def Comparison.holds : Comparison → Int64 → Int64 → Bool
  | eq, a, b => a = b
  | ne, a, b => a ≠ b
  | slt, a, b => a < b
  | sle, a, b => a ≤ b
  | sgt, a, b => b < a
  | sge, a, b => b ≤ a
  | ult, a, b => a.toUInt64 < b.toUInt64
  | ule, a, b => a.toUInt64 ≤ b.toUInt64
  | ugt, a, b => b.toUInt64 < a.toUInt64
  | uge, a, b => b.toUInt64 ≤ a.toUInt64

/-- Keeps the low `bits` bits of a word, and fills the others with copies of the highest of
them or, for a zero extension, with zeros. -/
def CastOp.apply (op : CastOp) (v : Int64) (bits : Nat) : Int64 :=
  if 64 ≤ bits then v
  else
    let unused := UInt64.ofNat (64 - bits)
    let raised := v.toUInt64 <<< unused
    match op with
    | trunc | sext => raised.toInt64 >>> unused.toInt64
    | zext => (raised >>> unused).toInt64

/-- The value an instruction amounts to, if that is known. A select whose two values agree
amounts to that value whatever its condition. -/
def Inst.fold? : Inst → Option Value
  | binary op a b => do
    let x ← a.const?
    let y ← b.const?
    (op.fold? x y).map .const
  | compare p a b => do
    let x ← a.const?
    let y ← b.const?
    return .bool (p.holds x.toInt64 y.toInt64)
  | cast op v bits => v.const?.map fun c => .int (op.apply c.toInt64 bits)
  | select c a b =>
    if a = b then some a else c.const?.map fun k => if k.isTrue then a else b
  | address .. | load .. | store .. | call .. | alloca | phi _ => none

end SsaBackend
