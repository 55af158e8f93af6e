import SsaBackend.Phi

/-!
# Instructions

What an instruction computes, with its operands. Every question a pass asks of an
instruction is answered here by a match over the kinds: its operands, whether it has a
result, whether it may leave a loop and whether it may run where it did not run before.
-/

namespace SsaBackend

/-! ## Operations -/

/-- Two-operand arithmetic and bitwise operations on 64-bit words. -/
inductive BinaryOp where
  | add | sub | mul
  | sdiv | udiv | srem | urem
  | and | or | xor
  | shl | lshr | ashr
  deriving DecidableEq, Repr

namespace BinaryOp

/-- All operations. -/
def all : List BinaryOp :=
  [add, sub, mul, sdiv, udiv, srem, urem, and, or, xor, shl, lshr, ashr]

/-- The mnemonic. -/
def mnemonic : BinaryOp → String
  | add => "add" | sub => "sub" | mul => "mul"
  | sdiv => "sdiv" | udiv => "udiv" | srem => "srem" | urem => "urem"
  | and => "and" | or => "or" | xor => "xor"
  | shl => "shl" | lshr => "lshr" | ashr => "ashr"

/-- The operation with the given mnemonic. -/
def ofMnemonic? (s : String) : Option BinaryOp := all.find? (·.mnemonic = s)

/-- Division and remainder, which trap on a zero divisor. -/
def isDivision : BinaryOp → Bool
  | sdiv | udiv | srem | urem => true
  | _ => false

/-- Signed division and remainder, which also overflow for the least number by -1. -/
def isSignedDivision : BinaryOp → Bool
  | sdiv | srem => true
  | _ => false

end BinaryOp

/-- Comparisons of 64-bit words, signed and unsigned. -/
inductive Comparison where
  | eq | ne
  | slt | sle | sgt | sge
  | ult | ule | ugt | uge
  deriving DecidableEq, Repr

namespace Comparison

/-- All comparisons. -/
def all : List Comparison := [eq, ne, slt, sle, sgt, sge, ult, ule, ugt, uge]

/-- The mnemonic. -/
def mnemonic : Comparison → String
  | eq => "eq" | ne => "ne"
  | slt => "slt" | sle => "sle" | sgt => "sgt" | sge => "sge"
  | ult => "ult" | ule => "ule" | ugt => "ugt" | uge => "uge"

/-- The comparison with the given mnemonic. -/
def ofMnemonic? (s : String) : Option Comparison := all.find? (·.mnemonic = s)

end Comparison

/-- Conversions between widths: keep the low bits, or extend them by zeros or by the sign. -/
inductive CastOp where
  | trunc | zext | sext
  deriving DecidableEq, Repr

namespace CastOp

/-- All conversions. -/
def all : List CastOp := [trunc, zext, sext]

/-- The mnemonic. -/
def mnemonic : CastOp → String
  | trunc => "trunc" | zext => "zext" | sext => "sext"

/-- The conversion with the given mnemonic. -/
def ofMnemonic? (s : String) : Option CastOp := all.find? (·.mnemonic = s)

end CastOp

/-! ## Instructions -/

/-- What an instruction computes. -/
inductive Inst where
  | binary (op : BinaryOp) (lhs rhs : Value)
  | compare (pred : Comparison) (lhs rhs : Value)
  | cast (op : CastOp) (value : Value) (bits : Nat)
  | select (cond thenValue elseValue : Value)
  | address (base index : Value)
  | load (addr : Value)
  | store (addr value : Value)
  | call (callee : String) (args : List Value)
  | alloca
  | phi (node : Phi)
  deriving DecidableEq, Repr

namespace Inst

/-- The mnemonic of the kind. -/
def opcode : Inst → String
  | binary op _ _ => op.mnemonic
  | compare .. => "icmp"
  | cast op _ _ => op.mnemonic
  | select .. => "select"
  | address .. => "gep"
  | load .. => "load"
  | store .. => "store"
  | call .. => "call"
  | alloca => "alloca"
  | phi _ => "phi"

/-- The operands in order. -/
def operands : Inst → List Value
  | binary _ a b | compare _ a b => [a, b]
  | cast _ v _ => [v]
  | select c a b => [c, a, b]
  | address a i => [a, i]
  | load a => [a]
  | store a v => [a, v]
  | call _ args => args
  | alloca => []
  | phi node => node.values

/-- Applies `f` to every operand. -/
def mapOperands (f : Value → Value) : Inst → Inst
  | binary op a b => binary op (f a) (f b)
  | compare p a b => compare p (f a) (f b)
  | cast op v bits => cast op (f v) bits
  | select c a b => select (f c) (f a) (f b)
  | address a i => address (f a) (f i)
  | load a => load (f a)
  | store a v => store (f a) (f v)
  | call callee args => call callee (args.map f)
  | alloca => alloca
  | phi node => phi (node.mapValues f)

/-- Whether the instruction produces a value. -/
def hasResult : Inst → Bool
  | store .. => false
  | _ => true

/-- The phi node, if the instruction is one. -/
def phi? : Inst → Option Phi
  | phi node => some node
  | _ => none

/-- Whether the instruction is a phi. -/
def isPhi (inst : Inst) : Bool := inst.phi?.isSome

/-- Whether the kind may leave a loop at all. Memory accesses, calls, stack allocations and
phis stay where they are. -/
def isHoistable : Inst → Bool
  | binary .. | compare .. | cast .. | select .. | address .. => true
  | load .. | store .. | call .. | alloca | phi _ => false

/-- Whether a divisor can never make a division trap: it is a constant other than zero and,
for the signed forms, other than -1. -/
def safeDivisor (op : BinaryOp) (divisor : Value) : Bool :=
  match divisor.const? with
  | some c => c.toInt64 != 0 && !(op.isSignedDivision && c.toInt64 = -1)
  | none => false

/-- Whether running the instruction on a path that did not run it before can neither trap
nor have an effect. -/
def isSpeculatable : Inst → Bool
  | binary op _ rhs => if op.isDivision then safeDivisor op rhs else true
  | compare .. | cast .. | select .. | address .. => true
  | load .. | store .. | call .. | alloca | phi _ => false

/-- The written form. A store names the value before the address. -/
def text : Inst → String
  | binary op a b => s!"{op.mnemonic} {a}, {b}"
  | compare p a b => s!"icmp {p.mnemonic} {a}, {b}"
  | cast op v bits => s!"{op.mnemonic} {v}, i{bits}"
  | select c a b => s!"select {c}, {a}, {b}"
  | address a i => s!"gep {a}, {i}"
  | load a => s!"load {a}"
  | store a v => s!"store {v}, {a}"
  | call callee args =>
    "call @" ++ callee ++ "(" ++ String.intercalate ", " (args.map toString) ++ ")"
  | alloca => "alloca"
  | phi node => node.text

instance : ToString Inst := ⟨text⟩

/-- Mapping over the operands maps the list of operands. -/
@[simp] theorem operands_mapOperands (f : Value → Value) (inst : Inst) :
    (inst.mapOperands f).operands = inst.operands.map f := by
  cases inst <;> simp [mapOperands, operands, Phi.values, Phi.mapValues]

end Inst

end SsaBackend
