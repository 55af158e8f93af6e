import SsaBackend.Name

/-!
# Operand values

An operand is a literal constant, the result of an instruction, an argument of the function
or `undef`. `Value.text` writes one and `Value.parse?` reads the written form back.
-/

namespace SsaBackend

/-- A literal constant. Narrow integers are kept sign-extended to 64 bits. -/
inductive Const where
  | int (v : Int64)
  | bool (b : Bool)
  deriving DecidableEq, Repr

namespace Const

/-- The constant as an integer; truth values count as 0 and 1. -/
def toInt64 : Const → Int64
  | int v => v
  | bool b => if b then 1 else 0

/-- The constant as a truth value; every integer but zero is true. -/
def isTrue : Const → Bool
  | int v => v != 0
  | bool b => b

/-- The written form. -/
def text : Const → String
  | int v => toString v.toInt
  | bool b => if b then "true" else "false"

instance : ToString Const := ⟨text⟩

end Const

/-- An operand of an instruction or of a terminator. -/
inductive Value where
  | const (c : Const)
  | inst (id : InstId)
  | arg (n : Nat)
  | undef
  deriving DecidableEq, Repr, Inhabited

namespace Value

/-- An integer constant. -/
abbrev int (v : Int64) : Value := const (.int v)

/-- A truth value constant. -/
abbrev bool (b : Bool) : Value := const (.bool b)

/-- The instruction that computes the value, if one does. -/
def inst? : Value → Option InstId
  | inst id => some id
  | _ => none

/-- The constant, if the value is one. -/
def const? : Value → Option Const
  | const c => some c
  | _ => none

/-- `v` with `old` replaced by `new`. -/
def subst (old new v : Value) : Value := if v = old then new else v

/-! ## Written form -/

/-- The written form: `%7`, `%arg2`, `undef` or the constant. -/
def text : Value → String
  | const c => c.text
  | inst id => toString id
  | arg n => s!"%arg{n}"
  | undef => "undef"

instance : ToString Value := ⟨text⟩

/-- Reads decimal digits, and nothing but digits. -/
def digits? (cs : List Char) : Option Nat :=
  if cs.isEmpty || !cs.all Char.isDigit then none
  else some (cs.foldl (fun n c => 10 * n + (c.toNat - '0'.toNat)) 0)

/-- Reads a decimal number with an optional minus sign. -/
def signed? : List Char → Option Int
  | '-' :: cs => (digits? cs).map fun n => -(n : Int)
  | cs => (digits? cs).map fun n => (n : Int)

/-- Reads the written form of a value; a number must fit 64 bits. -/
def parse? (s : String) : Option Value :=
  if s = "undef" then some undef
  else if s = "true" then some (bool true)
  else if s = "false" then some (bool false)
  else
    match s.toList with
    | '%' :: 'a' :: 'r' :: 'g' :: cs => (digits? cs).map arg
    | '%' :: cs => (digits? cs).map fun n => inst ⟨n⟩
    | cs => do
      let v ← signed? cs
      if Int64.minValue.toInt ≤ v ∧ v ≤ Int64.maxValue.toInt then some (int (Int64.ofInt v))
      else none

end Value

end SsaBackend
