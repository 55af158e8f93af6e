import SsaBackend.Value

/-!
# Phi nodes

A phi node merges the values that flow into its block, one operand per predecessor. Operands
keep the order in which they were set.
-/

namespace SsaBackend

/-- The value that flows in from one predecessor. -/
structure PhiOperand where
  block : BlockId
  value : Value
  deriving DecidableEq, Repr

instance : ToString PhiOperand := ⟨fun op => s!"[{op.block}: {op.value}]"⟩

/-- A merge of values at a join of control flow. -/
structure Phi where
  operands : List PhiOperand
  deriving DecidableEq, Repr

namespace Phi

/-- The phi without operands. -/
def empty : Phi := ⟨[]⟩

/-- The number of operands. -/
def arity (phi : Phi) : Nat := phi.operands.length

/-- The value that flows in from `block`. -/
def incoming? (phi : Phi) (block : BlockId) : Option Value :=
  (phi.operands.find? (·.block = block)).map (·.value)

/-- Sets the value of the first operand for `block`, or adds an operand at the end. -/
def setOperand (block : BlockId) (value : Value) : List PhiOperand → List PhiOperand
  | [] => [⟨block, value⟩]
  | op :: rest =>
    if op.block = block then ⟨block, value⟩ :: rest
    else op :: setOperand block value rest

/-- Sets the value that flows in from `block`. -/
def setIncoming (phi : Phi) (block : BlockId) (value : Value) : Phi :=
  ⟨setOperand block value phi.operands⟩

/-- Drops the first operand for `block`. -/
def dropIncoming (phi : Phi) (block : BlockId) : Phi :=
  ⟨phi.operands.eraseP (·.block = block)⟩

/-- Makes the operands from `old` come from `new`. -/
def renameIncoming (phi : Phi) (old new : BlockId) : Phi :=
  ⟨phi.operands.map fun op => if op.block = old then { op with block := new } else op⟩

/-- Applies `f` to every incoming value. -/
def mapValues (f : Value → Value) (phi : Phi) : Phi :=
  ⟨phi.operands.map fun op => { op with value := f op.value }⟩

/-- The incoming values in order. -/
def values (phi : Phi) : List Value := phi.operands.map (·.value)

/-- The one value among `values` that differs from `self`, given the one met so far; none if
there are two. -/
def soleValue (self : Value) : Option Value → List Value → Option (Option Value)
  | same, [] => some same
  | same, v :: rest =>
    if v = self ∨ some v = same then soleValue self same rest
    else if same.isSome then none
    else soleValue self (some v) rest

/-- The value to which the phi defined by `self` amounts, if there is just one. Operands
that are the phi itself do not count, and a phi with no other operand amounts to `undef`. -/
def trivial? (phi : Phi) (self : InstId) : Option Value :=
  (soleValue (.inst self) none phi.values).map (·.getD .undef)

/-- The written form: `phi [bb0: 3], [bb1: %2]`. -/
def text (phi : Phi) : String :=
  match phi.operands with
  | [] => "phi"
  | ops => "phi " ++ String.intercalate ", " (ops.map toString)

instance : ToString Phi := ⟨text⟩

end Phi

end SsaBackend
