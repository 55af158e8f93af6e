import SsaBackend.Value

/-!
# Terminators

The end of a basic block: a jump, a two-way branch or a return.
-/

namespace SsaBackend

/-- How a basic block ends. -/
inductive Terminator where
  | jump (target : BlockId)
  | branch (cond : Value) (thenBlock elseBlock : BlockId)
  | ret (value : Option Value)
  deriving DecidableEq, Repr

namespace Terminator

/-- The blocks control may go to, each once, in branch order. -/
def successors : Terminator → List BlockId
  | jump b => [b]
  | branch _ t e => if e = t then [t] else [t, e]
  | ret _ => []

/-- The operands. -/
def operands : Terminator → List Value
  | jump _ => []
  | branch c _ _ => [c]
  | ret v => v.toList

/-- Applies `f` to every operand. -/
def mapOperands (f : Value → Value) : Terminator → Terminator
  | jump b => jump b
  | branch c t e => branch (f c) t e
  | ret v => ret (v.map f)

/-- Makes every edge to `old` go to `new`. -/
def retarget (old new : BlockId) : Terminator → Terminator
  | jump b => jump (if b = old then new else b)
  | branch c t e => branch c (if t = old then new else t) (if e = old then new else e)
  | ret v => ret v

/-- The written form. -/
def text : Terminator → String
  | jump b => s!"br {b}"
  | branch c t e => s!"br {c}, {t}, {e}"
  | ret (some v) => s!"ret {v}"
  | ret none => "ret"

instance : ToString Terminator := ⟨text⟩

end Terminator

end SsaBackend
