import SsaBackend.Func.Basic

/-!
# Listings

The written form of a function: a header with the arguments, then every block with its
predecessors, its instructions indented below it and its terminator.
-/

namespace SsaBackend

namespace Func

/-- The predecessors, as a remark behind the label of a block. -/
def predsRemark : List BlockId → String
  | [] => ""
  | preds => "  ; preds =" ++ String.join (preds.map fun p => s!" {p}")

/-- The line of an instruction, which names the result if there is one. -/
def instLine (i : InstId) (inst : Inst) : String :=
  if inst.hasResult then s!"    {i} = {inst}" else s!"    {inst}"

/-- The line of a terminator. -/
def terminatorLine : Option Terminator → String
  | some t => s!"    {t}"
  | none => "    <unterminated>"

/-- The lines of a block. Places of removed instructions are passed over. -/
def blockLines (f : Func) (id : BlockId) (b : Block) : List String :=
  s!"{id}:{predsRemark b.preds}"
    :: b.insts.filterMap (fun i => (f.inst? i).map fun p => instLine i p.inst)
    ++ [terminatorLine b.terminator]

/-- The first line: name and arguments. -/
def headerLine (f : Func) : String :=
  let args := String.intercalate ", " ((List.range f.numArgs).map fun n => toString (Value.arg n))
  "function @" ++ f.name ++ "(" ++ args ++ ") \x7b"

/-- The lines of the listing. -/
def lines (f : Func) : List String :=
  f.headerLine :: f.liveBlocks.flatMap (fun e => f.blockLines e.1 e.2) ++ ["\x7d"]

/-- The listing. -/
def text (f : Func) : String := String.intercalate "\n" f.lines

instance : ToString Func := ⟨text⟩

end Func

end SsaBackend
