import SsaBackend.Func.Verify
import SsaBackend.Pass.BranchFold
import SsaBackend.Pass.ConstantOps
import SsaBackend.Pass.DeadBlocks
import SsaBackend.Pass.Hoist
import SsaBackend.Pass.Preheaders

/-!
# Passes and schedules

The passes, what each of them needs and keeps, and the running of a list of them. Before
anything runs, every pass must come after the passes it requires. A pass gets the analyses it
asks for; those that a changing pass does not keep are forgotten, and the function is checked
after every change if the schedule says so.

One pass can make work for an earlier one. Running to a fixpoint repeats the whole list until
a round changes nothing.
-/

namespace SsaBackend

/-- The passes. -/
inductive Pass where
  | constantOps
  | branchFold
  | deadBlocks
  | preheaders
  | hoist
  deriving DecidableEq, Repr

namespace Pass

/-- All passes. -/
def all : List Pass := [constantOps, branchFold, deadBlocks, preheaders, hoist]

/-- The name by which a pass is scheduled. -/
def name : Pass → String
  | constantOps => "constant-ops"
  | branchFold => "constant-branch-folding"
  | deadBlocks => "dead-block-elimination"
  | preheaders => "loop-preheaders"
  | hoist => "licm"

/-- The pass with the given name. -/
def ofName? (s : String) : Option Pass := all.find? (·.name = s)

/-- What a pass does, in a sentence. -/
def description : Pass → String
  | constantOps => "Folds arithmetic, comparisons, casts and selects with constant operands"
  | branchFold => "Turns conditional branches on constant conditions into jumps"
  | deadBlocks => "Deletes blocks that can not be reached from the entry"
  | preheaders => "Inserts a dedicated preheader block in front of every loop"
  | hoist => "Hoists loop-invariant computations into loop preheaders"

/-- The passes that must come before. -/
def requires : Pass → List Pass
  | constantOps => []
  | branchFold => [constantOps]
  | deadBlocks => [branchFold]
  | preheaders => [deadBlocks]
  | hoist => [deadBlocks, preheaders]

/-- The analyses a pass asks for. -/
def wanted : Pass → Analyses
  | hoist => ⟨false, true⟩
  | _ => .none

/-- The analyses that stay right when the pass changes the function. -/
def kept : Pass → Analyses
  | constantOps | hoist => .all
  | branchFold | deadBlocks | preheaders => .none

/-- Runs a pass, and answers whether it changed the function. -/
def run : Pass → Work Session Bool
  | constantOps => ConstantOps.run
  | branchFold => BranchFold.run
  | deadBlocks => DeadBlocks.run
  | preheaders => Preheaders.run
  | hoist => Hoist.run

end Pass

/-- A list of passes to run in order. -/
structure Schedule where
  passes : List Pass
  /-- Whether the function is checked after every pass that changed it. -/
  verify : Bool := true
  deriving DecidableEq, Repr

namespace Schedule

/-- Checks that every pass comes after those it requires. `before` are the passes already
passed. -/
def validateFrom : List Pass → List Pass → Except Error Unit
  | _, [] => .ok ()
  | before, p :: rest =>
    match p.requires.find? (!before.contains ·) with
    | some r => .error (.passOrder p.name r.name)
    | none => validateFrom (before ++ [p]) rest

/-- Checks that every pass comes after those it requires. -/
def validate (sch : Schedule) : Except Error Unit := validateFrom [] sch.passes

/-- Runs one pass of the schedule, and answers whether it changed the function. -/
def runPass (sch : Schedule) (p : Pass) : Work Session Bool := do
  Session.compute p.wanted
  let changed ← p.run
  Session.note (.passRan p.name changed)
  if changed then
    Session.setCache ((← get).cache.keepOnly p.kept)
    if sch.verify then Work.ofExcept (← get).func.verify
  return changed

/-- Runs all passes once, and answers whether any of them changed the function. -/
def run (sch : Schedule) : Work Session Bool := do
  Work.ofExcept sch.validate
  sch.passes.foldlM (fun any p => return (← sch.runPass p) || any) false

/-- Repeats all passes for the rounds `i, i + 1, …`, `left` of them at most, until one changes
nothing. -/
def repeatFrom (sch : Schedule) (i : Nat) : Nat → Work Session Bool
  | 0 => do
    Session.note (.stillChanging (i - 1))
    return i > 1
  | left + 1 => do
    if ← sch.run then sch.repeatFrom (i + 1) left
    else
      Session.note (.fixpointReached i)
      return i > 1

/-- Repeats all passes until a round changes nothing, at most `max` times, and answers whether
any round changed the function. -/
def runToFixpoint (sch : Schedule) (max : Nat) : Work Session Bool := sch.repeatFrom 1 max

end Schedule

end SsaBackend
