import SsaBackend.Value
import SsaBackend.Live.Interval

/-!
# Events

What the back end reports while it works: each thing worth telling is an event, and a
journal is the events in the order they happened. `Event.text` is the one place where they
are put into words; an event is either for following the course of a compilation (`debug`)
or for following a single value through it (`trace`).
-/

namespace SsaBackend

/-- How closely one has to look to want to see an event. -/
inductive Level where
  | debug
  | trace
  deriving DecidableEq, Repr

instance : ToString Level where
  toString
    | .debug => "DEBUG"
    | .trace => "TRACE"

/-- What happened to a function. -/
inductive FuncEvent where
  | phiReplaced (phi : InstId) (same : Value)
  | sealedAtFinish (block : BlockId)
  | constantsFolded (insts phis : Nat)
  | branchFolded (block taken : BlockId)
  | blocksRemoved (count : Nat)
  | preheaderInserted (preheader header : BlockId) (entering : Nat)
  | instHoisted (inst : InstId) (source target : BlockId)
  | instsHoisted (count : Nat)
  | passRan (pass : String) (changed : Bool)
  | fixpointReached (iterations : Nat)
  | stillChanging (iterations : Nat)
  | optimized (changed : Bool) (blocks insts : Nat)
  | intervalComputed (interval : Interval)
  deriving DecidableEq, Repr

/-- Something that happened. -/
inductive Event where
  | inFunction (name : String) (event : FuncEvent)
  | simplified (index : Nat) (spill : Bool) (reg : VirtReg) (degree : Nat) (weight : Weight)
  | assigned (reg : VirtReg) (phys : PhysReg)
  | evicted (reg : VirtReg) (phys : PhysReg) (winner : VirtReg)
  | spilled (reg : VirtReg) (slot : SpillSlot) (products : Nat)
  | allocated (registers spills : Nat)
  deriving DecidableEq, Repr

/-- Events in the order they happened. -/
abbrev Journal := Array Event

/-- The word for whether something changed. -/
def changeWord (changed : Bool) : String := if changed then "changed" else "unchanged"

namespace FuncEvent

/-- How closely one has to look. -/
def level : FuncEvent → Level
  | phiReplaced .. | instHoisted .. | intervalComputed .. => .trace
  | _ => .debug

/-- The wording. -/
def text : FuncEvent → String
  | phiReplaced phi same => s!"replaced trivial phi {phi} by {same}"
  | sealedAtFinish b => s!"sealing {b} at finish"
  | constantsFolded n m => s!"folded {n} instructions and {m} phis"
  | branchFolded b t => s!"folded branch in {b} to {t}"
  | blocksRemoved n => s!"removed {n} unreachable blocks"
  | preheaderInserted p h n => s!"inserted preheader {p} for loop {h} ({n} entering edges)"
  | instHoisted i b p => s!"hoisted {i} from {b} to {p}"
  | instsHoisted n => s!"hoisted {n} instructions"
  | passRan p c => s!"{p} {changeWord c}"
  | fixpointReached n => s!"fixpoint after {n} iterations"
  | stillChanging n => s!"still changing after {n} iterations"
  | optimized c b i => s!"optimized ({changeWord c}), {b} blocks, {i} instructions"
  | intervalComputed li => li.text

end FuncEvent

namespace Event

/-- How closely one has to look. -/
def level : Event → Level
  | inFunction _ e => e.level
  | _ => .debug

/-- The wording. -/
def text : Event → String
  | inFunction name e => s!"{name}: {e.text}"
  | simplified i spill v d w =>
    let kind := if spill then "spill candidate" else "trivial"
    s!"simplify #{i}: {kind} {v} (degree {d}, weight {w})"
  | assigned v r => s!"assign {v} -> {r}"
  | evicted v r winner => s!"evict {v} from {r} for {winner}"
  | spilled v s n => s!"spill {v} to {s} ({n} products)"
  | allocated n m => s!"allocated {n} registers, {m} spills"

instance : ToString Event := ⟨fun e => s!"{e.level} {e.text}"⟩

end Event

end SsaBackend
