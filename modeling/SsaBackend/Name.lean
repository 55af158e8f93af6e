/-!
# Handles

Blocks, instructions, variables and registers are named by small numbers. Each kind of
thing has a handle type of its own, so that a block is never taken for an instruction, and
each handle has one written form, which is how it appears in listings, messages and events.
-/

namespace SsaBackend

/-! ## Handles into a function -/

/-- A basic block of a function. -/
structure BlockId where
  index : Nat
  deriving DecidableEq, Repr, Inhabited

/-- An instruction of a function, and the value it computes. -/
structure InstId where
  index : Nat
  deriving DecidableEq, Repr, Inhabited

/-- A source-level variable, as the front end numbers it. -/
structure Variable where
  index : Nat
  deriving DecidableEq, Repr, Inhabited

/-- Blocks are told apart by their numbers. -/
theorem BlockId.index_inj {a b : BlockId} : a.index = b.index ↔ a = b := by
  cases a
  cases b
  simp

/-- Instructions are told apart by their numbers. -/
theorem InstId.index_inj {a b : InstId} : a.index = b.index ↔ a = b := by
  cases a
  cases b
  simp

instance : ToString BlockId := ⟨fun b => s!"bb{b.index}"⟩

instance : ToString InstId := ⟨fun i => s!"%{i.index}"⟩

instance : ToString Variable := ⟨fun v => s!"var{v.index}"⟩

/-! ## Registers and stack slots -/

/-- A virtual register: one value of a function, or a piece of a spilled one. -/
structure VirtReg where
  index : Nat
  deriving DecidableEq, Repr, Inhabited

/-- A physical register, by its hardware number. -/
structure PhysReg where
  index : Nat
  deriving DecidableEq, Repr, Inhabited

/-- A stack slot that holds a spilled value. -/
structure SpillSlot where
  index : Nat
  deriving DecidableEq, Repr, Inhabited

/-- Virtual registers are told apart by their numbers. -/
theorem VirtReg.index_inj {a b : VirtReg} : a.index = b.index ↔ a = b := by
  cases a
  cases b
  simp

/-- Physical registers are told apart by their numbers. -/
theorem PhysReg.index_inj {a b : PhysReg} : a.index = b.index ↔ a = b := by
  cases a
  cases b
  simp

instance : ToString VirtReg := ⟨fun v => s!"v{v.index}"⟩

instance : ToString PhysReg := ⟨fun r => s!"r{r.index}"⟩

instance : ToString SpillSlot := ⟨fun s => s!"ss{s.index}"⟩

/-! ## Nodes of a graph -/

/-- A node of a directed graph. The graph algorithms work on the bare numbers; the handle
carries the two written forms. -/
structure NodeId where
  index : Nat
  deriving DecidableEq, Repr, Inhabited

instance : ToString NodeId := ⟨fun n => s!"n{n.index}"⟩

/-- The long form of a node's name, which says what kind of handle it is. -/
def NodeId.describe (n : NodeId) : String := s!"NodeId({n.index})"

end SsaBackend
