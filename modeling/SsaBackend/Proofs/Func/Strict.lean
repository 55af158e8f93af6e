import SsaBackend.Proofs.Execution
import SsaBackend.Proofs.Func.Verified

/-!
# Strict static single assignment

A function is in strict form if every instruction is defined once and every use is dominated by
its definition. Within a block that means an earlier place in the list; across blocks it means
that every path from the entry to the block of the use passes the block of the definition. A
phi uses an operand at the end of the predecessor it comes from.
-/

namespace SsaBackend

namespace Func

/-- Every path from the entry to `b` passes `d`. -/
abbrev Dom (f : Func) (d b : BlockId) : Prop := f.cfg.Dom d.index b.index

/-- The entry leads to `b`. -/
abbrev Reached (f : Func) (b : BlockId) : Prop := f.cfg.Reached b.index

/-- The block lists the instruction. -/
def Lists (f : Func) (b : BlockId) (i : InstId) : Prop := ∃ bb, f.block? b = some bb ∧ i ∈ bb.insts

/-- The definition of `i` dominates the place of block `b` that comes after the instructions
`before` of it. -/
def Available (f : Func) (b : BlockId) (before : List InstId) (i : InstId) : Prop :=
  i ∈ before ∨ ∃ d, d ≠ b ∧ f.Dom d b ∧ f.Lists d i

/-- What comes before a place of a block is listed in the block. -/
lemma lists_before {f : Func} {b : BlockId} {bb : Block} (hb : f.block? b = some bb)
    {before after : List InstId} {i j : InstId} (hsplit : bb.body = before ++ i :: after)
    (hj : j ∈ bb.phis ++ before) : f.Lists b j := by
  refine ⟨bb, hb, ?_⟩
  unfold Block.insts
  rw [hsplit]
  rcases List.mem_append.1 hj with hj | hj
  · exact List.mem_append_left _ hj
  · exact List.mem_append_right _ (List.mem_append_left _ hj)

/-- Every instruction is defined once, and every use is dominated by its definition. -/
structure UsesDominated (f : Func) : Prop where
  /-- A definition is one place: appending and moving list an instruction once. -/
  once : ∀ b bb, f.block? b = some bb → bb.body.Nodup
  inBody : ∀ b bb, f.block? b = some bb → ∀ before i after, bb.body = before ++ i :: after →
    ∀ p, f.inst? i = some p → ∀ j, Value.inst j ∈ p.inst.operands →
      f.Available b (bb.phis ++ before) j
  atEnd : ∀ b bb, f.block? b = some bb → ∀ t, bb.terminator = some t →
    ∀ j, Value.inst j ∈ t.operands → f.Available b bb.insts j
  inPhi : ∀ b bb, f.block? b = some bb → ∀ i ∈ bb.phis, ∀ node, f.phi? i = some node →
    ∀ p pp, f.block? p = some pp → b ∈ f.succs p → ∀ j, node.incoming? p = some (.inst j) →
      f.Available p pp.insts j

/-- A function in strict form whose blocks list the instructions that belong to them. -/
structure Strict (f : Func) : Prop extends UsesDominated f where
  phis : ∀ b bb, f.block? b = some bb → ∀ i ∈ bb.phis, ∃ node, f.inst? i = some ⟨.phi node, b⟩
  body : ∀ b bb, f.block? b = some bb → ∀ i ∈ bb.body, ∃ p, f.inst? i = some p ∧ p.block = b ∧
    p.inst.isPhi = false

lemma Verified.strict {f : Func} (h : f.Verified) (hu : f.UsesDominated) : f.Strict := by
  refine ⟨hu, ?_, h.body⟩
  intro b bb hb i hi
  obtain ⟨node, hnode, -⟩ := h.phis b bb hb i hi
  exact ⟨node, hnode⟩

/-- An instruction belongs to the block that lists it. -/
lemma Strict.block_of_lists {f : Func} (h : f.Strict) {b : BlockId} {i : InstId}
    (hi : f.Lists b i) : ∃ p, f.inst? i = some p ∧ p.block = b := by
  obtain ⟨bb, hb, hi⟩ := hi
  rcases List.mem_append.1 hi with hi | hi
  · obtain ⟨node, hnode⟩ := h.phis b bb hb i hi
    exact ⟨_, hnode, rfl⟩
  · obtain ⟨p, hp, hblock, -⟩ := h.body b bb hb i hi
    exact ⟨p, hp, hblock⟩

/-- No two blocks list one instruction. -/
lemma Strict.lists_unique {f : Func} (h : f.Strict) {b c : BlockId} {i : InstId}
    (hb : f.Lists b i) (hc : f.Lists c i) : b = c := by
  obtain ⟨p, hp, hpb⟩ := h.block_of_lists hb
  obtain ⟨q, hq, hqc⟩ := h.block_of_lists hc
  rw [hp] at hq
  cases hq
  rw [← hpb, hqc]

end Func

end SsaBackend
