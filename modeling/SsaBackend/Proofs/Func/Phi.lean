import Mathlib.Data.List.Nodup
import Mathlib.Data.List.Perm.Subperm
import Mathlib.Tactic.Common
import SsaBackend.Phi

/-!
# Operands of phis

Which blocks the operands of a phi come from, and what flows in from each of them, after every
change of the operands. A phi of a block is complete if its operands come from the predecessors
of the block, one from each.
-/

namespace SsaBackend

namespace Phi

/-- The blocks that the operands of a phi come from. -/
def blocks (node : Phi) : List BlockId := node.operands.map (·.block)

/-! ## What flows in -/

/-- The value that flows in from a block is an operand from there. -/
lemma incoming?_some {node : Phi} {p : BlockId} {v : Value} (h : node.incoming? p = some v) :
    ∃ op ∈ node.operands, op.block = p ∧ op.value = v := by
  obtain ⟨op, hop, rfl⟩ := Option.map_eq_some_iff.1 h
  exact ⟨op, List.mem_of_find?_eq_some hop, by simpa using List.find?_some hop, rfl⟩

/-- What flows in is one of the values. -/
lemma mem_values_of_incoming? {node : Phi} {p : BlockId} {v : Value}
    (h : node.incoming? p = some v) : v ∈ node.values := by
  obtain ⟨op, hop, -, rfl⟩ := incoming?_some h
  exact List.mem_map_of_mem hop

/-- Something flows in from the blocks that operands come from, and from no others. -/
lemma isSome_incoming? {node : Phi} {p : BlockId} :
    (node.incoming? p).isSome = true ↔ p ∈ node.blocks := by
  unfold incoming? blocks
  rw [Option.isSome_map, List.find?_isSome, List.mem_map]
  simp

lemma exists_incoming? {node : Phi} {p : BlockId} (h : p ∈ node.blocks) :
    ∃ v, node.incoming? p = some v :=
  Option.isSome_iff_exists.1 (isSome_incoming?.2 h)

/-- Where every block has one operand, the operands are what flows in. -/
lemma incoming?_of_mem {node : Phi} (hnodup : node.blocks.Nodup) {op : PhiOperand}
    (h : op ∈ node.operands) : node.incoming? op.block = some op.value := by
  obtain ⟨v, hv⟩ := exists_incoming? (List.mem_map_of_mem (f := PhiOperand.block) h)
  obtain ⟨op', hop', hblock, rfl⟩ := incoming?_some hv
  rw [hv, List.inj_on_of_nodup_map hnodup hop' h hblock]

/-! ## Changing values -/

@[simp] lemma blocks_mapValues (g : Value → Value) (node : Phi) :
    (node.mapValues g).blocks = node.blocks := by
  simp [blocks, mapValues]

@[simp] lemma incoming?_mapValues (g : Value → Value) (node : Phi) (p : BlockId) :
    (node.mapValues g).incoming? p = (node.incoming? p).map g := by
  unfold incoming? mapValues
  simp [List.find?_map, Function.comp_def]

/-- Values that stay what they are leave the phi as it is. -/
lemma mapValues_eq_self {g : Value → Value} {node : Phi} (h : ∀ v ∈ node.values, g v = v) :
    node.mapValues g = node := by
  unfold mapValues
  congr 1
  refine (List.map_congr_left fun op hop => ?_).trans (List.map_id _)
  simp only [h op.value (List.mem_map_of_mem hop), id]

/-! ## Setting operands -/

lemma mem_setOperand {p : BlockId} {v : Value} {op : PhiOperand} {l : List PhiOperand}
    (h : op ∈ setOperand p v l) : op = ⟨p, v⟩ ∨ op ∈ l := by
  induction l with
  | nil => exact .inl (List.mem_singleton.1 h)
  | cons o rest ih =>
    rw [setOperand] at h
    split at h
    · rcases List.mem_cons.1 h with h | h
      · exact .inl h
      · exact .inr (List.mem_cons_of_mem _ h)
    · rcases List.mem_cons.1 h with h | h
      · exact .inr (h ▸ List.mem_cons_self)
      · rcases ih h with h | h
        · exact .inl h
        · exact .inr (List.mem_cons_of_mem _ h)

/-- Setting an operand adds its block to those that operands come from. -/
lemma mem_blocks_setIncoming {p q : BlockId} {v : Value} {node : Phi} :
    q ∈ (node.setIncoming p v).blocks ↔ q = p ∨ q ∈ node.blocks := by
  show q ∈ (setOperand p v node.operands).map (·.block) ↔ q = p ∨ q ∈ node.operands.map (·.block)
  induction node.operands with
  | nil => simp [setOperand]
  | cons o rest ih =>
    rw [setOperand]
    split
    · rename_i ho
      simp [ho]
    · rw [List.map_cons, List.mem_cons, ih, List.map_cons, List.mem_cons]
      tauto

/-- An operand from a new block comes last. -/
lemma operands_setIncoming {p : BlockId} {v : Value} {node : Phi} (h : p ∉ node.blocks) :
    (node.setIncoming p v).operands = node.operands ++ [⟨p, v⟩] := by
  show setOperand p v node.operands = _
  unfold blocks at h
  induction hops : node.operands generalizing node with
  | nil => rfl
  | cons o rest ih =>
    rw [hops, List.map_cons, List.mem_cons, not_or] at h
    rw [setOperand, if_neg (Ne.symm h.1), List.cons_append, @ih ⟨rest⟩ h.2 rfl]

lemma blocks_setIncoming {p : BlockId} {v : Value} {node : Phi} (h : p ∉ node.blocks) :
    (node.setIncoming p v).blocks = node.blocks ++ [p] := by
  unfold blocks
  rw [operands_setIncoming h, List.map_append]
  rfl

lemma incoming?_setIncoming {p : BlockId} {v : Value} {node : Phi} (h : p ∉ node.blocks)
    (q : BlockId) :
    (node.setIncoming p v).incoming? q = if q = p then some v else node.incoming? q := by
  unfold incoming?
  rw [operands_setIncoming h, List.find?_append]
  by_cases hq : q = p
  · subst hq
    have hnone : node.operands.find? (·.block = q) = none := by
      rw [List.find?_eq_none]
      intro op hop he
      exact h (List.mem_map.2 ⟨op, hop, by simpa using he⟩)
    simp [hnone]
  · simp [hq, Ne.symm hq]

/-- Setting an operand for a block that has one leaves the blocks alone. -/
lemma blocks_setIncoming_of_mem {p : BlockId} {v : Value} {node : Phi} (h : p ∈ node.blocks) :
    (node.setIncoming p v).blocks = node.blocks := by
  show (setOperand p v node.operands).map (·.block) = node.operands.map (·.block)
  unfold blocks at h
  generalize node.operands = ops at h
  induction ops with
  | nil => cases h
  | cons op rest ih =>
    rw [setOperand]
    split
    · rename_i hop
      rw [List.map_cons, List.map_cons, hop]
    · rename_i hop
      rw [List.map_cons, List.map_cons, ih ((List.mem_cons.1 h).resolve_left (Ne.symm hop))]

lemma nodup_setIncoming {node : Phi} (h : node.blocks.Nodup) (p : BlockId) (v : Value) :
    (node.setIncoming p v).blocks.Nodup := by
  by_cases hp : p ∈ node.blocks
  · rw [blocks_setIncoming_of_mem hp]
    exact h
  · rw [blocks_setIncoming hp]
    exact List.Nodup.append h (List.nodup_singleton p) (List.disjoint_singleton.2 hp)

/-! ## Dropping operands -/

lemma blocks_dropIncoming (p : BlockId) (node : Phi) :
    (node.dropIncoming p).blocks = node.blocks.erase p := by
  show (node.operands.eraseP (·.block = p)).map (·.block) = (node.operands.map (·.block)).erase p
  induction node.operands with
  | nil => rfl
  | cons o rest ih =>
    rw [List.eraseP_cons, List.map_cons, List.erase_cons]
    by_cases ho : o.block = p
    · simp [ho]
    · simp [ho, ih]

lemma incoming?_dropIncoming {p q : BlockId} (node : Phi) (hne : q ≠ p) :
    (node.dropIncoming p).incoming? q = node.incoming? q := by
  show ((node.operands.eraseP (·.block = p)).find? (·.block = q)).map _ = _
  unfold incoming?
  induction node.operands with
  | nil => rfl
  | cons o rest ih =>
    rw [List.eraseP_cons]
    by_cases ho : o.block = p
    · simp [ho, Ne.symm hne]
    · by_cases hoq : o.block = q
      · simp [hoq, hne]
      · simp only [ho, decide_false, cond_false]
        rw [List.find?_cons_of_neg (by simpa using hoq),
          List.find?_cons_of_neg (by simpa using hoq),
          ih]

lemma values_dropIncoming {p : BlockId} {node : Phi} {v : Value}
    (h : v ∈ (node.dropIncoming p).values) : v ∈ node.values := by
  obtain ⟨op, hop, rfl⟩ := List.mem_map.1 h
  exact List.mem_map_of_mem (List.mem_of_mem_eraseP hop)

lemma blocks_foldl_dropIncoming (l : List BlockId) (node : Phi) :
    (l.foldl dropIncoming node).blocks = node.blocks.diff l := by
  induction l generalizing node with
  | nil => simp
  | cons p rest ih => rw [List.foldl_cons, ih, blocks_dropIncoming, List.diff_cons]

lemma incoming?_foldl_dropIncoming {l : List BlockId} {q : BlockId} (node : Phi) (hq : q ∉ l) :
    (l.foldl dropIncoming node).incoming? q = node.incoming? q := by
  induction l generalizing node with
  | nil => rfl
  | cons p rest ih =>
    rw [List.mem_cons, not_or] at hq
    rw [List.foldl_cons, ih _ hq.2, incoming?_dropIncoming _ hq.1]

lemma values_foldl_dropIncoming {l : List BlockId} {node : Phi} {v : Value}
    (h : v ∈ (l.foldl dropIncoming node).values) : v ∈ node.values := by
  induction l generalizing node with
  | nil => exact h
  | cons p rest ih => exact values_dropIncoming (ih h)

end Phi

end SsaBackend
