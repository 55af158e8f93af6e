import SsaBackend.Proofs.Func.Framed
import SsaBackend.Proofs.Graph.Dominators

/-!
# Uses that are dominated where the entry leads

`Func.Reads` says where in a function an operand is read: at an instruction, at the end of a
block, or for an operand of a phi at the end of the predecessor it comes from. Blocks that the
entry does not reach are never run, and what they read is of no concern;
`Func.DominatedWhereReached` asks of every other read that the definition dominates it.

Where all blocks are reached this is strict form (`Func.DominatedWhereReached.usesDominated`),
and then every operand names an instruction that is there; with the tables in order that is
`Func.Tidy`, and `Func.Clean` if the entry has no predecessors.
-/

namespace SsaBackend

namespace Func

/-- The operand `v` is read in block `b`, when the instructions `before` of it have run. -/
inductive Reads (f : Func) (v : Value) : BlockId → List InstId → Prop
  | inBody {b : BlockId} {bb : Block} {before after : List InstId} {i : InstId} {p : PlacedInst}
    (block : f.block? b = some bb) (place : bb.body = before ++ i :: after)
    (inst : f.inst? i = some p) (operand : v ∈ p.inst.operands) : Reads f v b (bb.phis ++ before)
  | atEnd {b : BlockId} {bb : Block} {t : Terminator} (block : f.block? b = some bb)
    (ends : bb.terminator = some t) (operand : v ∈ t.operands) : Reads f v b bb.insts
  | inPhi {b p : BlockId} {bb pp : Block} {i : InstId} {node : Phi}
    (block : f.block? b = some bb) (listed : i ∈ bb.phis) (phi : f.phi? i = some node)
    (pred : f.block? p = some pp) (edge : b ∈ f.succs p) (operand : node.incoming? p = some v) :
    Reads f v p pp.insts

/-- Every use in a block that the entry reaches is dominated by its definition. -/
structure DominatedWhereReached (f : Func) : Prop where
  /-- A definition is one place: appending and moving list an instruction once. -/
  once : ∀ b bb, f.block? b = some bb → f.Reached b → bb.body.Nodup
  reads : ∀ b before i, f.Reads (.inst i) b before → f.Reached b → f.Available b before i

/-- Every block is reached. -/
def AllReached (f : Func) : Prop := ∀ b bb, f.block? b = some bb → f.Reached b

/-- Where every block is found to be reached, all are. -/
lemma allReached_of_check {f : Func} (hg : f.cfg.Consistent)
    (h : f.liveBlocks.all (fun e => f.cfg.domTree.isReachable e.1.index) = true) :
    f.AllReached := by
  intro b bb hb
  exact (Digraph.domTree_isReachable hg _).1 (List.all_eq_true.1 h (b, bb) (mem_liveBlocks.2 hb))

/-! ## Places -/

/-- What has run at some place of a block is a front part of its instructions. -/
lemma Reads.place {f : Func} {v : Value} {b : BlockId} {before : List InstId}
    (h : f.Reads v b before) : ∃ bb, f.block? b = some bb ∧ before <+: bb.insts := by
  cases h with
  | inBody hb hsplit _ _ =>
    refine ⟨_, hb, ?_⟩
    unfold Block.insts
    rw [hsplit, ← List.append_assoc]
    exact List.prefix_append ..
  | atEnd hb _ _ => exact ⟨_, hb, List.prefix_rfl⟩
  | inPhi _ _ _ hp _ _ => exact ⟨_, hp, List.prefix_rfl⟩

/-- What has run at some place of a block is listed in it. -/
lemma lists_of_place {f : Func} {b : BlockId} {before : List InstId}
    (h : ∃ bb, f.block? b = some bb ∧ before <+: bb.insts) {i : InstId} (hi : i ∈ before) :
    f.Lists b i := by
  obtain ⟨bb, hb, hpre⟩ := h
  exact ⟨bb, hb, hpre.subset hi⟩

/-- An instruction that is available somewhere is listed above. -/
lemma Available.exists_above {f : Func} {b : BlockId} {before : List InstId} {i : InstId}
    (h : f.Available b before i) (hplace : ∃ bb, f.block? b = some bb ∧ before <+: bb.insts) :
    ∃ d, f.Lists d i ∧ f.Dom d b ∧ (d ≠ b ∨ d = b ∧ i ∈ before) := by
  rcases h with hi | ⟨d, hne, hdom, hlist⟩
  · exact ⟨b, lists_of_place hplace hi, Dominates.refl _, .inr ⟨rfl, hi⟩⟩
  · exact ⟨d, hlist, hdom, .inl hne⟩

/-- What is available at one place is available at every place below. -/
lemma Available.below {f : Func} {d b : BlockId} {above before : List InstId} {j : InstId}
    (h : f.Available d above j) (hl : ∀ x ∈ above, f.Lists d x) (hdom : f.Dom d b)
    (hbelow : d ≠ b ∨ d = b ∧ above ⊆ before) (hreach : f.Reached b) :
    f.Available b before j := by
  rcases hbelow with hne | ⟨rfl, hsub⟩
  · rcases h with hj | ⟨c, -, hcd, hlist⟩
    · exact .inr ⟨d, hne, hdom, hl j hj⟩
    · refine .inr ⟨c, ?_, hcd.trans hdom, hlist⟩
      rintro rfl
      -- two blocks that dominate each other are one
      exact hne (BlockId.index_inj.1 (Dominates.antisymm hdom hcd (hdom.reaches hreach)))
  · rcases h with hj | hj
    · exact .inl (hsub hj)
    · exact .inr hj

/-! ## Strict form -/

lemma UsesDominated.whereReached {f : Func} (h : f.UsesDominated) : f.DominatedWhereReached := by
  refine ⟨fun b bb hb _ => h.once b bb hb, ?_⟩
  intro b before i hread _
  cases hread with
  | inBody hb hsplit hp hmem => exact h.inBody _ _ hb _ _ _ hsplit _ hp i hmem
  | atEnd hb ht hmem => exact h.atEnd _ _ hb _ ht i hmem
  | inPhi hb hi hnode hp hedge hin => exact h.inPhi _ _ hb _ hi _ hnode _ _ hp hedge i hin

lemma DominatedWhereReached.usesDominated {f : Func} (h : f.DominatedWhereReached)
    (hall : f.AllReached) : f.UsesDominated := by
  refine ⟨fun b bb hb => h.once b bb hb (hall b bb hb), ?_, ?_, ?_⟩
  · intro b bb hb before i after hsplit p hp j hj
    exact h.reads _ _ _ (.inBody hb hsplit hp hj) (hall b bb hb)
  · intro b bb hb t ht j hj
    exact h.reads _ _ _ (.atEnd hb ht hj) (hall b bb hb)
  · intro b bb hb i hi node hnode p pp hp hedge j hj
    exact h.reads _ _ _ (.inPhi hb hi hnode hp hedge hj) (hall p pp hp)

/-- Every operand of a block is read somewhere. -/
lemma reads_of_operand {f : Func} (hf : f.Wired) (ht : f.Tight) {b : BlockId} {bb : Block}
    (hb : f.block? b = some bb) {v : Value} (hv : v ∈ f.blockOperands bb) :
    ∃ c before, f.Reads v c before := by
  rcases mem_blockOperands.1 hv with ⟨i, hi, p, hp, hmem⟩ | ⟨t, ht, hmem⟩
  · rcases List.mem_append.1 hi with hi | hi
    · -- an operand of a phi comes from a predecessor, and that has an edge
      obtain ⟨node, hnode, hperm⟩ := hf.phis b bb hb i hi
      rw [hp] at hnode
      cases hnode
      obtain ⟨op, hop, rfl⟩ := List.mem_map.1 hmem
      have hpred : op.block ∈ bb.preds := hperm.mem_iff.1 (List.mem_map_of_mem hop)
      have hin := Phi.incoming?_of_mem (hperm.nodup_iff.2 (hf.predsOnce b bb hb)) hop
      have hedge : b ∈ f.succs op.block := by
        apply ht.edges
        rwa [preds_of_block hb]
      obtain ⟨pp, hpp⟩ := exists_block_of_succ hedge
      exact ⟨_, _, .inPhi hb hi (phi?_of_inst hp) hpp hedge hin⟩
    · obtain ⟨before, after, hsplit⟩ := List.append_of_mem hi
      exact ⟨_, _, .inBody hb hsplit hp hmem⟩
  · exact ⟨_, _, .atEnd hb ht hmem⟩

/-- Where all blocks are reached, operands name instructions that are there. -/
lemma DominatedWhereReached.operandsKnown {f : Func} (h : f.DominatedWhereReached) (hf : f.Wired)
    (ht : f.Tight) (hall : f.AllReached) (hargs : f.ArgsKnown) : f.OperandsKnown := by
  intro b bb hb v hv
  cases v with
  | inst i =>
    obtain ⟨c, before, hread⟩ := reads_of_operand hf ht hb hv
    obtain ⟨cc, hc, -⟩ := hread.place
    obtain ⟨d, hlist, -⟩ := (h.reads c before i hread (hall c cc hc)).exists_above hread.place
    obtain ⟨p, hp, -⟩ := hf.block_of_lists hlist
    exact ⟨p, hp⟩
  | arg n => exact hargs b bb hb n hv
  | const c => trivial
  | undef => trivial

/-- A function without loose ends, all of whose blocks are reached and all of whose uses are
dominated. -/
structure Tidy (f : Func) : Prop where
  wired : f.Wired
  tight : f.Tight
  reached : f.AllReached
  dominated : f.DominatedWhereReached
  args : f.ArgsKnown

namespace Tidy

variable {f : Func}

lemma operands (h : f.Tidy) : f.OperandsKnown :=
  h.dominated.operandsKnown h.wired h.tight h.reached h.args

lemma verify (h : f.Tidy) : f.verify = .ok () := verify_of_wired h.wired h.tight h.operands

lemma verified (h : f.Tidy) : f.Verified := verified_of_verify h.verify

lemma consistent (h : f.Tidy) : f.cfg.Consistent := h.wired.consistent h.tight

lemma strict (h : f.Tidy) : f.Strict :=
  h.verified.strict (h.dominated.usesDominated h.reached)

/-- A predecessor is reached. -/
lemma reached_pred (h : f.Tidy) {b p : BlockId} (hp : p ∈ f.preds b) : f.Reached p := by
  obtain ⟨pp, hpp⟩ := exists_block_of_succ (h.tight.edges p b hp)
  exact h.reached p pp hpp

end Tidy

/-- A tidy function whose entry has no predecessors: what dead blocks leave behind, and what the
passes on loops keep. -/
structure Clean (f : Func) : Prop where
  framed : f.Framed
  tight : f.Tight
  reached : f.AllReached
  dominated : f.DominatedWhereReached
  args : f.ArgsKnown

namespace Clean

variable {f : Func}

lemma tidy (h : f.Clean) : f.Tidy := ⟨h.framed.toWired, h.tight, h.reached, h.dominated, h.args⟩

lemma operands (h : f.Clean) : f.OperandsKnown := h.tidy.operands

lemma verified (h : f.Clean) : f.Verified := h.tidy.verified

lemma consistent (h : f.Clean) : f.cfg.Consistent := h.tidy.consistent

lemma strict (h : f.Clean) : f.Strict := h.tidy.strict

end Clean

end Func

end SsaBackend
