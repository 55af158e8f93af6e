import SsaBackend.Pass.Schedule
import SsaBackend.Proofs.Func.Arena
import SsaBackend.Proofs.Pass.Endings

/-!
# Whatever is done to a function, its tables agree

A function is changed from outside by single edits and by passes (`Edit`), each of which may be
refused; a pass may start with any analyses, also with some that are stale, and may be refused in
the middle of its work. Nothing of that makes the tables disagree or brings back what was deleted
(`Edit.tables_agree`). Passes keep that step by step (`Pass.run_descends`): folding branches and
removing blocks are made of edits, and an insertion of a preheader gives its new phis one operand
for each of some predecessors of the header, which are listed once.
-/

namespace SsaBackend

open Func

/-! ## Operands of phis -/

namespace Phi

/-- The phi whose operands were set one after the other. -/
def ofIncoming (incoming : List PhiOperand) : Phi :=
  incoming.foldl (fun node op => node.setIncoming op.block op.value) .empty

lemma nodup_ofIncoming (incoming : List PhiOperand) : (ofIncoming incoming).blocks.Nodup := by
  unfold ofIncoming
  have hstart : Phi.empty.blocks.Nodup := List.nodup_nil
  generalize Phi.empty = node at hstart
  induction incoming generalizing node with
  | nil => exact hstart
  | cons op rest ih => exact ih _ (nodup_setIncoming hstart op.block op.value)

end Phi

/-! ## Passes -/

variable {f₀ : Func} {s : Session}

namespace ConstantOps

lemma descends_folded {f : Func} (h : Descends f₀ f) : Descends f₀ (folded f) :=
  (foldAll_kept (Descends f₀) (fun _ i v hg => hg.replaced i v) h).foldTrivialPhis _ _

end ConstantOps

namespace BranchFold

lemma descends_fold {f : Func} (h : Descends f₀ f) (c : Candidate) : Descends f₀ (fold f c).1 := by
  unfold fold
  dsimp only
  split
  · exact h.terminate ..
  · exact (h.terminate ..).removePred ..

end BranchFold

namespace Session

/-- However a search for loops ends, the function is the same. -/
lemma loops_ends (s : Session) :
    Session.loops.Ends s (fun _ s' => s'.func = s.func) fun s' => s'.func = s.func := by
  unfold Session.loops
  refine Work.Ends.get_bind (Work.Ends.ofExcept_bind (fun c _ => ?_) rfl)
  exact Work.Ends.modify_bind (Work.Ends.get_bind (Work.Ends.of_ofExcept (fun _ _ => rfl) rfl))

lemma compute_ends (s : Session) (wanted : Analyses) :
    (Session.compute wanted).Ends s (fun _ s' => s'.func = s.func) fun s' => s'.func = s.func := by
  unfold Session.compute
  exact Work.Ends.get_bind (Work.Ends.ofExcept_bind (fun _ _ => Work.Ends.of_modify rfl) rfl)

end Session

namespace Preheaders

variable {f : Func} {pre : BlockId} {outside : List BlockId}

lemma descends_reroute (h : Descends f₀ f) (header pre p : BlockId) :
    Descends f₀ (reroute header pre f p) := by
  unfold reroute
  refine Descends.addPred ?_ _ _
  exact h.modifyBlock p (fun _ _ => rfl) fun _ hn => hn

/-- What enters comes from some of the blocks outside, in their order. -/
lemma blocks_entering_sublist (node : Phi) (outside : List BlockId) :
    (⟨entering node outside⟩ : Phi).blocks.Sublist outside := by
  unfold entering Phi.blocks
  induction outside with
  | nil => exact .slnil
  | cons p rest ih =>
    rw [List.filterMap_cons]
    cases node.incoming? p with
    | none => exact ih.cons p
    | some v => exact ih.cons_cons p

/-- Adding a phi to a block is appending an instruction. -/
lemma descends_addPhi (h : Descends f₀ f) (hb : f.hasBlock pre = true) {node : Phi}
    (hnode : node.blocks.Nodup) : Descends f₀ (addPhi f pre node) := by
  obtain ⟨bb, hbb⟩ := Option.isSome_iff_exists.1 hb
  obtain ⟨g, hg, happended⟩ := appendInst_eq (.phi node) hbb
  have heq : g = addPhi f pre node := by
    unfold appendInst getBlock at hg
    rw [hbb] at hg
    cases hg
    rfl
  refine h.appended (heq ▸ happended) (blockCapacity_modifyBlock ..) hb fun n hn => ?_
  cases hn
  exact hnode

lemma descends_splitPhi (h : Descends f₀ f) (hpre : f.hasBlock pre = true) (hnd : outside.Nodup)
    (i : InstId) : Descends f₀ (splitPhi outside pre f i) := by
  have hemptied : Descends f₀ (f.modifyPhi i (outside.foldl Phi.dropIncoming ·)) := by
    refine h.modifyPhi i fun node hn => ?_
    rw [Phi.blocks_foldl_dropIncoming]
    exact hn.diff
  have hset : ∀ (g : Func) (v : Value), Descends f₀ g →
      Descends f₀ (g.modifyPhi i (·.setIncoming pre v)) :=
    fun g v hg => hg.modifyPhi i fun node hn => Phi.nodup_setIncoming hn pre v
  have hops : (⟨(f.phi? i).elim [] (entering · outside)⟩ : Phi).blocks.Nodup := by
    cases f.phi? i with
    | none => exact List.nodup_nil
    | some node => exact (blocks_entering_sublist node outside).nodup hnd
  unfold splitPhi
  dsimp only
  split
  · exact hemptied
  · split
    · exact hset _ _ hemptied
    · exact hset _ _ (descends_addPhi hemptied hpre hops)

lemma descends_attach {c : Candidate} (h : Descends f₀ f) (hpre : f.hasBlock pre = true)
    (hnd : c.outside.Nodup) : Descends f₀ (attach c pre f) := by
  unfold attach
  dsimp only
  refine Descends.addPred (Descends.terminate ?_ _ _) _ _
  have hstart : Descends f₀ (f.modifyBlock c.header fun b =>
      { b with preds := b.preds.filter (!c.outside.contains ·) }) :=
    h.modifyBlock c.header (fun _ _ => rfl) fun _ hn => hn.filter _
  have hlive : (f.modifyBlock c.header fun b =>
      { b with preds := b.preds.filter (!c.outside.contains ·) }).hasBlock pre = true :=
    (hasBlock_modifyBlock ..).trans hpre
  generalize f.modifyBlock c.header (fun b =>
    { b with preds := b.preds.filter (!c.outside.contains ·) }) = g at hstart hlive
  induction (f.block? c.header).elim [] (·.phis) generalizing g with
  | nil => exact hstart
  | cons i rest ih =>
    refine ih _ (descends_splitPhi hstart hlive hnd i) ?_
    exact ((sameShape_splitPhi c.outside pre g i).blocks pre).trans hlive

lemma insert_descends {c : Candidate} (h : Descends f₀ s.func) (hnd : c.outside.Nodup) :
    (insert c).Ends s (fun _ s' => Descends f₀ s'.func) fun s' => Descends f₀ s'.func := by
  unfold insert
  refine Work.Ends.get_bind (Work.Ends.modify_bind ?_)
  -- the new block is there while edges are led to it
  refine (Work.Ends.forM (fun _ s' => Descends f₀ s'.func ∧
    s'.func.hasBlock s.func.nextBlock = true) (fun p _ s' hs' => ?_) c.outside
    ⟨h.addBlock, ?_⟩).bind fun _ s' hs' => ?_
  · refine Work.Ends.get_bind (Work.Ends.ofExcept_bind (fun _ _ => Work.Ends.of_modify ?_) hs'.1)
    refine ⟨descends_reroute hs'.1 .., ?_⟩
    show (reroute _ _ _ _).hasBlock _ = true
    unfold reroute
    rw [hasBlock_modifyBlock, hasBlock_modifyBlock]
    exact hs'.2
  · show (s.func.addBlock.block? s.func.nextBlock).isSome = true
    rw [block?_addBlock, if_pos rfl]
    rfl
  · exact Work.Ends.modify_bind (Work.Ends.of_pure (descends_attach hs'.1 hs'.2 hnd))

/-- Candidates are predecessors of the header, listed once. -/
lemma nodup_outside {lf : LoopForest} {c : Candidate} (h : f.Arena)
    (hc : candidate? f lf = some c) : c.outside.Nodup := by
  have hpreds : ∀ b, (f.preds b).Nodup := by
    intro b
    unfold preds
    cases hb : f.block? b with
    | none => exact List.nodup_nil
    | some bb => exact h.predsOnce b bb hb
  unfold candidate? at hc
  obtain ⟨l, -, hl⟩ := List.exists_of_findSome?_eq_some hc
  dsimp only at hl
  split at hl
  · cases hl
    exact (hpreds _).filter _
  · cases hl

lemma insertAll_descends (bound : Nat) (h : Descends f₀ s.func) :
    (insertAll bound).Ends s (fun _ s' => Descends f₀ s'.func) fun s' => Descends f₀ s'.func := by
  induction bound generalizing s with
  | zero => exact Work.Ends.of_throw h
  | succ bound ih =>
    unfold insertAll
    refine ((Session.loops_ends s).mono (fun _ _ hs' => hs') fun s' hs' => hs' ▸ h).bind ?_
    intro lf s₁ hfunc
    have h₁ : Descends f₀ s₁.func := hfunc ▸ h
    refine Work.Ends.get_bind ?_
    split
    · exact Work.Ends.of_pure h₁
    · rename_i c hc
      refine (insert_descends h₁ (nodup_outside h₁.arena hc)).bind fun pre s₂ h₂ => ?_
      refine Work.Ends.modify_bind (Work.Ends.modify_bind ?_)
      exact (ih (s := { s₂ with cache := .empty, journal := _ }) h₂).bind
        fun _ _ h₃ => Work.Ends.of_pure h₃

end Preheaders

namespace Hoist

lemma hoistInst_descends (h : Descends f₀ s.func) (l : Loop) (pre b : BlockId) (count : Nat)
    (i : InstId) : (hoistInst l pre b count i).Ends s (fun _ s' => Descends f₀ s'.func)
      fun s' => Descends f₀ s'.func := by
  unfold hoistInst
  refine Work.Ends.get_bind ?_
  dsimp only
  split
  · refine Work.Ends.ofExcept_bind (fun g hmove => ?_) h
    exact Work.Ends.modify_bind (Work.Ends.modify_bind (Work.Ends.of_pure (h.moveInst hmove)))
  · exact Work.Ends.of_pure h

lemma run_descends (h : Descends f₀ s.func) :
    Hoist.run.Ends s (fun _ s' => Descends f₀ s'.func) fun s' => Descends f₀ s'.func := by
  unfold Hoist.run
  refine ((Session.compute_ends s _).mono (fun _ _ hs' => hs') fun s' hs' => hs' ▸ h).bind ?_
  intro _ s₁ hfunc
  have h₁ : Descends f₀ s₁.func := hfunc ▸ h
  refine Work.Ends.get_bind (Work.Ends.ofExcept_bind (fun dom _ => ?_) h₁)
  refine Work.Ends.ofExcept_bind (fun lf _ => ?_) h₁
  refine (Work.Ends.foldlM (fun _ _ (s' : Session) => Descends f₀ s'.func) ?_ _ 0 h₁).bind
    fun count s₂ h₂ => ?_
  · intro count l _ s₂ h₂
    unfold hoistLoop
    split
    · exact Work.Ends.of_throw h₂
    · refine Work.Ends.foldlM (fun _ _ (s' : Session) => Descends f₀ s'.func) ?_ _ count h₂
      intro count b _ s₃ h₃
      unfold hoistBlock
      refine Work.Ends.get_bind
        (Work.Ends.foldlM (fun _ _ (s' : Session) => Descends f₀ s'.func) ?_ _ count h₃)
      exact fun count i _ s₄ h₄ => hoistInst_descends h₄ ..
  · split
    · exact Work.Ends.modify_bind (Work.Ends.of_pure h₂)
    · exact Work.Ends.of_pure h₂

end Hoist

/-- However a pass ends, and whatever it was told of the function, the tables agree afterwards. -/
lemma Pass.run_descends (p : Pass) (h : Descends f₀ s.func) :
    p.run.Ends s (fun _ s' => Descends f₀ s'.func) fun s' => Descends f₀ s'.func := by
  cases p with
  | constantOps =>
    refine (ConstantOps.run_ends s).mono (fun _ s' hs' => ?_) fun s' hs' => ?_
    · rw [hs'.2.1]
      exact ConstantOps.descends_folded h
    · rw [hs']
      exact h
  | branchFold =>
    show BranchFold.run.Ends s _ _
    unfold BranchFold.run
    refine Work.Ends.get_bind ((Work.Ends.forM (fun _ s' => Descends f₀ s'.func)
      (fun c _ s' hs' => ?_) _ h).bind fun _ _ hs' => Work.Ends.of_pure hs')
    exact Work.Ends.get_bind (Work.Ends.modify_bind
      (Work.Ends.of_modify (BranchFold.descends_fold hs' c)))
  | deadBlocks =>
    show DeadBlocks.run.Ends s _ _
    unfold DeadBlocks.run
    refine Work.Ends.get_bind (Work.Ends.ofExcept_bind (fun live _ => ?_) h)
    refine (Work.Ends.forM (fun _ s' => Descends f₀ s'.func) (fun b _ s' hs' => ?_) _ h).bind
      fun _ s' hs' => ?_
    · exact Work.Ends.get_bind (Work.Ends.ofExcept_bind
        (fun r hr => Work.Ends.of_modify (hs'.removeBlock b hr)) hs')
    · split
      · exact Work.Ends.modify_bind (Work.Ends.of_pure hs')
      · exact Work.Ends.of_pure hs'
  | preheaders =>
    show Preheaders.run.Ends s _ _
    unfold Preheaders.run
    exact Work.Ends.get_bind ((Preheaders.insertAll_descends _ h).bind
      fun _ _ hs' => Work.Ends.of_pure hs')
  | hoist => exact Hoist.run_descends h

/-! ## Edits -/

/-- What can be done to a function from outside. A phi that is added brings operands that were set
one after the other, and a pass some analyses. -/
inductive Edit where
  | addBlock
  | appendInst (b : BlockId) (inst : Inst) (plain : inst.isPhi = false)
  | appendPhi (b : BlockId) (incoming : List PhiOperand)
  | createPhi (b : BlockId)
  | setPhiIncoming (i : InstId) (pred : BlockId) (value : Value)
  | removeInst (i : InstId)
  | moveInst (i : InstId) (b : BlockId)
  | replaceUses (old : InstId) (new : Value)
  | setTerminator (b : BlockId) (t : Terminator)
  | replaceTerminator (b : BlockId) (t : Terminator)
  | addPred (b pred : BlockId)
  | removePred (b pred : BlockId)
  | removeBlock (b : BlockId)
  | pass (p : Pass) (known : Cache)

namespace Edit

/-- The answer to an edit, or the function as it was if the edit is refused. -/
def orElse {α : Type} (f : Func) (get : α → Func) : Except Error α → Func
  | .ok a => get a
  | .error _ => f

/-- What an edit leaves behind. A pass that is refused leaves what it did until then. -/
def apply (f : Func) : Edit → Func
  | addBlock => f.addBlock
  | appendInst b inst _ => orElse f (·.2) (f.appendInst b inst)
  | appendPhi b incoming => orElse f (·.2) (f.appendInst b (.phi (.ofIncoming incoming)))
  | createPhi b => orElse f (·.2) (f.createPhi b)
  | setPhiIncoming i pred value => orElse f id (f.setPhiIncoming i pred value)
  | removeInst i => f.removeInst i
  | moveInst i b => orElse f id (f.moveInst i b)
  | replaceUses old new => f.replaceUses old new
  | setTerminator b t => orElse f id (f.setTerminator b t)
  | replaceTerminator b t => orElse f id (f.replaceTerminator b t)
  | addPred b pred => orElse f id (f.addPred b pred)
  | removePred b pred => (f.removePred b pred).1
  | removeBlock b => orElse f (·.1) (f.removeBlock b)
  | pass p known => (p.run.state ⟨f, known, #[]⟩).func

/-- The function after several edits. -/
def applyAll (f : Func) (edits : List Edit) : Func := edits.foldl apply f

variable {f : Func}

lemma descends_orElse {α : Type} {get : α → Func} {r : Except Error α} (h : Descends f₀ f)
    (hok : ∀ a, r = .ok a → Descends f₀ (get a)) : Descends f₀ (orElse f get r) := by
  cases r with
  | ok a => exact hok a rfl
  | error e => exact h

/-- Every edit keeps the tables in agreement and lets nothing come back. -/
lemma descends_apply (h : Descends f₀ f) (e : Edit) : Descends f₀ (e.apply f) := by
  cases e with
  | addBlock => exact h.addBlock
  | appendInst b inst plain =>
    refine descends_orElse h fun r hr => h.appendInst hr fun node hnode => ?_
    rw [Inst.isPhi, hnode] at plain
    cases plain
  | appendPhi b incoming =>
    refine descends_orElse h fun r hr => h.appendInst hr fun node hnode => ?_
    cases hnode
    exact Phi.nodup_ofIncoming incoming
  | createPhi b =>
    refine descends_orElse h fun r hr => h.appendInst hr fun node hnode => ?_
    cases hnode
    exact List.nodup_nil
  | setPhiIncoming i pred value => exact descends_orElse h fun g hg => h.setPhiIncoming hg
  | removeInst i => exact h.removeInst i
  | moveInst i b => exact descends_orElse h fun g hg => h.moveInst hg
  | replaceUses old new => exact h.mapOperands _
  | setTerminator b t => exact descends_orElse h fun g hg => h.setTerminator hg
  | replaceTerminator b t =>
    refine descends_orElse h fun g hg => ?_
    obtain ⟨_, -, hg⟩ := except_bind_ok.1 hg
    cases hg
    exact h.terminate b t
  | addPred b pred =>
    refine descends_orElse h fun g hg => ?_
    obtain ⟨_, -, hg⟩ := except_bind_ok.1 hg
    cases hg
    exact h.addPred b pred
  | removePred b pred => exact h.removePred b pred
  | removeBlock b => exact descends_orElse h fun r hr => h.removeBlock b hr
  | pass p known =>
    exact (p.run_descends (s := ⟨f, known, #[]⟩) h).state (P := fun s' => Descends f₀ s'.func)
      (fun _ _ hs' => hs') fun _ hs' => hs'

lemma descends_applyAll (h : Descends f₀ f) (edits : List Edit) :
    Descends f₀ (applyAll f edits) := by
  induction edits generalizing f with
  | nil => exact h
  | cons e rest ih => exact ih (descends_apply h e)

/-- After any edits of a new function its tables agree, and what is deleted then stays deleted
whatever edits come later. -/
theorem tables_agree (name : String) (numArgs : Nat) (edits later : List Edit) :
    (applyAll (Func.new name numArgs) edits).Arena ∧
      (∀ b, (applyAll (Func.new name numArgs) edits).BlockGone b →
        (applyAll (Func.new name numArgs) (edits ++ later)).BlockGone b) ∧
      ∀ i, (applyAll (Func.new name numArgs) edits).Gone i →
        (applyAll (Func.new name numArgs) (edits ++ later)).Gone i := by
  have hnow : (applyAll (Func.new name numArgs) edits).Arena :=
    (descends_applyAll (arena_new name numArgs).descends edits).arena
  have hthen := descends_applyAll hnow.descends later
  rw [show applyAll (applyAll (Func.new name numArgs) edits) later =
    applyAll (Func.new name numArgs) (edits ++ later) from List.foldl_append.symm] at hthen
  exact ⟨hnow, hthen.blocks, hthen.insts⟩

end Edit

end SsaBackend
