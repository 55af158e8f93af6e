import SsaBackend.Proofs.Build.Refused
import SsaBackend.Proofs.Build.Steady

/-!
# Which blocks are sealed

The sealed blocks are the entry and those that a call named, whether they were there or not. A seal
of a handle that names no block is not refused: the handle is marked (`Builder.MarksOnly`), and the
block that gets it later is sealed from the start and takes no edge. If every call names a block
that is there (`Builder.sealsBlocks`), only blocks are sealed, and a new block is open until a call
seals it.

## Main statements

- `Builder.Sound.played`: what a sequence of calls does to the blocks
- `Builder.sealed_blocks_were_named`: which blocks are sealed, and what that means for a new block
- `Builder.early_seal_closes_block`: a block that was sealed before it was made
-/

namespace SsaBackend

namespace Draft

variable {fair : Prop} {d : Draft} {c : BlockId}

/-- Where no phi that may be folded is trivial, folding leaves the draft as it is. -/
lemma foldPhis_of_settled {candidates : List InstId}
    (h : ∀ i ∈ candidates, i ∉ d.vars.guarded → ∀ node, d.func.phi? i = some node →
      node.trivial? i = none) :
    (foldPhis candidates).run d = .ok [] d := by
  have hfold : d.func.foldTrivialPhis candidates (!d.vars.guarded.contains ·) = (d.func, []) :=
    Func.foldTrivialPhis_of_settled fun i hi hmay => h i hi (by simpa using hmay)
  unfold foldPhis
  rw [Work.get_bind_run, hfold]
  show EStateM.Result.ok [] ({ d with journal := d.journal ++ ([] : List Event) } : Draft) = _
  simp

/-- A handle that names no block is marked when it is sealed, and no more happens. -/
lemma sealBlock_missing (h : d.Formed fair [] none) (hs : d.Settled []) (ha : d.func.Arena)
    (hc : d.func.hasBlock c = false) (hopen : d.vars.isSealed c = false) :
    d.vars.pendingAt c = [] ∧ (Draft.sealBlock c).run d =
      .ok () { d with vars := (d.vars.dropPending c).markSealed c } := by
  have hpending : d.vars.pendingAt c = [] := by
    refine List.eq_nil_iff_forall_not_mem.2 fun e he => ?_
    obtain ⟨-, -, -, cc, hcc, -⟩ := h.pending c e he
    rw [Func.hasBlock, hcc] at hc
    cases hc
  refine ⟨hpending, ?_⟩
  let marked : Draft := { d with vars := (d.vars.dropPending c).markSealed c }
  have hguarded : marked.vars.guarded = d.vars.guarded := by
    show ((d.vars.dropPending c).markSealed c).guarded = _
    rw [Bindings.markSealed_eq]
    rfl
  have hfold : (foldPhis ((marked.vars.valuesAt c).filterMap
      fun v => v.inst?.filter (marked.func.phi? · |>.isSome))).run marked = .ok [] marked := by
    refine foldPhis_of_settled fun i _ hfree node hnode => ?_
    -- a phi that is there is listed, and those that are listed are settled
    obtain ⟨e, he⟩ := Func.phi?_some hnode
    have hstands : d.func.standing i = some (e, true) := congrArg (Option.map _) he
    obtain ⟨ee, hee⟩ := Option.isSome_iff_exists.1 (ha.owned i e true hstands)
    have hlisted := (ha.listed e ee hee true i).2 hstands
    exact hs i (Func.mem_phiIds.2 ⟨e, ee, hee, hlisted⟩) (hguarded ▸ hfree) List.not_mem_nil
      node hnode
  unfold Draft.sealBlock
  rw [Work.get_bind_run, if_neg (Bool.eq_false_iff.1 hopen), hpending]
  show (foldPhis _ >>= fun _ => pure ()).run marked = _
  rw [EStateM.run_bind, hfold]
  rfl

end Draft

namespace Builder

variable {fair : Prop} {b b' b'' : Builder} {c : BlockId} {calls more : List Call}

/-! ## What calls do to the blocks -/

/-- The blocks that the calls name are sealed, and no other block is; none goes, and the tables of
the function go on agreeing. -/
structure Advances (b : Builder) (calls : List Call) (b' : Builder) : Prop where
  isSealed : ∀ k, b'.isSealed k = true ↔ b.isSealed k = true ∨ Call.sealBlock k ∈ calls
  hasBlock : ∀ k, b.func.hasBlock k = true → b'.func.hasBlock k = true
  descends : ∀ f, Func.Descends f b.func → Func.Descends f b'.func

namespace Advances

lemma refl (b : Builder) : b.Advances [] b :=
  ⟨fun _ => (or_iff_left List.not_mem_nil).symm, fun _ hk => hk, fun _ hf => hf⟩

lemma trans (h : b.Advances calls b') (h' : b'.Advances more b'') :
    b.Advances (calls ++ more) b'' where
  isSealed k := by rw [h'.isSealed, h.isSealed, List.mem_append, or_assoc]
  hasBlock k hk := h'.hasBlock k (h.hasBlock k hk)
  descends f hf := h'.descends f (h.descends f hf)

/-- A call that seals nothing. -/
lemma quiet {call : Call} (hcall : ∀ k, call ≠ .sealBlock k)
    (hsealed : ∀ k, b'.isSealed k = b.isSealed k)
    (hblock : ∀ k, b.func.hasBlock k = true → b'.func.hasBlock k = true)
    (hdescends : ∀ f, Func.Descends f b.func → Func.Descends f b'.func) :
    b.Advances [call] b' := by
  refine ⟨fun k => ?_, hblock, hdescends⟩
  rw [hsealed, List.mem_singleton, or_iff_left (hcall k).symm]

end Advances

namespace Sound

lemma advances (h : b.Sound fair) (call : Call) : call.make.Leaves b (b.Advances [call]) := by
  have hrefused : (∀ k, call ≠ .sealBlock k) → b.Advances [call] b :=
    fun hcall => .quiet hcall (fun _ => rfl) (fun _ hk => hk) fun _ hf => hf
  cases call with
  | createBlock =>
    refine Advances.quiet (by rintro k ⟨⟩) (fun _ => rfl) ?_ fun _ hf => hf.addBlock
    intro k hk
    obtain ⟨kk, hkk⟩ := Option.isSome_iff_exists.1 hk
    exact Option.isSome_iff_exists.2 ⟨kk, Func.block_addBlock hkk⟩
  | switchTo c =>
    refine Builder.switchTo_leaves (hrefused (by rintro k ⟨⟩)) fun _ => ?_
    exact .quiet (by rintro k ⟨⟩) (fun _ => rfl) (fun _ hk => hk) fun _ hf => hf
  | sealBlock c =>
    apply onDraft_leaves
    refine .of_yields (h.formed.sealBlock h.settled c).with_run ?_
    rintro _ d ⟨⟨-, -, -, hblocks, hsealed⟩, hrun⟩
    refine ⟨fun k => ?_, fun k hk => (hblocks k).trans hk,
      ((Draft.keepsSteady_sealBlock c).of_ok hrun).descends⟩
    rw [List.mem_singleton, Call.sealBlock.injEq, or_comm]
    exact hsealed k
  | define x v => exact .quiet (by rintro k ⟨⟩) (fun _ => rfl) (fun _ hk => hk) fun _ hf => hf
  | use x =>
    refine Work.Leaves.map (onDraft_leaves (x := Draft.read x b.current) ?_)
    refine .of_yields (h.formed.read h.settled (by rintro c ⟨⟩) h.current).with_run ?_
    rintro v d ⟨hd, hrun⟩
    exact .quiet (by rintro k ⟨⟩) hd.kept.isSealed (fun k hk => (hd.kept.hasBlock k).trans hk)
      ((Draft.keepsSteady_read x b.current).of_ok hrun).descends
  | emit inst hphi =>
    refine (Builder.emit_leaves (hrefused (by rintro k ⟨⟩)) fun i f hrun => ?_).map
    refine .quiet (by rintro k ⟨⟩) (fun _ => rfl) ?_ fun _ hf => hf.appendInst hrun ?_
    · exact fun k hk => ((Func.appendInst_ok hrun).2.2.hasBlock_eq k).trans hk
    · intro node hnode
      rw [Inst.isPhi, hnode] at hphi
      cases hphi
  | leave t =>
    refine Builder.terminate_leaves (hrefused (by rintro k ⟨⟩)) fun f hrun _ => ?_
    refine .quiet (by rintro k ⟨⟩) (fun _ => rfl) ?_ fun _ hf => hf.setTerminator hrun
    exact fun k hk => ((Func.setTerminator_ok hrun).hasBlock_eq k).trans hk

/-- What a sequence of calls does to the blocks. -/
lemma played (h : b.Sound fair) (hrun : calls.foldlM Builder.perform b = .ok b') :
    b.Advances calls b' := by
  induction calls generalizing b fair with
  | nil =>
    cases hrun
    exact .refl _
  | cons call rest ih =>
    rw [List.foldlM_cons] at hrun
    obtain ⟨b₁, hfirst, hrest⟩ := except_bind_ok.1 hrun
    exact (of_perform (h.advances call) hfirst).trans (ih (h.perform hfirst).1 hrest)

/-- In a state that can come about the tables of the function agree. -/
lemma arena_of_calls {name : String} {numArgs : Nat}
    (hcalls : calls.foldlM Builder.perform (.new name numArgs) = .ok b) : b.func.Arena :=
  (((Sound.new name numArgs).played hcalls).descends _
    (Func.arena_new name numArgs).descends).arena

end Sound

/-! ## Handles without a block -/

/-- A handle is marked as sealed, and all else is as it was. -/
structure MarksOnly (b : Builder) (c : BlockId) (b' : Builder) : Prop where
  func : b'.func = b.func
  current : b'.current = b.current
  journal : b'.draft.journal = b.draft.journal
  value? : ∀ x k, b'.draft.vars.value? x k = b.draft.vars.value? x k
  pendingAt : ∀ k, b'.draft.vars.pendingAt k = b.draft.vars.pendingAt k
  guarded : b'.draft.vars.guarded = b.draft.vars.guarded
  isSealed : ∀ k, b'.isSealed k = true ↔ k = c ∨ b.isSealed k = true

/-- To seal a handle that names no block marks it. -/
lemma Sound.sealBlock_missing (h : b.Sound fair) (ha : b.func.Arena)
    (hc : b.func.hasBlock c = false) :
    ∃ b', (Builder.sealBlock c).run b = .ok () b' ∧ b.MarksOnly c b' := by
  cases hsealed : b.isSealed c with
  | true =>
    have hrun : (Draft.sealBlock c).run b.draft = .ok () b.draft := by
      have hmarked : b.draft.vars.isSealed c = true := hsealed
      unfold Draft.sealBlock
      rw [Work.get_bind_run, if_pos hmarked]
      rfl
    refine ⟨b, ?_, rfl, rfl, rfl, fun _ _ => rfl, fun _ => rfl, rfl, fun k => ?_⟩
    · unfold Builder.sealBlock
      rw [Recording.onDraft_run, hrun]
    · exact (or_iff_right_of_imp fun hk => hk ▸ hsealed).symm
  | false =>
    obtain ⟨hpending, hrun⟩ := Draft.sealBlock_missing h.formed h.settled ha hc hsealed
    refine ⟨{ b with draft := { b.draft with vars := (b.draft.vars.dropPending c).markSealed c } },
      ?_, rfl, rfl, rfl, fun x k => Bindings.value?_markSealed, fun k => ?_, ?_, fun k => ?_⟩
    · unfold Builder.sealBlock
      rw [Recording.onDraft_run, hrun]
    · show ((b.draft.vars.dropPending c).markSealed c).pendingAt k = _
      rw [Bindings.pendingAt_markSealed, Bindings.pendingAt_dropPending]
      split
      · rename_i hk
        rw [hk, hpending]
      · rfl
    · show ((b.draft.vars.dropPending c).markSealed c).guarded = _
      rw [Bindings.markSealed_eq]
      rfl
    · exact Bindings.isSealed_markSealed

/-! ## Every state that can come about -/

/-- Whether the calls seal only blocks that are there by then. -/
def sealsBlocks (b : Builder) : List Call → Bool
  | [] => true
  | c :: rest =>
    (match c with
      | .sealBlock k => b.func.hasBlock k
      | _ => true) &&
      match b.perform c with
      | .ok b' => b'.sealsBlocks rest
      | .error _ => true

lemma sealsBlocks_cons {call : Call} {rest : List Call}
    (h : b.sealsBlocks (call :: rest) = true) :
    (∀ k, call = .sealBlock k → b.func.hasBlock k = true) ∧
      ∀ b', b.perform call = .ok b' → b'.sealsBlocks rest = true := by
  unfold sealsBlocks at h
  rw [Bool.and_eq_true] at h
  constructor
  · rintro k rfl
    exact h.1
  · intro b' hb'
    rw [hb'] at h
    exact h.2

/-- Where only blocks are sealed, and calls seal only blocks, only blocks are sealed. -/
lemma Sound.sealed_there (h : b.Sound fair)
    (hall : ∀ k, b.isSealed k = true → b.func.hasBlock k = true)
    (hseals : b.sealsBlocks calls = true) (hrun : calls.foldlM Builder.perform b = .ok b') :
    ∀ k, b'.isSealed k = true → b'.func.hasBlock k = true := by
  induction calls generalizing b fair with
  | nil =>
    cases hrun
    exact hall
  | cons call rest ih =>
    rw [List.foldlM_cons] at hrun
    obtain ⟨b₁, hfirst, hrest⟩ := except_bind_ok.1 hrun
    obtain ⟨hthere, hseals⟩ := sealsBlocks_cons hseals
    have hadv := of_perform (h.advances call) hfirst
    refine ih (h.perform hfirst).1 (fun k hk => hadv.hasBlock k ?_) (hseals b₁ hfirst) hrest
    rcases (hadv.isSealed k).1 hk with hk | hk
    · exact hall k hk
    · exact hthere k (List.mem_singleton.1 hk).symm

/-- A block that is made is there from then on, and sealed if its handle was, or is named later. -/
lemma Sound.made (h : b.Sound fair)
    (hrun : (Call.createBlock :: more).foldlM Builder.perform b = .ok b') :
    (∃ fair', b'.Sound fair') ∧ b'.func.hasBlock b.func.nextBlock = true ∧
      ∀ c, b'.isSealed c = true ↔ b.isSealed c = true ∨ Call.sealBlock c ∈ more := by
  rw [List.foldlM_cons] at hrun
  obtain ⟨b₁, hfirst, hrest⟩ := except_bind_ok.1 hrun
  have hsound₁ := (h.perform hfirst).1
  have hadv := hsound₁.played hrest
  have hmade : b₁ = { b with draft := { b.draft with func := b.func.addBlock } } := by
    cases hfirst
    rfl
  have hnew : b₁.func.hasBlock b.func.nextBlock = true := by
    rw [hmade]
    show (b.func.addBlock.block? b.func.nextBlock).isSome = true
    rw [Func.block?_addBlock, if_pos rfl]
    rfl
  refine ⟨⟨_, (hsound₁.play hrest).1⟩, hadv.hasBlock _ hnew, fun c => ?_⟩
  rw [hadv.isSealed, hmade]
  rfl

lemma isSealed_new (name : String) (numArgs : Nat) (k : BlockId) :
    (Builder.new name numArgs).isSealed k = true ↔ k = ⟨0⟩ := by
  show ((Bindings.empty).markSealed ⟨0⟩).isSealed k = true ↔ _
  rw [Bindings.isSealed_markSealed]
  exact or_iff_left (by simp [Bindings.isSealed, Bindings.empty])

/-- Whether a jump is taken is a matter of its target being open, if it can be taken at all. -/
lemma Sound.takes_jump (h : b.Sound fair) (hc : b.func.hasBlock c = true) :
    (b.isSealed c = true → (Builder.terminate (.jump c)).run b = .error (.sealedBlock c) b) ∧
    (b.isSealed c = false → b.isTerminated = false →
      ∃ b', (Builder.terminate (.jump c)).run b = .ok () b') := by
  constructor
  · intro hsealed
    have hfind : (Terminator.jump c).successors.find? b.isSealed = some c :=
      List.find?_cons_of_pos hsealed
    rw [Recording.terminate_run, hfind]
  · intro hopen hend
    have hallowed : (b.isTerminated || (Terminator.jump c).successors.any fun s =>
        b.isSealed s || !b.func.hasBlock s) = false := by
      show (b.isTerminated || [c].any fun s => b.isSealed s || !b.func.hasBlock s) = false
      rw [List.any_cons, hend, hopen, hc]
      rfl
    rcases (terminate_refusedIf h.current (.jump c)).accepted hallowed with
      ⟨_, b', hrun⟩ | ⟨hwalks, -⟩
    · exact ⟨b', hrun⟩
    · cases hwalks

/-- The sealed blocks are the entry and those that a call named. To seal a handle that names no
block is not refused, and marks the handle. If the calls seal only blocks that are there by then,
only blocks are sealed, and the next block is not. A new block is there from then on; it is sealed
if a call named it before or after it was made, it takes no edge then, and it takes every edge
otherwise. -/
theorem sealed_blocks_were_named {name : String} {numArgs : Nat} {calls : List Call} {b : Builder}
    (hcalls : calls.foldlM perform (.new name numArgs) = .ok b) :
    (∀ c, b.isSealed c = true ↔ c = b.func.entry ∨ Call.sealBlock c ∈ calls) ∧
    (∀ c, b.func.hasBlock c = false →
      ∃ b', (Builder.sealBlock c).run b = .ok () b' ∧ b.MarksOnly c b') ∧
    ((Builder.new name numArgs).sealsBlocks calls = true →
      (∀ c, b.isSealed c = true → b.func.hasBlock c = true) ∧
        b.isSealed b.func.nextBlock = false) ∧
    ∀ (more : List Call) (b' : Builder), (Call.createBlock :: more).foldlM perform b = .ok b' →
      let c := b.func.nextBlock
      Builder.createBlock.result b = .ok c ∧ b'.func.hasBlock c = true ∧
      (b'.isSealed c = true ↔ Call.sealBlock c ∈ calls ∨ Call.sealBlock c ∈ more) ∧
      (b'.isSealed c = true → (terminate (.jump c)).run b' = .error (.sealedBlock c) b') ∧
      (b'.isSealed c = false → b'.isTerminated = false →
        ∃ b'', (terminate (.jump c)).run b' = .ok () b'') := by
  obtain ⟨hsound, -⟩ := (Sound.new name numArgs).play hcalls
  have harena := Sound.arena_of_calls hcalls
  have hsealed : ∀ c, b.isSealed c = true ↔ c = b.func.entry ∨ Call.sealBlock c ∈ calls := by
    intro c
    rw [((Sound.new name numArgs).played hcalls).isSealed, isSealed_new]
    rfl
  refine ⟨hsealed, fun c hc => hsound.sealBlock_missing harena hc, ?_, ?_⟩
  · intro hseals
    have hthere := (Sound.new name numArgs).sealed_there ?_ hseals hcalls
    · refine ⟨hthere, Bool.eq_false_iff.2 fun hmarked => ?_⟩
      exact Func.ne_nextBlock_of_hasBlock (hthere _ hmarked) rfl
    · intro k hk
      rw [(isSealed_new name numArgs k).1 hk]
      rfl
  · intro more b' hmore
    obtain ⟨⟨_, hsound'⟩, hnew, hmarks⟩ := hsound.made hmore
    obtain ⟨hrefused, htaken⟩ := hsound'.takes_jump hnew
    refine ⟨rfl, hnew, ?_, hrefused, htaken⟩
    -- the entry is sealed from the start, but it is not the new block
    have hentry : b.func.nextBlock ≠ b.func.entry :=
      (Func.ne_nextBlock_of_hasBlock harena.entry).symm
    rw [hmarks, hsealed, or_iff_right hentry]

/-- A handle is sealed before there is a block for it. -/
def early : List Call := [.sealBlock ⟨1⟩, .createBlock]

/-- The seal is not refused, though only the entry is there, and the block that gets the handle then
can not be reached from the entry. -/
theorem early_seal_closes_block :
    (Builder.sealBlock ⟨1⟩).result (.new "early" 0) = .ok () ∧
    ([Call.sealBlock ⟨1⟩].foldlM perform (.new "early" 0)).map (fun b =>
      (b.isSealed ⟨1⟩, b.func.hasBlock ⟨1⟩)) = .ok (true, false) ∧
    (early.foldlM perform (.new "early" 0)).map (fun b =>
      (b.isSealed ⟨1⟩, b.func.hasBlock ⟨1⟩, (terminate (.jump ⟨1⟩)).result b)) =
      .ok (true, true, .error (.sealedBlock ⟨1⟩)) := by
  decide +kernel

/-- The block behind the entry is sealed when it has its edge. -/
def inTime : List Call :=
  [.createBlock, .leave (.jump ⟨1⟩), .sealBlock ⟨1⟩, .switchTo ⟨1⟩]

/-- Only the two blocks are sealed, and a third takes an edge from the second when it is made. -/
theorem inTime_seals : ∃ b b' b'', inTime.foldlM perform (.new "inTime" 0) = .ok b ∧
    [Call.createBlock].foldlM perform b = .ok b' ∧
    (∀ c, b.isSealed c = true → b.func.hasBlock c = true) ∧ b.isSealed ⟨1⟩ = true ∧
    b'.isSealed ⟨2⟩ = false ∧ (terminate (.jump ⟨2⟩)).run b' = .ok () b'' := by
  have hseen : (inTime.foldlM perform (.new "inTime" 0)).map (fun b =>
      (b.func.nextBlock, ([Call.createBlock].foldlM perform b).map (·.isTerminated))) =
      .ok (⟨2⟩, .ok false) := by
    decide +kernel
  have hseals : (Builder.new "inTime" 0).sealsBlocks inTime = true := by
    decide +kernel
  obtain ⟨b, hcalls, hb⟩ := except_map_ok.1 hseen
  obtain ⟨hnext, hmore⟩ := Prod.mk.inj hb
  obtain ⟨b', hmore, hend⟩ := except_map_ok.1 hmore
  obtain ⟨hsealed, -, hthere, hnew⟩ := sealed_blocks_were_named hcalls
  obtain ⟨-, -, hopen, -, htaken⟩ := hnew [] b' hmore
  rw [hnext] at hopen htaken
  have hnot : b'.isSealed ⟨2⟩ = false := by
    refine Bool.eq_false_iff.2 fun h => ?_
    exact (hopen.1 h).elim (by simp [inTime]) (by simp)
  obtain ⟨b'', hrun⟩ := htaken hnot hend
  exact ⟨b, b', b'', hcalls, hmore, (hthere hseals).1, (hsealed ⟨1⟩).2 (.inr (by simp [inTime])),
    hnot, hrun⟩

end Builder

end SsaBackend
