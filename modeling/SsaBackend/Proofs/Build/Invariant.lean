import SsaBackend.Proofs.Build.Supply
import SsaBackend.Proofs.Func.Dominated
import SsaBackend.Proofs.Graph.Reducible

/-!
# Variables that loops leave alone

A variable that is assigned once, in the entry, has one value everywhere. Still reads of it make
phis: at every join they come to, and in every block that is not sealed yet. When the function is
finished and its graph is reducible, all of them are gone, and the operands that the reads supplied
are the value that was assigned, or what that was folded to (`Builder.invariant_needs_no_phi`).

The phis make up a web then (`Builder.Weaves`), none of them is trivial, and what the blocks bind
flows along the edges (`Builder.Weaves.flows`). On a reducible graph nothing merges in such a flow.
-/

namespace SsaBackend

open Draft (Evolves Holds Turns)

/-! ## Operands in the finished function -/

/-- Where an operand was supplied for `x`, it is `w` in the function `f`: there the instruction or
the terminator that the call makes has its operands followed by some map that takes all values that
were supplied to `w`. -/
def Call.Lands (b : Builder) (f : Func) (supplied : List Value) (w : Value) : Call → Prop
  | emit inst _ => ∀ v b', (Builder.emit inst).run b = .ok v b' → ∃ i σ, v = .inst i ∧
      f.inst? i = some ⟨inst.mapOperands σ, b.current⟩ ∧
      ∀ u ∈ inst.operands, u ∈ supplied → σ u = w
  | leave t => ∀ b', (Builder.terminate t).run b = .ok () b' → ∃ σ,
      f.terminator? b.current = some (t.mapOperands σ) ∧
      ∀ u ∈ t.operands, u ∈ supplied → σ u = w
  | _ => True

namespace Draft

variable {x : Variable} {d d' : Draft} {σ : Value → Value} {u w : Value}

/-- A value that was held is followed to what all blocks bind, if it is still there. -/
lemma Holds.lands (h : Holds x d u) (hσ : Evolves x σ d d')
    (hlive : ∀ j, σ u = .inst j → ∃ q, d'.func.inst? j = some q)
    (hval : ∀ c v, d'.func.hasBlock c = true → d'.vars.value? x c = some v → v = w) : σ u = w := by
  rcases h with ⟨i, rfl, hi⟩ | ⟨c, hc, hu⟩
  · obtain ⟨⟨-, hnone⟩, hfix⟩ := hσ.gone i hi
    obtain ⟨q, hq⟩ := hlive i hfix
    rw [hnone] at hq
    cases hq
  · exact hval c (σ u) (hσ.there c hc) (hσ.values c u hu)

end Draft

namespace Builder

variable {name : String} {numArgs : Nat} {x : Variable} {b b' b₁ : Builder} {c : Call}
  {made : List InstId} {supplied : List Value} {v w : Value} {f : Func}

/-! ## The flow of a variable -/

namespace Weaves

/-- What the blocks bind flows along the edges, and only phis of the variable merge. -/
lemma flows (h : b.Weaves x made supplied) (hv : b.func.Verified) (hall : b.func.AllReached)
    (hsealed : ∀ c, b.func.hasBlock c = true → b.isSealed c = true) :
    b.func.cfg.Flows (fun n => b.draft.vars.value? x ⟨n⟩)
      fun n => ∃ i ∈ made, b.func.ListsPhi ⟨n⟩ i := by
  have horder := h.sound.phisInOrder
  constructor
  · intro n u _ hn hnot hu m hedge
    have hentry : (⟨n⟩ : BlockId) ≠ b.func.entry := fun he => hn (congrArg BlockId.index he)
    rcases h.spun.web.passed ⟨n⟩ u hentry hu with ⟨i, hi, hmem⟩ | ⟨-, hpreds⟩
    · exact absurd ⟨i, hmem, hi⟩ hnot
    · exact hpreds ⟨m⟩ ((hv.linked ⟨m⟩ ⟨n⟩).1 (Func.edge_iff.1 hedge))
  · rintro n - ⟨i, hmem, hi⟩
    obtain ⟨-, hbound, -⟩ := h.spun.web.own ⟨n⟩ i hi hmem
    refine ⟨.inst i, hbound, ?_⟩
    intro w
    obtain ⟨cc, hc, hphi⟩ := hi
    have hclosed := hsealed ⟨n⟩ (Option.isSome_iff_exists.2 ⟨cc, hc⟩)
    obtain ⟨node, hnode, hblocks, -⟩ := horder.complete ⟨n⟩ cc hc hclosed i hphi
    -- the phi is not trivial, so an operand is neither the phi itself nor `w`
    obtain ⟨u, hu, hself, hw⟩ :=
      Phi.exists_ne_of_not_trivial (horder.needed ⟨n⟩ cc hc hclosed i hphi node hnode) w
    obtain ⟨op, hop, rfl⟩ := List.mem_map.1 hu
    have hpred : op.block ∈ b.func.preds ⟨n⟩ := by
      rw [Func.preds_of_block hc, ← hblocks]
      exact List.mem_map_of_mem hop
    obtain ⟨pp, hpp⟩ := Option.isSome_iff_exists.1
      (h.spun.formed.predsThere ⟨n⟩ op.block hpred)
    refine ⟨op.block.index, op.value, hall op.block pp hpp, ?_, ?_, hself, hw⟩
    · exact Func.edge_iff.2 ((hv.linked op.block ⟨n⟩).2 hpred)
    · exact h.spun.web.operands i node hmem hnode op hop

/-- On a reducible graph the phis that were made for the variable are gone, and all blocks bind
what the entry binds. -/
lemma all_gone (h : b.Weaves x made supplied) (hv : b.func.Verified) (hall : b.func.AllReached)
    (hred : b.func.cfg.Reducible) (hsealed : ∀ c, b.func.hasBlock c = true → b.isSealed c = true) :
    (∀ i ∈ made, b.func.inst? i = none) ∧ ∀ c u, b.func.hasBlock c = true →
      b.draft.vars.value? x c = some u → b.draft.vars.value? x b.func.entry = some u := by
  have hflows := h.flows hv hall hsealed
  constructor
  · intro i hmem
    by_contra hsome
    obtain ⟨p, hp⟩ := Option.ne_none_iff_exists'.1 hsome
    have hi := h.spun.web.listed i p hmem hp
    have hentry := (h.spun.web.own p.block i hi hmem).1
    obtain ⟨cc, hc, hphi⟩ := hi
    refine hflows.not_merges hv.consistent hred (hall p.block cc hc) (.of_start _) ?_
      ⟨i, hmem, cc, hc, hphi⟩
    exact fun he => hentry (BlockId.index_inj.1 he).symm
  · intro c u hc hu
    obtain ⟨cc, hcc⟩ := Option.isSome_iff_exists.1 hc
    exact hflows.eq_entry hv.consistent hred (hall c cc hcc) hu

end Weaves

/-! ## What was emitted -/

lemma runs_of_emit {inst : Inst} (hphi : inst.isPhi = false)
    (hrun : (Builder.emit inst).run b = .ok v b') :
    v = .inst b.func.nextInst ∧ b'.func.Runs b.current b.func.nextInst inst := by
  rw [Recording.emit_run] at hrun
  split at hrun
  · cases hrun
  · split at hrun
    · cases hrun
    · split at hrun
      · cases hrun
      · rename_i i g happ
        cases hrun
        obtain ⟨rfl, ⟨bb, hbb⟩, ha⟩ := Func.appendInst_ok happ
        exact ⟨rfl, ha.runs_new hphi hbb⟩

lemma terminator_of_terminate {t : Terminator} (hrun : (Builder.terminate t).run b = .ok () b') :
    b'.func.terminator? b.current = some t := by
  rw [Recording.terminate_run] at hrun
  split at hrun
  · cases hrun
  · split at hrun
    · cases hrun
    · rename_i g hterm
      cases hrun
      have ht := Func.setTerminator_ok hterm
      obtain ⟨bb, hbb, -⟩ := ht.was
      refine Func.terminator?_eq_some.2 ⟨_, (ht.block b.current).trans (congrArg _ hbb), ?_⟩
      exact if_pos rfl

lemma perform_of_run {s : Builder} (hcall : b.perform c = .ok b₁) (hrun : c.make.run b = .ok () s) :
    s = b₁ := by
  unfold perform at hcall
  rw [hrun] at hcall
  exact Except.ok.inj hcall

/-- What a call emits is in the finished function with its operands followed. -/
lemma lands {σ : Value → Value} (hcall : b.perform c = .ok b₁) (hσ : Evolves x σ b₁.draft b'.draft)
    (hv : b'.func.Verified) (hheld : ∀ u ∈ supplied, Holds x b₁.draft u)
    (hval : ∀ c u, b'.func.hasBlock c = true → b'.draft.vars.value? x c = some u → u = w) :
    c.Lands b b'.func supplied w := by
  cases c with
  | emit inst hphi =>
    intro v s hrun
    have hmake : (Call.emit inst hphi).make.run b = .ok () s :=
      Work.bind_ok.2 ⟨v, s, hrun, rfl⟩
    obtain rfl := perform_of_run hcall hmake
    obtain ⟨rfl, hruns⟩ := runs_of_emit hphi hrun
    obtain ⟨hinst, -, bb, hbb, hmem⟩ := hσ.code _ _ _ hruns
    refine ⟨_, σ, rfl, hinst, ?_⟩
    intro u hu hsup
    refine (hheld u hsup).lands hσ ?_ hval
    intro j hj
    apply hv.operands b.current bb hbb j
    refine Func.mem_blockOperands.2 (.inl ⟨_, List.mem_append_right _ hmem, _, hinst, ?_⟩)
    rw [Inst.operands_mapOperands, ← hj]
    exact List.mem_map_of_mem hu
  | leave t =>
    intro s hrun
    obtain rfl := perform_of_run hcall hrun
    have hend := hσ.ends _ _ (terminator_of_terminate hrun)
    obtain ⟨bb, hbb, ht⟩ := Func.terminator?_eq_some.1 hend
    refine ⟨σ, hend, ?_⟩
    intro u hu hsup
    refine (hheld u hsup).lands hσ ?_ hval
    intro j hj
    apply hv.operands b.current bb hbb j
    refine Func.mem_blockOperands.2 (.inr ⟨_, ht, ?_⟩)
    rw [Terminator.operands_mapOperands, ← hj]
    exact List.mem_map_of_mem hu
  | _ => trivial

/-! ## Variables assigned once -/

/-- After the one assignment the variable is bound in the entry, and its phis make up a web. -/
lemma weaves_of_once {before after : List Call}
    (hbefore : before.foldlM perform (.new name numArgs) = .ok b₁)
    (hentry : b₁.current = b₁.func.entry) (honly : ∀ u, Call.define x u ∉ before ++ after)
    (hfirst : Call.use x ∉ before)
    (hcalls : (before ++ .define x v :: after).foldlM perform (.new name numArgs) = .ok b) :
    b.Weaves x ((new name numArgs).madeFor x (before ++ .define x v :: after))
      ((new name numArgs).suppliedFor x (before ++ .define x v :: after)) ∧
    ∃ d σ, d.vars.value? x d.func.entry = some v ∧ Evolves x σ d b.draft := by
  obtain ⟨h₁, hturns₁⟩ := (Weaves.new name numArgs x).play
    (fun u hu => honly u (List.mem_append_left _ hu)) (fun hu => absurd hu hfirst) hbefore
  obtain ⟨_, b₂, hbefore', hdefine, hafter⟩ := exists_of_play hcalls
  obtain rfl := Except.ok.inj (hbefore.symm.trans hbefore')
  have hassigned := h₁.define (hturns₁.unbound fun _ => rfl) v
  have hsame : { b₁ with draft := { b₁.draft with
      vars := b₁.draft.vars.bind x b₁.func.entry v } } = b₂ := by
    rw [← hentry]
    exact Except.ok.inj hdefine
  rw [hsame] at hassigned
  have hbound : b₂.draft.vars.value? x b₂.func.entry = some v := by
    rw [← hsame]
    exact Bindings.value?_bind_self
  obtain ⟨h₂, hturns₂⟩ := hassigned.play (fun u hu => honly u (List.mem_append_right _ hu))
    (fun _ => by rw [hbound]; rfl) hafter
  obtain ⟨σ, hσ⟩ := hturns₂.evolves
  refine ⟨?_, b₂.draft, σ, hbound, hσ⟩
  unfold madeFor suppliedFor at h₂ ⊢
  rw [gather_append _ hbefore, gather_cons _ hdefine, gather_append _ hbefore,
    gather_cons _ hdefine]
  exact h₂

/-- A variable that is assigned once, in the entry and before it is read, needs no phi on a
reducible graph: whatever was made for it is gone in the finished function, and the operands that
its reads supplied are the value that was assigned, or what that was folded to. -/
theorem invariant_needs_no_phi {before after : List Call}
    (hbefore : before.foldlM perform (.new name numArgs) = .ok b₁)
    (hentry : b₁.current = b₁.func.entry) (honly : ∀ u, Call.define x u ∉ before ++ after)
    (hfirst : Call.use x ∉ before)
    (hcalls : (before ++ .define x v :: after).foldlM perform (.new name numArgs) = .ok b)
    (hfinish : Builder.finish.run b = .ok f b') (hall : f.AllReached) (hred : f.cfg.Reducible) :
    (∀ i ∈ (new name numArgs).madeFor x (before ++ .define x v :: after) ++ b.madeAtFinish x,
      f.inst? i = none) ∧
    ∃ w, (w = v ∨ ∃ i, v = .inst i ∧ f.Gone i) ∧ Draft.Became b'.draft.journal v w ∧
      ∀ s c rest b₂, after = s ++ c :: rest →
        (before ++ .define x v :: s).foldlM perform (.new name numArgs) = .ok b₂ →
        c.Lands b₂ f ((new name numArgs).suppliedFor x (before ++ .define x v :: s)) w := by
  obtain ⟨hweaves, d, σ, hv₀, hσ⟩ := weaves_of_once hbefore hentry honly hfirst hcalls
  obtain ⟨hend, hturns, rfl, hverify, hsealed⟩ := hweaves.finish hfinish
  have hv := Func.verified_of_verify hverify
  obtain ⟨hgone, hone⟩ := hend.all_gone hv hall hred hsealed
  obtain ⟨τ, hτ⟩ := hturns.evolves
  have hall' := hσ.trans hτ
  have hval : ∀ c u, b'.func.hasBlock c = true → b'.draft.vars.value? x c = some u →
      u = τ (σ v) := by
    intro c u hc hu
    have hu₀ := hone c u hc hu
    rw [show b'.draft.vars.value? x b'.func.entry = some (τ (σ v)) from hall'.values _ v hv₀] at hu₀
    exact (Option.some.inj hu₀).symm
  refine ⟨hgone, τ (σ v), hall'.moved v, hall'.told v, ?_⟩
  rintro s c rest b₂ rfl hs
  have honly₂ : ∀ u, Call.define x u ∉ before ++ s := by
    intro u hu
    refine honly u ?_
    rw [← List.append_assoc]
    exact List.mem_append_left _ hu
  have honly₃ : ∀ u, Call.define x u ∉ c :: rest :=
    fun u hu => honly u (List.mem_append_right _ (List.mem_append_right _ hu))
  obtain ⟨h₂, d₂, σ₂, hv₂, hσ₂⟩ := weaves_of_once hbefore hentry honly₂ hfirst hs
  have hstarted : (b₂.draft.vars.value? x b₂.func.entry).isSome = true :=
    Option.isSome_iff_exists.2 ⟨σ₂ v, hσ₂.values _ v hv₂⟩
  rw [← List.cons_append, ← List.append_assoc] at hcalls
  obtain ⟨_, b₃, hs', hc, hrest⟩ := exists_of_play hcalls
  obtain rfl := Except.ok.inj (hs.symm.trans hs')
  obtain ⟨h₃, hturns₃⟩ := h₂.perform (fun u he => honly₃ u (he ▸ List.mem_cons_self))
    (fun _ => hstarted) hc
  obtain ⟨-, hturns₄⟩ := h₃.play (fun u hu => honly₃ u (List.mem_cons_of_mem _ hu))
    (fun _ => hturns₃.bound _ hstarted) hrest
  obtain ⟨τ₃, hτ₃⟩ := (hturns₄.trans hturns).evolves
  exact lands hc hτ₃ hv (fun u hu => h₃.held u (List.mem_append_left _ hu)) hval

/-- Blocks for a loop in a loop; `y` is read before anything is assigned. -/
def outset : List Call := [.createBlock, .createBlock, .createBlock, .createBlock, .use ⟨1⟩]

/-- The outer loop reads `x`, the inner one too, and so does the way out. Neither of the loops is
sealed when it is read, and the outer one and the way out not before the function is finished. -/
def loopInLoop : List Call :=
  [ .leave (.jump ⟨1⟩),
    .switchTo ⟨1⟩,
    .use ⟨0⟩,
    .leave (.branch (.inst ⟨0⟩) ⟨2⟩ ⟨4⟩),
    .switchTo ⟨2⟩,
    .use ⟨0⟩,
    .emit (.binary .add (.inst ⟨1⟩) (.int 1)) rfl,
    .leave (.branch (.inst ⟨2⟩) ⟨2⟩ ⟨3⟩),
    .sealBlock ⟨3⟩,
    .switchTo ⟨3⟩,
    .leave (.jump ⟨1⟩),
    .sealBlock ⟨2⟩,
    .switchTo ⟨4⟩,
    .use ⟨0⟩ ]

/-- The way out gives back what it read. -/
def handBack : Call := .leave (.ret (some (.inst ⟨3⟩)))

/-- The three phis that were made for `x` are gone, and what is given back is the argument that was
assigned. -/
theorem loopInLoop_needs_no_phi : ∃ b f b',
    (outset ++ Call.define ⟨0⟩ (.arg 0) :: (loopInLoop ++ [handBack])).foldlM perform
      (.new "loopInLoop" 1) = .ok b ∧
    Builder.finish.run b = .ok f b' ∧ f.AllReached ∧ f.cfg.Reducible ∧
    (∀ i ∈ ([⟨0⟩, ⟨1⟩, ⟨3⟩] : List InstId), f.inst? i = none) ∧
    f.terminator? ⟨4⟩ = some (.ret (some (.arg 0))) := by
  have hstart : (outset.foldlM perform (.new "loopInLoop" 1)).map (fun b =>
      decide (b.current = b.func.entry)) = .ok true := by decide +kernel
  have hread : ((outset ++ Call.define ⟨0⟩ (.arg 0) :: loopInLoop).foldlM perform
      (.new "loopInLoop" 1)).map (fun b => (b.current, (Builder.terminate (.ret
        (some (.inst ⟨3⟩)))).result b)) = .ok (⟨4⟩, .ok ()) := by decide +kernel
  have hdone : ((outset ++ Call.define ⟨0⟩ (.arg 0) :: (loopInLoop ++ [handBack])).foldlM perform
      (.new "loopInLoop" 1)).map (fun b => (Builder.finish.result b).map fun f : Func =>
        (decide (f.verify = .ok ()), f.liveBlocks.all (fun e => f.cfg.domTree.isReachable e.1.index),
          decide (∀ m < f.cfg.size, f.cfg.domTree.isReachable m = true → ∀ n ∈ f.cfg.succs m,
            f.cfg.rank n ≤ f.cfg.rank m → f.cfg.domTree.dominates n m = true))) =
      .ok (.ok (true, true, true)) := by decide +kernel
  have hmade : ∀ i ∈ ([⟨0⟩, ⟨1⟩, ⟨3⟩] : List InstId), i ∈ (new "loopInLoop" 1).madeFor ⟨0⟩
      (outset ++ Call.define ⟨0⟩ (.arg 0) :: (loopInLoop ++ [handBack])) := by decide +kernel
  have hsupplied : Value.inst ⟨3⟩ ∈ (new "loopInLoop" 1).suppliedFor ⟨0⟩
      (outset ++ Call.define ⟨0⟩ (.arg 0) :: loopInLoop) := by decide +kernel
  obtain ⟨b₁, hbefore, hentry⟩ := except_map_ok.1 hstart
  obtain ⟨b₂, hs, hlast⟩ := except_map_ok.1 hread
  obtain ⟨hcurrent, hgiven⟩ := Prod.mk.inj hlast
  obtain ⟨b₃, hgiven⟩ := Work.result_ok.1 hgiven
  obtain ⟨b, hcalls, hb⟩ := except_map_ok.1 hdone
  obtain ⟨f, hf, hchecks⟩ := except_map_ok.1 hb
  obtain ⟨b', hfinish⟩ := Work.result_ok.1 hf
  obtain ⟨hverify, hchecks⟩ := Prod.mk.inj hchecks
  obtain ⟨hreach, hback⟩ := Prod.mk.inj hchecks
  have hg := (Func.verified_of_verify (of_decide_eq_true hverify)).consistent
  have hall := Func.allReached_of_check hg hreach
  have hred := (Digraph.reducible_iff hg).2 (of_decide_eq_true hback)
  obtain ⟨hgone, w, hw, -, hlands⟩ := invariant_needs_no_phi hbefore (of_decide_eq_true hentry)
    (by simp [outset, loopInLoop, handBack]) (by simp [outset]) hcalls hfinish hall hred
  refine ⟨b, f, b', hcalls, hfinish, hall, hred, ?_, ?_⟩
  · exact fun i hi => hgone i (List.mem_append_left _ (hmade i hi))
  · obtain rfl : w = .arg 0 := hw.resolve_right (by rintro ⟨i, ⟨⟩, -⟩)
    obtain ⟨σ, hterm, hσ⟩ := hlands loopInLoop handBack [] b₂ rfl hs b₃ hgiven
    rw [hcurrent] at hterm
    rw [hterm]
    have harg := hσ _ (List.mem_singleton_self _) hsupplied
    exact congrArg (fun u => some (Terminator.ret (some u))) harg

end Builder

end SsaBackend
