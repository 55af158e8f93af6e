import SsaBackend.Draft.Basic
import SsaBackend.Proofs.Build.Bindings
import SsaBackend.Proofs.Func.Arena
import SsaBackend.Proofs.Work

/-!
# What reads leave alone

Whatever a read or a seal does to a draft, and however it ends, blocks that are sealed stay
sealed, no block comes or goes, and none is completed. The tables of the function go on agreeing.
-/

namespace SsaBackend

namespace Func

/-- Whether a block is complete, if it is there. -/
def outline (f : Func) (b : BlockId) : Option Bool := (f.block? b).map (·.terminator.isSome)

/-- A block that is not there is not complete. -/
lemma isSome_terminator? (f : Func) (b : BlockId) :
    (f.terminator? b).isSome = (f.outline b).getD false := by
  unfold terminator? outline
  cases f.block? b <;> rfl

lemma hasBlock_of_outline {f : Func} {b : BlockId} {e : Bool} (h : f.outline b = some e) :
    f.hasBlock b = true := by
  unfold outline at h
  obtain ⟨bb, hbb, -⟩ := Option.map_eq_some_iff.1 h
  exact hasBlock_of_block hbb

lemma outline_of_hasBlock {f : Func} {b : BlockId} (h : f.hasBlock b = true) :
    ∃ e, f.outline b = some e := by
  obtain ⟨bb, hbb⟩ := Option.isSome_iff_exists.1 h
  exact ⟨_, by rw [outline, hbb]; rfl⟩

lemma outline_addBlock (f : Func) (b : BlockId) :
    f.addBlock.outline b = if b = f.nextBlock then some false else f.outline b := by
  unfold outline
  rw [block?_addBlock]
  split <;> rfl

lemma outline_terminated {f g : Func} {b : BlockId} {t : Terminator} (h : Terminated f g b t)
    (c : BlockId) : g.outline c = if c = b then some true else f.outline c := by
  unfold outline
  rw [h.block]
  by_cases hc : c = b
  · subst hc
    obtain ⟨bb, hbb, -⟩ := h.was
    rw [if_pos rfl, hbb]
    simp
  · rw [if_neg hc]
    cases f.block? c with
    | none => rfl
    | some cc => simp [hc]

lemma outline_appended {f g : Func} {b : BlockId} {new : Inst} (h : Appended f g b new)
    (c : BlockId) : g.outline c = f.outline c := by
  unfold outline
  rw [h.block]
  split
  · cases f.block? c with
    | none => rfl
    | some cc =>
      show some (cc.append _ _).terminator.isSome = some cc.terminator.isSome
      unfold Block.append
      split <;> rfl
  · rfl

lemma outline_replace (f : Func) (i : InstId) (same : Value) (b : BlockId) :
    ((f.replaceUses i same).removeInst i).outline b = f.outline b := by
  have hmap : (f.replaceUses i same).outline b = f.outline b := by
    unfold outline replaceUses
    rw [block?_mapOperands]
    cases f.block? b with
    | none => rfl
    | some bb =>
      show some (bb.terminator.map _).isSome = some bb.terminator.isSome
      rw [Option.isSome_map]
  rw [← hmap]
  unfold outline
  cases hi : (f.replaceUses i same).inst? i with
  | none =>
    unfold removeInst
    rw [hi]
  | some p =>
    rw [block?_removeInst hi]
    split
    · cases (f.replaceUses i same).block? b <;> rfl
    · rfl

lemma outline_foldTrivialPhis (f : Func) (candidates : List InstId) (mayFold : InstId → Bool)
    (b : BlockId) : (f.foldTrivialPhis candidates mayFold).1.outline b = f.outline b := by
  refine repeatUpTo_induct (fun s : PhiFold => s.func.outline b = f.outline b) ?_ _ _ rfl
  intro s s' hs hstep
  rcases PhiFold.step_cases hstep with ⟨hfunc, -⟩ | ⟨i, same, node, -, -, -, hfunc, -⟩
  · rw [hfunc, hs]
  · rw [hfunc, outline_replace, hs]

end Func

namespace Draft

/-- Blocks that are sealed stay sealed, and those that are complete are the same. Tables that agree
go on agreeing. -/
structure Steady (d d' : Draft) : Prop where
  isSealed : ∀ b, d.vars.isSealed b = true → d'.vars.isSealed b = true
  outline : ∀ b, d'.func.outline b = d.func.outline b
  descends : ∀ f, Func.Descends f d.func → Func.Descends f d'.func

lemma Steady.refl (d : Draft) : Steady d d := ⟨fun _ h => h, fun _ => rfl, fun _ h => h⟩

lemma Steady.trans {d d' d'' : Draft} (h : Steady d d') (h' : Steady d' d'') : Steady d d'' where
  isSealed b hb := h'.isSealed b (h.isSealed b hb)
  outline b := (h'.outline b).trans (h.outline b)
  descends f hf := h'.descends f (h.descends f hf)

/-- Work that leaves a steady draft behind, however it ends. -/
def KeepsSteady {α : Type} (x : Work Draft α) : Prop := ∀ d, Steady d (x.state d)

namespace KeepsSteady

variable {α β : Type}

lemma of_ok {x : Work Draft α} (hx : KeepsSteady x) {d d' : Draft} {a : α}
    (hrun : x.run d = .ok a d') : Steady d d' := by
  have hd := hx d
  unfold Work.state at hd
  rw [hrun] at hd
  exact hd

lemma of_error {x : Work Draft α} (hx : KeepsSteady x) {d d' : Draft} {e : Error}
    (hrun : x.run d = .error e d') : Steady d d' := by
  have hd := hx d
  unfold Work.state at hd
  rw [hrun] at hd
  exact hd

/-! ## Putting work together -/

lemma of_pure (a : α) : KeepsSteady (pure a) := fun d => .refl d

lemma of_throw (e : Error) : KeepsSteady (throw e : Work Draft α) := fun d => .refl d

lemma bind {x : Work Draft α} {k : α → Work Draft β} (hx : KeepsSteady x)
    (hk : ∀ a, KeepsSteady (k a)) : KeepsSteady (x >>= k) := by
  intro d
  rw [Work.state_bind]
  cases hrun : x.run d with
  | ok a t => exact (hx.of_ok hrun).trans (hk a t)
  | error e t => exact hx.of_error hrun

lemma get_bind {k : Draft → Work Draft β} (hk : ∀ d, KeepsSteady (k d)) :
    KeepsSteady (get >>= k) := fun d => hk d d

lemma forM {f : α → Work Draft PUnit} (hf : ∀ a, KeepsSteady (f a)) (l : List α) :
    KeepsSteady (l.forM f) := by
  induction l with
  | nil => exact of_pure _
  | cons a rest ih => exact (hf a).bind fun _ => ih

/-- Bindings may change as long as sealed blocks stay sealed. -/
lemma modifyVars {g : Bindings → Bindings}
    (hg : ∀ s b, Bindings.isSealed s b = true → (g s).isSealed b = true) :
    KeepsSteady (modifyVars g) := fun d => ⟨hg d.vars, fun _ => rfl, fun _ h => h⟩

end KeepsSteady

/-! ## Reading and sealing -/

lemma keepsSteady_newPhi (b : BlockId) : KeepsSteady (newPhi b) := by
  intro d
  unfold newPhi Func.createPhi
  show Steady d (Work.state (Work.ofExcept _ >>= _) d)
  rw [Work.state_bind]
  cases happ : d.func.appendInst b (.phi .empty) with
  | error e => exact .refl d
  | ok r =>
    obtain ⟨i, g⟩ := r
    obtain ⟨-, -, happended⟩ := Func.appendInst_ok happ
    refine ⟨fun _ h => h, Func.outline_appended happended, ?_⟩
    intro f hf
    refine hf.appendInst happ ?_
    rintro node ⟨⟩
    exact List.nodup_nil

lemma keepsSteady_newPlaceholder (x : Variable) (b : BlockId) :
    KeepsSteady (newPlaceholder x b) := by
  refine (keepsSteady_newPhi b).bind fun phi => ?_
  refine KeepsSteady.bind (.modifyVars ?_) fun _ => .of_pure _
  intro s c hc
  rw [Bindings.isSealed_guard]
  exact hc

lemma keepsSteady_foldPhis (candidates : List InstId) : KeepsSteady (foldPhis candidates) := by
  intro d
  refine ⟨?_, Func.outline_foldTrivialPhis d.func candidates _,
    fun _ h => h.foldTrivialPhis candidates _⟩
  intro b hb
  show Bindings.isSealed (if _ then _ else _) b = true
  split <;> exact hb

lemma keepsSteady_setIncoming (phi : InstId) (p : BlockId) (v : Value) :
    KeepsSteady (do setFunc (← Work.ofExcept ((← get).func.setPhiIncoming phi p v))) := by
  intro d
  show Steady d (Work.state (Work.ofExcept (d.func.setPhiIncoming phi p v) >>= setFunc) d)
  rw [Work.state_bind]
  cases hset : d.func.setPhiIncoming phi p v with
  | error e => exact .refl d
  | ok f =>
    refine ⟨fun _ h => h, ?_, fun _ h => h.setPhiIncoming hset⟩
    intro b
    show (f.block? b).map _ = (d.func.block? b).map _
    unfold Func.block?
    rw [Func.blocks_setPhiIncoming hset]

lemma keepsSteady_fillPhi {read : BlockId → Work Draft Value} (hread : ∀ p, KeepsSteady (read p))
    (phi : InstId) (preds : List BlockId) : KeepsSteady (fillPhi read phi preds) := by
  refine KeepsSteady.bind (.modifyVars ?_) fun _ => ?_
  · intro s c hc
    rw [Bindings.isSealed_guard]
    exact hc
  · refine KeepsSteady.bind (.forM (fun p => ?_) preds) fun _ => ?_
    · exact (hread p).bind fun v => keepsSteady_setIncoming phi p v
    · refine KeepsSteady.bind (.modifyVars fun s c hc => hc) fun _ => ?_
      exact (keepsSteady_foldPhis [phi]).bind fun _ => .of_pure _

lemma keepsSteady_readWithin (x : Variable) (depth : Nat) (b : BlockId) :
    KeepsSteady (readWithin x depth b) := by
  induction depth generalizing b with
  | zero => exact .of_throw _
  | succ depth ih =>
    unfold readWithin trail
    refine KeepsSteady.bind (.get_bind fun d => ?_) fun t => ?_
    · split
      · exact .of_pure _
      · exact .of_throw _
    · have hrest : ∀ v, KeepsSteady do
          (t.last :: t.passed).forM fun b => Draft.modifyVars (·.bind x b v)
          return v := by
        intro v
        refine KeepsSteady.bind (.forM (fun c => ?_) _) fun _ => .of_pure v
        exact .modifyVars fun s b hb => hb
      cases t.source with
      | bound v => exact hrest v
      | unsealed => exact (keepsSteady_newPlaceholder x t.last).bind hrest
      | nothing => exact hrest .undef
      | join preds =>
        refine (keepsSteady_newPhi t.last).bind fun phi => ?_
        refine KeepsSteady.bind (.modifyVars fun s b hb => hb) fun _ => ?_
        exact (keepsSteady_fillPhi ih phi preds).bind hrest

lemma keepsSteady_read (x : Variable) (b : BlockId) : KeepsSteady (read x b) :=
  .get_bind fun d => keepsSteady_readWithin x d.readDepth b

lemma keepsSteady_sealBlock (b : BlockId) : KeepsSteady (sealBlock b) := by
  refine .get_bind fun d => ?_
  split
  · exact .of_pure _
  · refine KeepsSteady.bind (.modifyVars fun s b hb => hb) fun _ => ?_
    refine KeepsSteady.bind (.forM (fun e => ?_) _) fun _ => ?_
    · refine .get_bind fun d => ?_
      exact (keepsSteady_fillPhi (keepsSteady_read e.1) e.2 _).bind fun _ => .of_pure _
    · refine KeepsSteady.bind (.modifyVars ?_) fun _ => .get_bind fun d => ?_
      · intro s c hc
        exact Bindings.isSealed_markSealed.2 (.inr hc)
      · exact (keepsSteady_foldPhis _).bind fun _ => .of_pure _

/-- A block is sealed once sealing it has ended well. -/
lemma isSealed_of_sealBlock {b : BlockId} {d d' : Draft} {u : Unit}
    (h : (sealBlock b).run d = .ok u d') : d'.vars.isSealed b = true := by
  unfold sealBlock at h
  rw [Work.get_bind_ok] at h
  split at h
  · rename_i hsealed
    cases h
    exact hsealed
  · obtain ⟨_, d₁, -, h⟩ := Work.bind_ok.1 h
    obtain ⟨_, d₂, -, h⟩ := Work.bind_ok.1 h
    obtain ⟨_, d₃, hmark, h⟩ := Work.bind_ok.1 h
    rw [Work.get_bind_ok] at h
    obtain ⟨rs, d₄, hfold, h⟩ := Work.bind_ok.1 h
    cases h
    apply ((keepsSteady_foldPhis _).of_ok hfold).isSealed
    cases hmark
    exact Bindings.isSealed_markSealed.2 (.inl rfl)

end Draft

end SsaBackend
