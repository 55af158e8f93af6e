import SsaBackend.Proofs.Build.Extending
import SsaBackend.Proofs.Build.Forming
import SsaBackend.Proofs.Build.Outcome

/-!
# What a builder keeps in order

Any calls may be made of a builder, in any order and with any values; one that is refused leaves
the builder in a state like any other. In all the states that can come about the phis are in
order (`Builder.PhisInOrder`): those of a sealed block have one operand for each predecessor and
are not trivial, and those of an unsealed block are its placeholders and have no operands. The
predecessors of a sealed block are final, and if no call was given a value that names a removed
instruction, then no operand, terminator or binding names one.

`Builder.Sound` is what one call hands to the next (`Builder.Sound.perform`): reads and seals keep
the phis in form, and the other calls extend the draft or bind a variable.
-/

namespace SsaBackend

/-! ## Calls -/

/-- What the builder does, with the values as they are given. -/
def Call.make : Call → Work Builder Unit
  | createBlock => do let _ ← Builder.createBlock
  | switchTo b => Builder.switchTo b
  | sealBlock b => Builder.sealBlock b
  | define x v => Builder.defVar x v
  | use x => do let _ ← Builder.useVar x
  | emit inst _ => do let _ ← Builder.emit inst
  | leave t => Builder.terminate t

/-- Whether the value does not name an instruction that is gone. -/
def Func.lasts (f : Func) (v : Value) : Bool :=
  v.inst?.all fun i => decide (f.instCapacity ≤ i.index) || (f.inst? i).isSome

lemma Func.lasts_iff {f : Func} {v : Value} : f.lasts v = true ↔ f.Lasting v := by
  unfold Func.lasts Func.Lasting Func.Gone
  cases v with
  | inst i =>
    simp only [Value.inst?, Option.all_some, Bool.or_eq_true, decide_eq_true_eq, Value.inst.injEq,
      forall_eq', not_and, ← Option.ne_none_iff_isSome]
    rw [← Nat.not_lt, ← imp_iff_not_or]
  | _ => simp [Value.inst?]

namespace Builder

/-- Makes one call. A call that is refused leaves the builder where it had got; one that never
ends leaves none. -/
def perform (b : Builder) (c : Call) : Except Error Builder :=
  match c.make.run b with
  | .ok _ b' => .ok b'
  | .error .endless _ => .error .endless
  | .error _ b' => .ok b'

/-- Whether no call is given a value that names an instruction gone by then. -/
def givesLasting (b : Builder) : List Call → Bool
  | [] => true
  | c :: rest =>
    c.values.all b.func.lasts &&
      match b.perform c with
      | .ok b' => b'.givesLasting rest
      | .error _ => true

lemma givesLasting_cons {b : Builder} {c : Call} {rest : List Call}
    (h : b.givesLasting (c :: rest) = true) :
    (∀ v ∈ c.values, b.func.Lasting v) ∧
      ∀ b', b.perform c = .ok b' → b'.givesLasting rest = true := by
  unfold givesLasting at h
  rw [Bool.and_eq_true] at h
  refine ⟨fun v hv => Func.lasts_iff.1 (List.all_eq_true.1 h.1 v hv), ?_⟩
  intro b' hb'
  rw [hb'] at h
  exact h.2

/-! ## What one call hands to the next -/

/-- The phis are in form, and the insertion point is in a block that is there. With `fair`, that no
value given so far named what was gone, nothing names what is gone. -/
structure Sound (fair : Prop) (b : Builder) : Prop where
  formed : b.draft.Formed fair [] none
  settled : b.draft.Settled []
  current : b.func.hasBlock b.current = true

/-- Sealed blocks stay sealed and keep their predecessors. -/
def Fixed (b b' : Builder) : Prop :=
  ∀ c, b.isSealed c = true → b'.isSealed c = true ∧ b'.func.preds c = b.func.preds c

lemma Fixed.refl (b : Builder) : b.Fixed b := fun _ hc => ⟨hc, rfl⟩

lemma Fixed.trans {b b' b'' : Builder} (h : b.Fixed b') (h' : b'.Fixed b'') : b.Fixed b'' := by
  intro c hc
  obtain ⟨hsealed, hpreds⟩ := h c hc
  obtain ⟨hsealed', hpreds'⟩ := h' c hsealed
  exact ⟨hsealed', hpreds'.trans hpreds⟩

variable {fair fair' : Prop} {b b' : Builder} {c : Call}

namespace Sound

lemma new (name : String) (numArgs : Nat) : (Builder.new name numArgs).Sound True := by
  have hempty : ∀ {c cc}, (Builder.new name numArgs).draft.func.block? c = some cc → cc = {} :=
    fun hc => Func.block?_new hc
  have hphis : ∀ {c cc i}, (Builder.new name numArgs).draft.func.block? c = some cc →
      i ∉ cc.phis := by
    intro c cc i hc
    rw [hempty hc]
    exact List.not_mem_nil
  have hpreds : ∀ c, (Builder.new name numArgs).draft.func.preds c = [] := Func.preds_new name numArgs
  refine ⟨⟨⟨?_, fun c cc hc i hi => absurd hi (hphis hc), ?_, ?_, ?_⟩, ?_, ?_, ?_, ?_, ?_, ?_⟩,
    ?_, rfl⟩
  · rintro c i ⟨cc, hc, hi⟩
    rw [hempty hc] at hi
    cases hi
  · intro c
    rw [hpreds]
    exact List.nodup_nil
  · intro c p hp
    rw [hpreds] at hp
    cases hp
  · intro _
    refine ⟨⟨?_, ?_⟩, ?_⟩
    · rintro i p ⟨⟩
    · intro c cc hc t ht
      rw [hempty hc] at ht
      cases ht
    · rintro x c v ⟨⟩
  · intro i
    constructor
    · rintro ⟨⟩
    · rintro (⟨⟨⟩⟩ | ⟨c, e, ⟨⟩, -⟩)
  · rintro i ⟨⟩
  · rintro c e ⟨⟩
  · exact fun _ => List.nodup_nil
  · exact fun c cc hc _ i hi => absurd hi (hphis hc)
  · exact fun c cc hc _ i hi => absurd hi (hphis hc)
  · intro i hi
    obtain ⟨c, cc, hc, hmem⟩ := Func.mem_phiIds.1 hi
    exact absurd hmem (hphis hc)

lemma mono (h : b.Sound fair) (hf : fair' → fair) : b.Sound fair' :=
  ⟨h.formed.mono hf, h.settled, h.current⟩

/-- A call that extends the draft hands on what it found. -/
lemma extended (h : b.Sound fair) {d : Draft} (he : Draft.Extended b.draft d)
    (hg : d.Grounded fair') (hc : d.func.hasBlock b.current = true) :
    { b with draft := d }.Sound fair' ∧ b.Fixed { b with draft := d } := by
  refine ⟨⟨he.formed h.formed hg, he.settled h.formed.toGrounded h.settled, hc⟩, ?_⟩
  intro c hsealed
  refine ⟨?_, he.preds c hsealed⟩
  show d.vars.isSealed c = true
  rw [he.vars]
  exact hsealed

lemma createBlock (h : b.Sound fair) :
    { b with draft := { b.draft with func := b.func.addBlock } }.Sound fair ∧
      b.Fixed { b with draft := { b.draft with func := b.func.addBlock } } := by
  obtain ⟨bb, hb⟩ := Option.isSome_iff_exists.1 h.current
  exact h.extended (.addBlock b.draft) h.formed.toGrounded.addBlock
    (Option.isSome_iff_exists.2 ⟨bb, Func.block_addBlock hb⟩)

lemma bind (h : b.Sound fair) {v : Value} (hfair : fair' → fair)
    (hv : fair' → b.func.Lasting v) (x : Variable) (c : BlockId) :
    { b with draft := { b.draft with vars := b.draft.vars.bind x c v } }.Sound fair' :=
  ⟨(h.formed.mono hfair).bind hv x c, h.settled, h.current⟩

lemma emit (h : b.Sound fair) {f : Func} {new : Inst} (ha : b.func.Appended f b.current new)
    (hphi : new.isPhi = false) (hfair : fair' → fair)
    (hnew : fair' → ∀ v ∈ new.operands, b.func.Lasting v) :
    { b with draft := { b.draft with func := f } }.Sound fair' ∧
      b.Fixed { b with draft := { b.draft with func := f } } := by
  refine h.extended (.append ha hphi) ?_ ((ha.hasBlock_eq _).trans h.current)
  refine h.formed.toGrounded.appended ha hfair hnew ?_
  intro hf x c v hv
  exact (ha.lasting_iff v).2 ((h.formed.lasting (hfair hf)).2 x c v hv)

lemma terminate (h : b.Sound fair) {f : Func} {t : Terminator}
    (ht : b.func.Terminated f b.current t) (hopen : ∀ s ∈ t.successors, b.isSealed s = false)
    (hfair : fair' → fair) (hnew : fair' → ∀ v ∈ t.operands, b.func.Lasting v) :
    { b with draft := { b.draft with func := f } }.Sound fair' ∧
      b.Fixed { b with draft := { b.draft with func := f } } :=
  h.extended (.terminate ht hopen) (h.formed.toGrounded.terminated ht hfair hnew)
    ((ht.hasBlock_eq _).trans h.current)

end Sound

/-! ## The calls -/

/-- What a call hands on: the builder is sound if all was fair so far and the values last, and
what was sealed stays as it is. -/
def HandsOn (fair : Prop) (b : Builder) (c : Call) (b' : Builder) : Prop :=
  b'.Sound (fair ∧ ∀ v ∈ c.values, b.func.Lasting v) ∧ b.Fixed b'

lemma onDraft_yields {α : Type} {x : Work Draft α} {Q : α → Draft → Prop} (h : x.Yields b.draft Q) :
    (onDraft x).Yields b fun a b' => Q a b'.draft ∧ b'.current = b.current := by
  unfold Work.Yields at *
  rw [Recording.onDraft_run]
  cases hrun : x.run b.draft with
  | ok a d =>
    rw [hrun] at h
    exact ⟨h, rfl⟩
  | error e d =>
    rw [hrun] at h
    exact h

lemma onDraft_leaves {α : Type} {x : Work Draft α} {Q : Builder → Prop}
    (h : x.Leaves b.draft fun d => Q { b with draft := d }) : (onDraft x).Leaves b Q := by
  unfold Work.Leaves at *
  rw [Recording.onDraft_run]
  cases hrun : x.run b.draft with
  | ok a d =>
    rw [hrun] at h
    exact h
  | error e d =>
    rw [hrun] at h
    exact h

/-! A call does what it is there for, or is refused and changes nothing. -/

lemma switchTo_leaves {Q : Builder → Prop} {c : BlockId} (hrefused : Q b)
    (hQ : b.func.hasBlock c = true → Q { b with current := c }) :
    (Builder.switchTo c).Leaves b Q := by
  unfold Work.Leaves
  rw [Recording.switchTo_run]
  cases hget : b.func.getBlock c with
  | error e => exact fun _ => hrefused
  | ok cc => exact hQ (Option.isSome_iff_exists.2 ⟨cc, Func.block?_of_getBlock hget⟩)

lemma emit_leaves {Q : Builder → Prop} {inst : Inst} (hrefused : Q b)
    (hQ : ∀ i f, b.func.appendInst b.current inst = .ok (i, f) →
      Q { b with draft := { b.draft with func := f } }) : (Builder.emit inst).Leaves b Q := by
  unfold Work.Leaves
  rw [Recording.emit_run]
  cases Builder.checkWidth inst with
  | error e => exact fun _ => hrefused
  | ok _ =>
    by_cases hend : b.isTerminated = true
    · simp only [if_pos hend]
      exact fun _ => hrefused
    · simp only [if_neg hend]
      cases happ : b.func.appendInst b.current inst with
      | error e => exact fun _ => hrefused
      | ok out => exact hQ out.1 out.2 happ

lemma terminate_leaves {Q : Builder → Prop} {t : Terminator} (hrefused : Q b)
    (hQ : ∀ f, b.func.setTerminator b.current t = .ok f →
      (∀ s ∈ t.successors, b.isSealed s = false) →
      Q { b with draft := { b.draft with func := f } }) : (Builder.terminate t).Leaves b Q := by
  unfold Work.Leaves
  rw [Recording.terminate_run]
  cases hfind : t.successors.find? b.isSealed with
  | some s => exact fun _ => hrefused
  | none =>
    cases hterm : b.func.setTerminator b.current t with
    | error e => exact fun _ => hrefused
    | ok f =>
      refine hQ f hterm ?_
      intro s hs
      exact Bool.eq_false_iff.2 (List.find?_eq_none.1 hfind s hs)

/-- What a call leaves is what it is performed to. -/
lemma of_perform {Q : Builder → Prop} (h : c.make.Leaves b Q) (hrun : b.perform c = .ok b') :
    Q b' := by
  unfold Work.Leaves at h
  unfold Builder.perform at hrun
  split at hrun
  · rename_i hmake
    cases hrun
    rw [hmake] at h
    exact h
  · cases hrun
  · rename_i hne hmake
    cases hrun
    rw [hmake] at h
    exact h hne

namespace Sound

/-- A call that is refused changes nothing. -/
lemma refused (h : b.Sound fair) (c : Call) : HandsOn fair b c b :=
  ⟨h.mono And.left, .refl b⟩

lemma switchTo_leaves (h : b.Sound fair) (c : BlockId) :
    (Builder.switchTo c).Leaves b (HandsOn fair b (.switchTo c)) := by
  refine Builder.switchTo_leaves (h.refused _) ?_
  intro hc
  exact ⟨⟨h.formed.mono And.left, h.settled, hc⟩, .refl b⟩

lemma sealBlock_leaves (h : b.Sound fair) (c : BlockId) :
    (Builder.sealBlock c).Leaves b (HandsOn fair b (.sealBlock c)) := by
  apply onDraft_leaves
  refine .of_yields (h.formed.sealBlock h.settled c) ?_
  rintro _ d ⟨hformed, hsettled, hpreds, hblocks, hsealed⟩
  refine ⟨⟨hformed.mono And.left, hsettled, (hblocks _).trans h.current⟩, ?_⟩
  intro c hc
  exact ⟨(hsealed c).2 (.inr hc), hpreds c⟩

lemma useVar_leaves (h : b.Sound fair) (x : Variable) :
    (Builder.useVar x).Leaves b (HandsOn fair b (.use x)) := by
  refine onDraft_leaves (x := Draft.read x b.current) ?_
  refine .of_yields (h.formed.read h.settled (by rintro c ⟨⟩) h.current) ?_
  intro v d hd
  refine ⟨⟨hd.formed.mono And.left, hd.settled, (hd.kept.hasBlock _).trans h.current⟩, ?_⟩
  intro c hc
  exact ⟨(hd.kept.isSealed c).trans hc, hd.kept.preds c⟩

lemma emit_leaves (h : b.Sound fair) (inst : Inst) (hphi : inst.isPhi = false) :
    (Builder.emit inst).Leaves b (HandsOn fair b (.emit inst hphi)) :=
  Builder.emit_leaves (h.refused _) fun _ _ ha =>
    h.emit (Func.appendInst_ok ha).2.2 hphi And.left And.right

lemma terminate_leaves (h : b.Sound fair) (t : Terminator) :
    (Builder.terminate t).Leaves b (HandsOn fair b (.leave t)) :=
  Builder.terminate_leaves (h.refused _) fun _ ht hopen =>
    h.terminate (Func.setTerminator_ok ht) hopen And.left And.right

/-- Every call hands on what it found. -/
lemma make_leaves (h : b.Sound fair) (c : Call) : c.make.Leaves b (HandsOn fair b c) := by
  cases c with
  | createBlock => exact ⟨h.createBlock.1.mono And.left, h.createBlock.2⟩
  | switchTo c => exact h.switchTo_leaves c
  | sealBlock c => exact h.sealBlock_leaves c
  | define x v =>
    have hlast : (fair ∧ ∀ u ∈ [v], b.func.Lasting u) → b.func.Lasting v :=
      fun hf => hf.2 v List.mem_cons_self
    exact ⟨h.bind And.left hlast x b.current, .refl b⟩
  | use x => exact (h.useVar_leaves x).map
  | emit inst hphi => exact (h.emit_leaves inst hphi).map
  | leave t => exact h.terminate_leaves t

lemma perform (h : b.Sound fair) (hrun : b.perform c = .ok b') : HandsOn fair b c b' :=
  of_perform (h.make_leaves c) hrun

/-- A sequence of calls hands on what it found. -/
lemma play {calls : List Call} (h : b.Sound fair)
    (hrun : calls.foldlM Builder.perform b = .ok b') :
    b'.Sound (fair ∧ b.givesLasting calls = true) ∧ b.Fixed b' := by
  induction calls generalizing b fair with
  | nil =>
    cases hrun
    exact ⟨h.mono And.left, .refl _⟩
  | cons c rest ih =>
    rw [List.foldlM_cons] at hrun
    obtain ⟨b₁, hfirst, hrest⟩ := except_bind_ok.1 hrun
    obtain ⟨h₁, hfixed₁⟩ := h.perform hfirst
    obtain ⟨h₂, hfixed₂⟩ := ih h₁ hrest
    refine ⟨h₂.mono ?_, hfixed₁.trans hfixed₂⟩
    rintro ⟨hfair, hgives⟩
    obtain ⟨hvalues, hgives⟩ := givesLasting_cons hgives
    exact ⟨⟨hfair, hvalues⟩, hgives b₁ hfirst⟩

end Sound

/-! ## Every state that can come about -/

/-- The phis of a builder between two calls. -/
structure PhisInOrder (b : Builder) : Prop where
  /-- Phis of sealed blocks have one operand for each predecessor. -/
  complete : ∀ c cc, b.func.block? c = some cc → b.isSealed c = true → ∀ i ∈ cc.phis,
    ∃ node, b.func.phi? i = some node ∧ node.blocks = cc.preds ∧ cc.preds.Nodup
  /-- No phi of a sealed block is trivial. -/
  needed : ∀ c cc, b.func.block? c = some cc → b.isSealed c = true → ∀ i ∈ cc.phis,
    ∀ node, b.func.phi? i = some node → node.trivial? i = none
  /-- The phis of an unsealed block are its placeholders. -/
  pending : ∀ c cc, b.func.block? c = some cc → b.isSealed c = false → ∀ i,
    i ∈ cc.phis ↔ ∃ x, (x, i) ∈ b.draft.vars.pendingAt c
  /-- Placeholders have no operands. -/
  empty : ∀ c cc, b.func.block? c = some cc → b.isSealed c = false → ∀ i ∈ cc.phis,
    b.func.phi? i = some .empty

lemma Sound.phisInOrder (h : b.Sound fair) : b.PhisInOrder := by
  have hopen : ∀ {c}, b.isSealed c = false → ¬ b.draft.Closed none c := by
    rintro c hc (hsealed | ⟨⟨⟩⟩)
    rw [show b.draft.vars.isSealed c = false from hc] at hsealed
    cases hsealed
  have hmerges : ∀ {c cc i}, b.func.block? c = some cc → b.isSealed c = true → i ∈ cc.phis →
      b.func.Merges i c cc.preds := by
    intro c cc i hc hsealed hi
    have hm := h.formed.complete c cc hc (.inl hsealed) i hi List.not_mem_nil
    exact Func.preds_of_block hc ▸ hm
  refine ⟨?_, ?_, ?_, ?_⟩
  · intro c cc hc hsealed i hi
    obtain ⟨node, hnode, hblocks⟩ := (hmerges hc hsealed hi).phi?
    exact ⟨node, hnode, hblocks, Func.preds_of_block hc ▸ h.formed.predsOnce c⟩
  · intro c cc hc hsealed i hi node hnode
    have hfree := h.formed.not_guarded (hmerges hc hsealed hi) (.inl hsealed)
    exact h.settled i (Func.mem_phiIds.2 ⟨c, cc, hc, hi⟩) hfree List.not_mem_nil node hnode
  · intro c cc hc hunsealed i
    constructor
    · intro hi
      obtain ⟨⟨x, j⟩, he, rfl⟩ := h.formed.waiting c cc hc (hopen hunsealed) i hi
      exact ⟨x, he⟩
    · rintro ⟨x, he⟩
      obtain ⟨-, -, -, cc', hc', hi⟩ := h.formed.pending c (x, i) he
      rw [show b.draft.func.block? c = some cc from hc] at hc'
      cases hc'
      exact hi
  · intro c cc hc hunsealed i hi
    obtain ⟨e, he, rfl⟩ := h.formed.waiting c cc hc (hopen hunsealed) i hi
    exact (h.formed.pending c e he).2.1.phi?_empty

/-- Whatever calls are made of a builder, the phis are in order afterwards, no later call changes
the predecessors of a block that is sealed by then, and if no call was given a value that names a
removed instruction, then nothing names one. -/
theorem calls_keep_order {name : String} {numArgs : Nat} {calls : List Call} {b : Builder}
    (hcalls : calls.foldlM perform (.new name numArgs) = .ok b) :
    b.PhisInOrder ∧
    (∀ (more : List Call) (b' : Builder), more.foldlM perform b = .ok b' → ∀ c,
      b.isSealed c = true → b'.isSealed c = true ∧ b'.func.preds c = b.func.preds c) ∧
    ((Builder.new name numArgs).givesLasting calls = true → b.func.OperandsLast ∧
      ∀ x c v, b.draft.vars.value? x c = some v → b.func.Lasting v) := by
  obtain ⟨hsound, -⟩ := (Sound.new name numArgs).play hcalls
  refine ⟨hsound.phisInOrder, ?_, ?_⟩
  · intro more b' hmore
    exact (hsound.play hmore).2
  · intro hgives
    exact hsound.formed.lasting ⟨trivial, hgives⟩

/-- Counts `x` up to `y`. The phis of both in the loop are placeholders until it is sealed; the one
for `y` is trivial then. The way out is still open when `x` is read there. -/
def countUp : List Call :=
  [ .createBlock, .createBlock, .createBlock,
    .define ⟨0⟩ (.int 0),
    .define ⟨1⟩ (.arg 0),
    .leave (.jump ⟨1⟩),
    .switchTo ⟨1⟩,
    .use ⟨0⟩,
    .use ⟨1⟩,
    .emit (.compare .slt (.inst ⟨0⟩) (.inst ⟨1⟩)) rfl,
    .leave (.branch (.inst ⟨2⟩) ⟨2⟩ ⟨3⟩),
    .sealBlock ⟨2⟩,
    .switchTo ⟨2⟩,
    .emit (.binary .add (.inst ⟨0⟩) (.int 1)) rfl,
    .define ⟨0⟩ (.inst ⟨3⟩),
    .leave (.jump ⟨1⟩),
    .sealBlock ⟨1⟩,
    .switchTo ⟨3⟩,
    .use ⟨0⟩ ]

/-- Counting up leaves the builder in order, with a phi in the loop that is sealed, one that is gone
and a placeholder behind the loop. A jump back to the loop is refused from then on. -/
theorem countUp_in_order : ∃ b b', countUp.foldlM perform (.new "countUp" 1) = .ok b ∧
    [Call.leave (.jump ⟨1⟩), .sealBlock ⟨3⟩].foldlM perform b = .ok b' ∧
    (b.func.preds ⟨1⟩, b.isSealed ⟨1⟩, b.isSealed ⟨3⟩) = ([⟨0⟩, ⟨2⟩], true, false) ∧
    (b.func.phi? ⟨0⟩, b.func.phi? ⟨1⟩, b.func.phi? ⟨4⟩) =
      (some ⟨[⟨⟨0⟩, .int 0⟩, ⟨⟨2⟩, .inst ⟨3⟩⟩]⟩, none, some .empty) ∧
    b.PhisInOrder ∧ b'.func.preds ⟨1⟩ = [⟨0⟩, ⟨2⟩] ∧ b.func.OperandsLast := by
  have hseen : (countUp.foldlM perform (.new "countUp" 1)).map (fun b =>
      ((b.func.preds ⟨1⟩, b.isSealed ⟨1⟩, b.isSealed ⟨3⟩),
        (b.func.phi? ⟨0⟩, b.func.phi? ⟨1⟩, b.func.phi? ⟨4⟩))) =
      .ok (([⟨0⟩, ⟨2⟩], true, false),
        (some ⟨[⟨⟨0⟩, .int 0⟩, ⟨⟨2⟩, .inst ⟨3⟩⟩]⟩, none, some .empty)) := by
    decide +kernel
  have hends : ((countUp ++ [Call.leave (.jump ⟨1⟩), .sealBlock ⟨3⟩]).foldlM perform
      (.new "countUp" 1)).map (fun _ => ()) = .ok () := by
    decide +kernel
  have hgives : (Builder.new "countUp" 1).givesLasting countUp = true := by
    decide +kernel
  rw [List.foldlM_append] at hends
  cases hcalls : countUp.foldlM perform (.new "countUp" 1) with
  | error e =>
    rw [hcalls] at hseen
    cases hseen
  | ok b =>
    rw [hcalls] at hseen hends
    change ([Call.leave (.jump ⟨1⟩), .sealBlock ⟨3⟩].foldlM perform b).map _ = _ at hends
    cases hmore : [Call.leave (.jump ⟨1⟩), .sealBlock ⟨3⟩].foldlM perform b with
    | error e =>
      rw [hmore] at hends
      cases hends
    | ok b' =>
      obtain ⟨hgraph, hphis⟩ := Prod.mk.inj (Except.ok.inj hseen)
      obtain ⟨hpreds, hsealed⟩ := Prod.mk.inj hgraph
      obtain ⟨horder, hfixed, hlast⟩ := calls_keep_order hcalls
      have hkept := (hfixed _ b' hmore ⟨1⟩ (Prod.mk.inj hsealed).1).2
      exact ⟨b, b', rfl, hmore, hgraph, hphis, horder, hkept.trans hpreds, (hlast hgives).1⟩

end Builder

end SsaBackend
