import SsaBackend.Proofs.Build.Calls
import SsaBackend.Proofs.Build.Furnished
import SsaBackend.Proofs.Build.Halting
import SsaBackend.Proofs.Build.Playing

/-!
# Values that can still be used

A front end puts together what it was given: constants, the arguments, and what the builder
answered. A read may answer with a phi, and a later read or seal may fold that phi away. The
builder then follows up all the operands and bindings it knows of, but not a value that the front
end still holds (`Recording.finish_refuses_folded`). A script that gives only values whose
instructions are there at the time, and completes all the blocks it makes, is never refused: it is
finished to a function, or goes on for ever (`Recording.finish_of_usable`). It goes on for ever only
if a placeholder is to be filled by a read that comes to a ring of blocks with one predecessor each,
none of which binds the variable. Nothing leads into such a ring, and a read inside it goes round and
round. Other rings are no hindrance.
-/

namespace SsaBackend

/-! ## Finishing -/

namespace Draft

open Func

/-- The blocks of `d` are sealed one after another, and `rest` are to come. -/
structure Closing (d : Draft) (rest : List BlockId) (d' : Draft) : Prop where
  formed : d'.Formed True [] none
  settled : d'.Settled []
  furnished : d'.Furnished d.func
  steady : Steady d d'
  preds : ∀ c, d'.func.preds c = d.func.preds c
  hasBlock : ∀ c, d'.func.hasBlock c = d.func.hasBlock c
  closed : ∀ c, d.func.hasBlock c = true → c ∈ rest ∨ d'.vars.isSealed c = true

variable {d d₁ : Draft} {b : BlockId} {rest : List BlockId}

/-- With the next block sealed, and those that were, the rest are to come. -/
lemma closed_next {d₂ : Draft}
    (h : ∀ c, d.func.hasBlock c = true → c ∈ b :: rest ∨ d₁.vars.isSealed c = true)
    (hb : d₂.vars.isSealed b = true)
    (hstay : ∀ c, d₁.vars.isSealed c = true → d₂.vars.isSealed c = true) :
    ∀ c, d.func.hasBlock c = true → c ∈ rest ∨ d₂.vars.isSealed c = true := by
  intro c hc
  rcases h c hc with hmem | hsealed
  · rcases List.mem_cons.1 hmem with rfl | hmem
    · exact .inr hb
    · exact .inl hmem
  · exact .inr (hstay c hsealed)

/-- The next block is sealed, if that ends. -/
lemma Closing.sealLate (h : Closing d (b :: rest) d₁) :
    (Builder.sealLate b).Yields d₁ fun _ => Closing d rest := by
  apply Work.Yields.get_bind
  by_cases hsealed : d₁.vars.isSealed b = true
  · rw [hsealed]
    exact .of_pure { h with closed := closed_next h.closed hsealed fun _ hc => hc }
  · rw [Bool.eq_false_iff.2 hsealed]
    -- the journal is all that changes before the block is sealed
    let noted : Draft := { d₁ with
      journal := d₁.journal.push (.inFunction d₁.func.name (.sealedAtFinish b)) }
    have hformed : noted.Formed True [] none := { h.formed with }
    have hsettled : noted.Settled [] := h.settled
    have hfurnished : noted.Furnished d.func := { h.furnished with }
    refine (hformed.sealBlock hsettled b).with_run.mono ?_
    rintro _ d₂ ⟨⟨hformed₂, hsettled₂, hpreds, hblocks, hstay⟩, hrun⟩
    have hsteady : Steady noted d₂ := (keepsSteady_sealBlock b).of_ok hrun
    refine ⟨hformed₂, hsettled₂, (hfurnished.sealBlock b).ok hrun, ?_, ?_, ?_, ?_⟩
    · exact h.steady.trans { hsteady with }
    · exact fun c => (hpreds c).trans (h.preds c)
    · exact fun c => (hblocks c).trans (h.hasBlock c)
    · exact closed_next h.closed ((hstay b).2 (.inl rfl)) fun c hc => (hstay c).2 (.inr hc)

/-- It ends unless some read for a placeholder there comes round. -/
lemma Closing.sealLate_halts (h : Closing d (b :: rest) d₁)
    (hcircles : d₁.vars.isSealed b = false → ¬ d₁.Circles b) : (Builder.sealLate b).Halts d₁ := by
  apply Work.Halts.get_bind
  by_cases hsealed : d₁.vars.isSealed b = true
  · rw [hsealed]
    exact .of_pure
  · have hopen := Bool.eq_false_iff.2 hsealed
    rw [hopen]
    let noted : Draft := { d₁ with
      journal := d₁.journal.push (.inFunction d₁.func.name (.sealedAtFinish b)) }
    have hformed : noted.Formed True [] none := { h.formed with }
    exact hformed.sealBlock_halts h.settled (hcircles hopen)

/-- When all blocks are sealed and complete, the checks find nothing. -/
lemma Closing.verify (h : Closing d [] d₁)
    (hended : ∀ b ∈ d.func.blockIds, (d.func.terminator? b).isSome = true) :
    d₁.func.verify = .ok () := by
  have hedges := h.furnished.func.edges
  refine verify_of_wired ⟨?_, ?_, ?_, ?_, ?_, h.furnished.func.bodies⟩ ⟨?_, ?_⟩ ?_
  · exact Option.isSome_iff_exists.1 hedges.entry
  · intro c cc hc
    have hthere : d.func.hasBlock c = true :=
      (h.hasBlock c).symm.trans (Option.isSome_iff_exists.2 ⟨cc, hc⟩)
    have hend := hended c (mem_blockIds.2 hthere)
    rw [isSome_terminator?, ← h.steady.outline, ← isSome_terminator?] at hend
    unfold terminator? at hend
    rw [hc] at hend
    exact Option.isSome_iff_exists.1 hend
  · intro c s ss hs hedge
    exact preds_of_block hs ▸ (hedges.linked c s).1 hedge
  · intro c cc hc
    exact preds_of_block hc ▸ hedges.once c
  · intro c cc hc i hi
    have hthere : d.func.hasBlock c = true :=
      (h.hasBlock c).symm.trans (Option.isSome_iff_exists.2 ⟨cc, hc⟩)
    have hsealed := (h.closed c hthere).resolve_left List.not_mem_nil
    obtain ⟨node, hnode, hblocks⟩ :=
      h.formed.complete c cc hc (.inl hsealed) i hi List.not_mem_nil
    exact ⟨node, hnode, .of_eq (hblocks.trans (preds_of_block hc))⟩
  · exact fun c s => (hedges.linked c s).2
  · exact fun c s hs => Option.isSome_iff_exists.1 (hedges.hasBlock_succ hs)
  · intro c cc hc v hv
    obtain ⟨hlast, -⟩ := h.formed.lasting trivial
    rcases mem_blockOperands.1 hv with ⟨i, -, p, hp, hv⟩ | ⟨t, ht, hv⟩
    · exact (h.furnished.func.insts i p hp v hv).knows (hlast.insts i p hp v hv)
    · exact (h.furnished.func.ends c cc hc t ht v hv).knows (hlast.ends c cc hc t ht v hv)

end Draft

/-- Finishing the function comes to a block that is not sealed, and some read for a placeholder there
comes to a block that a walk back comes round to again. -/
def Builder.CirclesLate (b : Builder) : Prop :=
  ∃ before c after d, b.func.blockIds = before ++ c :: after ∧
    (before.forM Builder.sealLate).run b.draft = .ok ⟨⟩ d ∧ d.vars.isSealed c = false ∧ d.Circles c

namespace Recording

variable {r r' : Recording} {c : Call} {v : Value}

/-! ## What a front end may give -/

/-- The front end has the value: it is a constant, `undef`, an argument of the function, or the
answer of an earlier call. -/
def has (r : Recording) : Value → Bool
  | .inst k => (r.answers[k.index]?.join).isSome
  | .arg n => n < r.builder.func.numArgs
  | _ => true

/-- The front end has the value, and an instruction that it names has not been removed. -/
def canUse (r : Recording) (v : Value) : Bool :=
  r.has v && (Call.fill r.answers v).inst?.all fun i => (r.builder.func.inst? i).isSome

/-- Makes one call, with values that are `allowed` only, and goes on if it ends well. -/
def proceed (allowed : Recording → Value → Bool) (r : Recording) (c : Call) : Option Recording :=
  if c.values.all (allowed r) then
    match (c.work r.answers).run r.builder with
    | .ok a b => some (r.next b a (c.note r.program r.nextCall r.current))
    | .error _ _ => none
  else none

lemma outcome_of_proceed {allowed : Recording → Value → Bool}
    (h : r.proceed allowed c = some r') :
    (∀ v ∈ c.values, allowed r v = true) ∧ Outcome r c r' := by
  unfold proceed at h
  split at h
  · rename_i hall
    split at h
    · rename_i a b hrun
      cases h
      exact ⟨List.all_eq_true.1 hall, outcome_of_ok hrun⟩
    · cases h
  · cases h

/-! ## What one call hands to the next -/

/-- The builder is sound, and all that it holds and has answered is supplied. -/
structure Ready (r : Recording) : Prop where
  sound : r.builder.Sound True
  furnished : r.builder.draft.Furnished r.builder.func
  answered : ∀ (k : InstId) v, r.answers[k.index]?.join = some v → r.builder.func.Supplies v

namespace Ready

lemma start (name : String) (numArgs : Nat) : (start name numArgs).Ready := by
  refine ⟨.new name numArgs, ⟨.new name numArgs, .refl _, ?_⟩, ?_⟩
  · rintro x b v ⟨⟩
  · rintro k v ⟨⟩

/-- A value that can be used is supplied and lasts. -/
lemma of_canUse (h : r.Ready) (hv : r.canUse v = true) :
    r.builder.func.Supplies (Call.fill r.answers v) ∧
      r.builder.func.Lasting (Call.fill r.answers v) := by
  unfold canUse at hv
  rw [Bool.and_eq_true] at hv
  obtain ⟨hhas, hthere⟩ := hv
  constructor
  · cases v with
    | inst k =>
      obtain ⟨u, hu⟩ := Option.isSome_iff_exists.1 hhas
      have hfill : Call.fill r.answers (.inst k) = u := by
        show (r.answers[k.index]?.join).getD .undef = u
        rw [hu]
        rfl
      rw [hfill]
      exact h.answered k u hu
    | arg n =>
      show n < r.builder.func.numArgs
      simpa [has] using hhas
    | const _ | undef => trivial
  · rintro i hi ⟨-, hnone⟩
    rw [hi] at hthere
    change (r.builder.func.inst? i).isSome = true at hthere
    rw [hnone] at hthere
    cases hthere

/-- So are all the values that a call is given. -/
lemma of_values (h : r.Ready) (hc : ∀ v ∈ c.values, r.canUse v = true) :
    ∀ v ∈ c.values.map (Call.fill r.answers),
      r.builder.func.Supplies v ∧ r.builder.func.Lasting v := by
  intro v hv
  obtain ⟨u, hu, rfl⟩ := List.mem_map.1 hv
  exact h.of_canUse (hc u hu)

lemma next (h : r.Ready) {b : Builder} (hs : b.Sound True)
    (hf : b.draft.Furnished r.builder.func) {a : Option Value}
    (ha : ∀ v, a = some v → b.func.Supplies v) (P : Program) : (r.next b a P).Ready := by
  refine ⟨hs, ⟨hf.func, .refl _, hf.bound⟩, ?_⟩
  intro k v hv
  rcases answer_cases hv with hv | ⟨-, he⟩
  · exact (h.answered k v hv).enlarged hf.enlarged
  · exact ha v he

/-- A call that is given values that can be used hands on what it found. -/
lemma step (h : r.Ready) (hc : ∀ v ∈ c.values, r.canUse v = true) (hout : Outcome r c r') :
    r'.Ready := by
  have hvalues := h.of_values hc
  cases hout with
  | createBlock =>
    refine h.next h.sound.createBlock.1 ?_ (by rintro v ⟨⟩) _
    exact h.furnished.setFunc h.furnished.func.addBlock ⟨Nat.le_refl _, rfl⟩
  | @switchTo b hb =>
    exact h.next (b := { r.builder with current := b }) ⟨h.sound.formed, h.sound.settled, hb⟩
      h.furnished (by rintro v ⟨⟩) _
  | @sealBlock b d hrun =>
    obtain ⟨hformed, hsettled, -, hblocks, -⟩ :=
      (h.sound.formed.sealBlock h.sound.settled b).ok hrun
    exact h.next (b := r.withDraft d) ⟨hformed, hsettled, (hblocks _).trans h.sound.current⟩
      ((h.furnished.sealBlock b).ok hrun) (by rintro v ⟨⟩) _
  | @define x v =>
    obtain ⟨hsupplied, hlast⟩ := hvalues _ (List.mem_singleton_self _)
    exact h.next (h.sound.bind id (fun _ => hlast) x _) (h.furnished.bind hsupplied x _)
      (by rintro v ⟨⟩) _
  | @use x v d hrun =>
    have hd := (h.sound.formed.read h.sound.settled (by rintro c ⟨⟩) h.sound.current).ok hrun
    obtain ⟨hfurnished, hv⟩ := (h.furnished.read x _).ok hrun
    refine h.next (b := r.withDraft d)
      ⟨hd.formed, hd.settled, (hd.kept.hasBlock _).trans h.sound.current⟩ hfurnished ?_ _
    rintro u ⟨⟩
    exact hv
  | @emit inst hphi f hopen happ =>
    change ∀ v ∈ inst.operands.map _, _ at hvalues
    rw [← Inst.operands_mapOperands] at hvalues
    have hnot := (Inst.isPhi_mapOperands (Call.fill r.answers) inst).trans hphi
    refine h.next (h.sound.emit happ hnot id fun _ v hv => (hvalues v hv).2).1 (h.furnished.setFunc
      (happ.furnished h.furnished.func fun v hv => (hvalues v hv).1) happ.enlarged) ?_ _
    rintro u ⟨⟩
    show r.builder.func.instCapacity < f.instCapacity
    rw [happ.capacity]
    exact Nat.lt_succ_self _
  | @leave t f hopen hterm =>
    change ∀ v ∈ t.operands.map _, _ at hvalues
    rw [← Terminator.operands_mapOperands] at hvalues
    have hsuccs : ∀ s ∈ (t.mapOperands (Call.fill r.answers)).successors,
        r.builder.isSealed s = false := by
      rw [Terminator.successors_mapOperands]
      exact hopen
    exact h.next (h.sound.terminate hterm hsuccs id fun _ v hv => (hvalues v hv).2).1
      (h.furnished.setFunc (hterm.furnished h.furnished.func fun v hv => (hvalues v hv).1)
        hterm.enlarged) (by rintro v ⟨⟩) _
  | refused => exact h.next h.sound h.furnished (by rintro v ⟨⟩) _
  | @sealRefused b e d hrun hne =>
    -- seals and reads may go on for ever, but they are not refused
    exact absurd ((h.sound.formed.sealBlock h.sound.settled b).error hrun) hne
  | @useRefused x e d hrun hne =>
    have hread := h.sound.formed.read h.sound.settled (by rintro c ⟨⟩) h.sound.current (x := x)
    exact absurd (hread.error hrun) hne

lemma play (h : r.Ready) {script : List Call} (hplay : script.foldlM (proceed canUse) r = some r') :
    r'.Ready := by
  induction script generalizing r with
  | nil =>
    cases hplay
    exact h
  | cons c rest ih =>
    obtain ⟨r₁, hc, hrest⟩ := Option.bind_eq_some_iff.1 hplay
    obtain ⟨hvalues, hout⟩ := outcome_of_proceed hc
    exact ih (h.step hvalues hout) hrest

/-- The blocks of a builder that is ready are sealed one after another, or some read goes round for
ever. -/
lemma sealRest (h : r.Ready) :
    (∃ d, (r.builder.func.blockIds.forM Builder.sealLate).run r.builder.draft = .ok ⟨⟩ d ∧
      Draft.Closing r.builder.draft [] d) ∨
    r.builder.CirclesLate ∧
      ∃ d, (r.builder.func.blockIds.forM Builder.sealLate).run r.builder.draft = .error .endless d := by
  have hstart : Draft.Closing r.builder.draft r.builder.func.blockIds r.builder.draft :=
    ⟨h.sound.formed, h.sound.settled, h.furnished, .refl _, fun _ => rfl, fun _ => rfl,
      fun c hc => .inl (Func.mem_blockIds.2 hc)⟩
  cases hrun : (r.builder.func.blockIds.forM Builder.sealLate).run r.builder.draft with
  | ok _ d =>
    exact .inl ⟨d, rfl, (Work.Yields.forM (Draft.Closing r.builder.draft)
      (fun _ _ _ hb => hb.sealLate) _ hstart).ok hrun⟩
  | error e d =>
    -- up to the block that is not sealed all goes well
    obtain ⟨before, c, after, d₁, hsplit, hbefore, hc⟩ := Work.forM_error hrun
    have hd₁ : Draft.Closing r.builder.draft (c :: after) d₁ := by
      refine (Work.Yields.forM (fun rest => Draft.Closing r.builder.draft (rest ++ c :: after))
        (fun _ _ _ hb => hb.sealLate) _ ?_).ok hbefore
      exact hsplit ▸ hstart
    obtain rfl := hd₁.sealLate.error hc
    refine .inr ⟨⟨before, c, after, d₁, hsplit, hbefore, ?_⟩, d, rfl⟩
    by_contra hnot
    exact hd₁.sealLate_halts (fun hopen hcircles => hnot ⟨hopen, hcircles⟩) d hc

/-- A builder that is ready and has no incomplete blocks is finished, or some read goes round for
ever. -/
lemma finish (h : r.Ready)
    (hended : ∀ b ∈ r.builder.func.blockIds, (r.builder.func.terminator? b).isSome = true) :
    (∃ f, Builder.finish.result r.builder = .ok f ∧ f.verify = .ok ()) ∨
      Builder.finish.result r.builder = .error .endless ∧ r.builder.CirclesLate := by
  unfold Work.result Builder.finish
  rw [onDraft_run]
  rcases h.sealRest with ⟨d, hloop, hd⟩ | ⟨hcircles, d, hloop⟩
  · have hrun : (do (← get).func.blockIds.forM Builder.sealLate
                    let f := (← get).func
                    Work.ofExcept f.verify
                    return f : Work Draft Func).run r.builder.draft = .ok d.func d := by
      refine Work.get_bind_ok.2 (Work.bind_ok.2 ⟨_, d, hloop, Work.get_bind_ok.2 ?_⟩)
      exact Work.ofExcept_bind_ok.2 ⟨(), hd.verify hended, rfl⟩
    rw [hrun]
    exact .inl ⟨d.func, rfl, hd.verify hended⟩
  · change (r.builder.draft.func.blockIds.forM Builder.sealLate).run r.builder.draft = _ at hloop
    refine .inr ⟨?_, hcircles⟩
    rw [Work.get_bind_run, EStateM.run_bind, hloop]

end Ready

/-! ## The scripts that can be finished -/

/-- A script whose calls all end well, that gives only values it can use and completes all the
blocks it makes, is finished to a function that passes the checks, or goes on for ever. It goes on
for ever only if some read for a placeholder comes to a ring of sealed blocks with one predecessor
each that do not bind the variable. -/
theorem finish_of_usable {name : String} {numArgs : Nat} {script : List Call}
    (hplay : script.foldlM (proceed canUse) (.start name numArgs) = some r)
    (hended : ∀ b ∈ r.builder.func.blockIds, (r.builder.func.terminator? b).isSome = true) :
    (∃ f, Builder.finish.result r.builder = .ok f ∧ f.verify = .ok ()) ∨
      Builder.finish.result r.builder = .error .endless ∧ r.builder.CirclesLate :=
  ((Ready.start name numArgs).play hplay).finish hended

/-- Counts `x` up to `y`, in a loop that is sealed only when both have been read in it, and returns
`x` from a block that is never sealed. Beside it a block that nothing leads to goes on to itself. -/
def countTo : List Call :=
  [ .createBlock, .createBlock, .createBlock,
    .define ⟨0⟩ (.int 0),
    .define ⟨1⟩ (.arg 0),
    .leave (.jump ⟨1⟩),
    .switchTo ⟨1⟩,
    .use ⟨0⟩,
    .use ⟨1⟩,
    .emit (.compare .slt (.inst ⟨7⟩) (.inst ⟨8⟩)) rfl,
    .leave (.branch (.inst ⟨9⟩) ⟨2⟩ ⟨3⟩),
    .sealBlock ⟨2⟩,
    .switchTo ⟨2⟩,
    .emit (.binary .add (.inst ⟨7⟩) (.int 1)) rfl,
    .define ⟨0⟩ (.inst ⟨13⟩),
    .leave (.jump ⟨1⟩),
    .sealBlock ⟨1⟩,
    .switchTo ⟨3⟩,
    .use ⟨0⟩,
    .leave (.ret (some (.inst ⟨18⟩))),
    .createBlock,
    .switchTo ⟨4⟩,
    .leave (.jump ⟨4⟩) ]

theorem countTo_finishes : ∃ r, countTo.foldlM (proceed canUse) (.start "countTo" 1) = some r ∧
    (∀ b ∈ r.builder.func.blockIds, (r.builder.func.terminator? b).isSome = true) ∧
    r.builder.func.preds ⟨4⟩ = [⟨4⟩] ∧
    ∃ f, Builder.finish.result r.builder = .ok f ∧ f.verify = .ok () := by
  have hseen : (countTo.foldlM (proceed canUse) (.start "countTo" 1)).map (fun r =>
      (decide (∀ b ∈ r.builder.func.blockIds, (r.builder.func.terminator? b).isSome = true),
        r.builder.func.preds ⟨4⟩, decide (Builder.finish.result r.builder = .error .endless))) =
      some (true, [⟨4⟩], false) := by
    decide +kernel
  obtain ⟨r, hplay, hr⟩ := Option.map_eq_some_iff.1 hseen
  obtain ⟨hended, hring, hends⟩ : _ ∧ _ ∧ _ := by simpa only [Prod.mk.injEq] using hr
  refine ⟨r, hplay, of_decide_eq_true hended, hring, ?_⟩
  exact (finish_of_usable hplay (of_decide_eq_true hended)).resolve_right fun h =>
    of_decide_eq_false hends h.1

/-- The second block goes on to itself or to the third, where a variable is read. The placeholder
there waits for a value that would come from the second block, round and round. -/
def around : List Call :=
  [ .createBlock, .createBlock,
    .leave (.ret none),
    .switchTo ⟨1⟩,
    .leave (.branch (.int 0) ⟨1⟩ ⟨2⟩),
    .switchTo ⟨2⟩,
    .use ⟨0⟩,
    .leave (.ret none) ]

example : (around.foldlM (proceed canUse) (.start "around" 0)).map (fun r =>
    Builder.finish.result r.builder) = some (.error .endless) := by
  decide +kernel

/-- Reads a variable in a block before it is sealed, and uses the answer afterwards. The block has
one predecessor, so the phi that was the answer is folded when the block is sealed. -/
def usesFolded : List Call :=
  [ .createBlock,
    .define ⟨0⟩ (.int 5),
    .leave (.jump ⟨1⟩),
    .switchTo ⟨1⟩,
    .use ⟨0⟩,
    .sealBlock ⟨1⟩,
    .emit (.binary .add (.inst ⟨4⟩) (.int 1)) rfl,
    .leave (.ret none) ]

/-- It is not enough that the values were answered. -/
theorem finish_refuses_folded : ¬ ∀ (name : String) (numArgs : Nat) (script : List Call)
    (r : Recording), script.foldlM (proceed has) (.start name numArgs) = some r →
      (∀ b ∈ r.builder.func.blockIds, (r.builder.func.terminator? b).isSome = true) →
      ∃ f, Builder.finish.result r.builder = .ok f := by
  intro hall
  have hseen : (usesFolded.foldlM (proceed has) (.start "usesFolded" 0)).map (fun r =>
      (decide (∀ b ∈ r.builder.func.blockIds, (r.builder.func.terminator? b).isSome = true),
        Builder.finish.result r.builder)) =
      some (true, .error (.malformed (.inFunction "usesFolded" (.removedOperand ⟨1⟩ ⟨0⟩)))) := by
    decide +kernel
  obtain ⟨r, hplay, hr⟩ := Option.map_eq_some_iff.1 hseen
  obtain ⟨hended, hrefused⟩ := Prod.mk.inj hr
  obtain ⟨f, hf⟩ := hall _ _ usesFolded r hplay (of_decide_eq_true hended)
  rw [hrefused] at hf
  cases hf

end Recording

end SsaBackend
