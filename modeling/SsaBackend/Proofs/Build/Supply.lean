import SsaBackend.Proofs.Build.Usable
import SsaBackend.Proofs.Build.Weaving

/-!
# What is made and supplied for a variable

Along a sequence of calls, `Builder.madeFor` gathers the phis that are made while a variable `x` is
read, and `Builder.suppliedFor` the values that reads of `x` answer with. As long as `x` is assigned
in the entry only, these phis make up a web, and a value that was supplied stays one that some block
binds to `x`, unless the instruction it names is gone (`Builder.Weaves`). Every call hands this on,
one that is refused included (`Builder.Weaves.perform`), and so does finishing
(`Builder.Weaves.finish`).
-/

namespace SsaBackend

namespace Call

/-- The phis that a call makes for `x`: reads of `x` make some, and seals of blocks where
placeholders for `x` wait. -/
def made (x : Variable) (b : Builder) : Call → List InstId
  | use y => Draft.madeBetween x y b.draft ((Builder.useVar y).state b).draft
  | sealBlock c => b.draft.sealMade x c
  | _ => []

/-- What a call answers with if it reads `x`. -/
def supplied (x : Variable) (b : Builder) : Call → List Value
  | use y => if y = x then ((Builder.useVar y).result b).toOption.toList else []
  | _ => []

end Call

/-- The draft with the event that a block is sealed when the function is finished. -/
def Draft.noted (d : Draft) (c : BlockId) : Draft :=
  { d with journal := d.journal.push (.inFunction d.func.name (.sealedAtFinish c)) }

namespace Builder

variable {γ : Type} {x : Variable} {b b' : Builder} {c : Call} {made : List InstId}
  {supplied : List Value} {f : Func}

/-! ## Looking on while calls are made -/

/-- What is gathered along a sequence of calls, when each is looked at before it is made. -/
def gather (look : Builder → Call → List γ) (b : Builder) : List Call → List γ
  | [] => []
  | c :: rest =>
    look b c ++
      match b.perform c with
      | .ok b' => b'.gather look rest
      | .error _ => []

lemma gather_cons (look : Builder → Call → List γ) (h : b.perform c = .ok b')
    (rest : List Call) : b.gather look (c :: rest) = look b c ++ b'.gather look rest := by
  rw [gather, h]

lemma gather_append (look : Builder → Call → List γ) {calls : List Call}
    (h : calls.foldlM perform b = .ok b') (rest : List Call) :
    b.gather look (calls ++ rest) = b.gather look calls ++ b'.gather look rest := by
  induction calls generalizing b with
  | nil =>
    cases h
    rfl
  | cons c calls ih =>
    rw [List.foldlM_cons] at h
    obtain ⟨b₁, hc, hcalls⟩ := except_bind_ok.1 h
    rw [List.cons_append, gather_cons look hc, gather_cons look hc, ih hcalls, List.append_assoc]

/-- A sequence of calls with one among them. -/
lemma exists_of_play {before rest : List Call}
    (h : (before ++ c :: rest).foldlM perform b = .ok b') : ∃ b₁ b₂,
      before.foldlM perform b = .ok b₁ ∧ b₁.perform c = .ok b₂ ∧ rest.foldlM perform b₂ = .ok b' := by
  rw [List.foldlM_append] at h
  obtain ⟨b₁, hbefore, h⟩ := except_bind_ok.1 h
  rw [List.foldlM_cons] at h
  obtain ⟨b₂, hc, hrest⟩ := except_bind_ok.1 h
  exact ⟨b₁, b₂, hbefore, hc, hrest⟩

/-- The phis that a sequence of calls makes for `x`. -/
def madeFor (x : Variable) (b : Builder) (calls : List Call) : List InstId :=
  b.gather (fun b c => c.made x b) calls

/-- The values that the reads of `x` in a sequence of calls answer with. -/
def suppliedFor (x : Variable) (b : Builder) (calls : List Call) : List Value :=
  b.gather (fun b c => c.supplied x b) calls

/-- The phis that are made for `x` while a function is finished. -/
def madeAtFinish (x : Variable) (b : Builder) : List InstId :=
  Work.gather sealLate (fun c d => (d.noted c).sealMade x c) b.func.blockIds b.draft

end Builder

/-! ## What a draft holds of a variable -/

namespace Draft

variable {fair : Prop} {x : Variable} {made : List InstId} {d d' : Draft} {u : Value}

/-- The instruction that the value names is gone, or some block binds the value to `x`. -/
def Holds (x : Variable) (d : Draft) (u : Value) : Prop :=
  (∃ i, u = .inst i ∧ d.func.Gone i) ∨
    ∃ c, d.func.hasBlock c = true ∧ d.vars.value? x c = some u

lemma Holds.evolves {σ : Value → Value} (h : Holds x d u) (hσ : Evolves x σ d d') :
    Holds x d' u := by
  rcases h with ⟨i, rfl, hi⟩ | ⟨c, hc, hu⟩
  · exact .inl ⟨i, rfl, (hσ.gone i hi).1⟩
  · rcases hσ.moved u with hfix | hgone
    · exact .inr ⟨c, hσ.there c hc, hfix ▸ hσ.values c u hu⟩
    · exact .inl hgone

/-- Edits that leave the phis alone keep the web. -/
lemma Spun.extended (h : Spun fair x made d) (he : Extended d d') (hform : d'.Formed fair [] none)
    (hs : d'.Settled []) (hcap : d.func.instCapacity ≤ d'.func.instCapacity)
    (hinst : ∀ i, i.index < d.func.instCapacity → d'.func.inst? i = d.func.inst? i) :
    Spun fair x made d' := by
  refine ⟨hform, hs, h.web.extended he fun i hi => hinst i (h.below i hi), ?_, ?_⟩
  · exact fun i hi => Nat.lt_of_lt_of_le (h.below i hi) hcap
  · rw [he.vars]
    exact h.begun

/-- What happens to other variables does not matter. -/
lemma Spun.bind {y : Variable} (h : Spun fair x made d) (hne : y ≠ x) (b : BlockId) (v : Value)
    (hform : { d with vars := d.vars.bind y b v }.Formed fair [] none) :
    Spun fair x made { d with vars := d.vars.bind y b v } ∧
      Turns x d { d with vars := d.vars.bind y b v } := by
  have hvalues : ∀ c, (d.vars.bind y b v).value? x c = d.vars.value? x c := by
    intro c
    rw [Bindings.value?_bind, if_neg]
    exact fun he => hne he.1.symm
  have hturns : Turns x d { d with vars := d.vars.bind y b v } := .of_vars rfl rfl hvalues
  refine ⟨⟨hform, h.settled, ?_, h.below, hturns.begun h.begun⟩, hturns⟩
  exact h.web.of_same rfl hvalues (fun _ => rfl) (fun _ hc => hc) fun _ _ he => he

/-- The one assignment, in the entry. -/
lemma Spun.define (h : Spun fair x made d) (hnone : ∀ c, d.vars.value? x c = none) (v : Value)
    (hform : { d with vars := d.vars.bind x d.func.entry v }.Formed fair [] none) :
    Spun fair x made { d with vars := d.vars.bind x d.func.entry v } := by
  refine ⟨hform, h.settled, h.web.define hnone v, h.below, .inl ?_⟩
  exact Option.isSome_iff_exists.2 ⟨v, Bindings.value?_bind_self⟩

end Draft

namespace Builder

open Draft (Spun Turns Holds)

variable {x y : Variable} {b b' : Builder} {c : Call} {made : List InstId} {supplied : List Value}
  {f : Func}

/-! ## What one call hands to the next -/

/-- The phis that were made for `x` make up a web, and what was supplied for `x` is held. -/
structure Weaves (x : Variable) (made : List InstId) (supplied : List Value) (b : Builder) :
    Prop where
  spun : Spun False x made b.draft
  current : b.func.hasBlock b.current = true
  held : ∀ u ∈ supplied, Holds x b.draft u

/-- What a call hands on: what it makes and supplies for `x` is added. -/
def PassesOn (x : Variable) (made : List InstId) (supplied : List Value) (b : Builder) (c : Call)
    (b' : Builder) : Prop :=
  b'.Weaves x (made ++ c.made x b) (supplied ++ c.supplied x b) ∧ Turns x b.draft b'.draft

namespace Weaves

lemma sound (h : b.Weaves x made supplied) : b.Sound False :=
  ⟨h.spun.formed, h.spun.settled, h.current⟩

lemma new (name : String) (numArgs : Nat) (x : Variable) :
    (Builder.new name numArgs).Weaves x [] [] := by
  have hsound : (Builder.new name numArgs).Sound False :=
    (Sound.new name numArgs).mono False.elim
  refine ⟨⟨hsound.formed, hsound.settled, ?_, ?_, ?_⟩, hsound.current, ?_⟩
  · refine ⟨?_, ?_, ?_, ?_, ?_⟩
    · exact fun _ _ _ hi => absurd hi List.not_mem_nil
    · exact fun _ _ hi => absurd hi List.not_mem_nil
    · exact fun _ _ hi => absurd hi List.not_mem_nil
    · rintro c v - ⟨⟩
    · rintro c e ⟨⟩
  · exact fun _ hi => absurd hi List.not_mem_nil
  · exact .inr fun _ => rfl
  · exact fun _ hu => absurd hu List.not_mem_nil

lemma passesOn (h : b.Weaves x made supplied) (hspun : Spun False x (made ++ c.made x b) b'.draft)
    (hturns : Turns x b.draft b'.draft) (hcurrent : b'.func.hasBlock b'.current = true)
    (hnew : ∀ u ∈ c.supplied x b, Holds x b'.draft u) : PassesOn x made supplied b c b' := by
  refine ⟨⟨hspun, hcurrent, ?_⟩, hturns⟩
  intro u hu
  rcases List.mem_append.1 hu with hu | hu
  · obtain ⟨σ, hσ⟩ := hturns.evolves
    exact (h.held u hu).evolves hσ
  · exact hnew u hu

/-- A call that makes and supplies nothing for `x`. -/
lemma quiet (h : b.Weaves x made supplied) (hmade : c.made x b = []) (hsup : c.supplied x b = [])
    (hspun : Spun False x made b'.draft) (hturns : Turns x b.draft b'.draft)
    (hcurrent : b'.func.hasBlock b'.current = true) : PassesOn x made supplied b c b' := by
  refine h.passesOn ?_ hturns hcurrent ?_
  · rw [hmade, List.append_nil]
    exact hspun
  · rw [hsup]
    exact fun u hu => absurd hu List.not_mem_nil

/-- Nothing happens. -/
lemma refused (h : b.Weaves x made supplied) (hmade : c.made x b = []) (hsup : c.supplied x b = []) :
    PassesOn x made supplied b c b :=
  h.quiet hmade hsup h.spun (.refl x _) h.current

/-- An edit that leaves the phis alone. -/
lemma extended (h : b.Weaves x made supplied) {g : Func}
    (he : Draft.Extended b.draft { b.draft with func := g })
    (hsound : { b with draft := { b.draft with func := g } }.Sound False)
    (hinst : ∀ i, i.index < b.func.instCapacity → g.inst? i = b.func.inst? i)
    (hσ : Draft.Evolves x id b.draft { b.draft with func := g })
    (hmade : c.made x b = []) (hsup : c.supplied x b = []) :
    PassesOn x made supplied b c { b with draft := { b.draft with func := g } } :=
  h.quiet hmade hsup (h.spun.extended he hsound.formed hsound.settled hσ.capacity hinst)
    ⟨⟨_, hσ⟩, fun hnone => hnone⟩ hsound.current

lemma sealBlock_leaves (h : b.Weaves x made supplied) (c : BlockId) :
    (Builder.sealBlock c).Leaves b (PassesOn x made supplied b (.sealBlock c)) := by
  apply onDraft_leaves
  refine .of_yields (h.spun.sealBlock c) ?_
  rintro _ d ⟨hspun, hturns, hblocks⟩
  refine h.passesOn hspun hturns ((hblocks _).trans h.current) ?_
  exact fun u hu => absurd hu List.not_mem_nil

/-- A read of `x` supplies what the block binds then. -/
lemma useVar_leaves (h : b.Weaves x made supplied)
    (hy : y = x → (b.draft.vars.value? x b.func.entry).isSome = true) :
    (Builder.useVar y).Leaves b (PassesOn x made supplied b (.use y)) := by
  have hread : (Builder.useVar y).Yields b _ := onDraft_yields (h.spun.read h.current hy)
  refine .of_yields hread.with_run ?_
  rintro v b' ⟨⟨⟨hspun, hturns, hblocks, hhere⟩, hcur⟩, hrun⟩
  have hthere : b'.func.hasBlock b.current = true := (hblocks _).trans h.current
  refine h.passesOn ?_ hturns (hcur ▸ hthere) ?_
  · show Spun False x (made ++ Draft.madeBetween x y b.draft ((useVar y).state b).draft) b'.draft
    rw [Work.state_of_ok hrun]
    exact hspun
  · intro u hu
    change u ∈ if y = x then ((useVar y).result b).toOption.toList else [] at hu
    rw [Work.result_ok.2 ⟨_, hrun⟩] at hu
    split at hu
    · rename_i hyx
      obtain rfl := List.mem_singleton.1 hu
      exact .inr ⟨b.current, hthere, hhere hyx⟩
    · exact absurd hu List.not_mem_nil

/-- Every call that does not assign to `x` passes on what it found. -/
lemma make_leaves (h : b.Weaves x made supplied) (c : Call) (hdef : ∀ v, c ≠ .define x v)
    (huse : c = .use x → (b.draft.vars.value? x b.func.entry).isSome = true) :
    c.make.Leaves b (PassesOn x made supplied b c) := by
  cases c with
  | createBlock =>
    exact h.extended (.addBlock b.draft) h.sound.createBlock.1 (fun _ _ => rfl)
      (.addBlock x b.draft) rfl rfl
  | switchTo c =>
    refine switchTo_leaves (h.refused rfl rfl) ?_
    exact fun hc => h.quiet rfl rfl h.spun (.refl x _) hc
  | sealBlock c => exact h.sealBlock_leaves c
  | define y v =>
    have hne : y ≠ x := by
      rintro rfl
      exact hdef v rfl
    have hform : { b.draft with vars := b.draft.vars.bind y b.current v }.Formed False [] none :=
      h.spun.formed.bind False.elim y b.current
    obtain ⟨hspun, hturns⟩ := h.spun.bind hne b.current v hform
    exact h.quiet rfl rfl hspun hturns h.current
  | use y => exact (h.useVar_leaves fun hy => huse (hy ▸ rfl)).map
  | emit inst hphi =>
    refine (emit_leaves (h.refused rfl rfl) ?_).map
    intro _ f hrun
    obtain ⟨-, -, ha⟩ := Func.appendInst_ok hrun
    refine h.extended (.append ha hphi) (h.sound.emit ha hphi id False.elim).1 ?_
      (.appended ha rfl fun _ _ hv => hv) rfl rfl
    intro i hi
    rw [ha.inst, if_neg]
    rintro rfl
    exact Nat.lt_irrefl _ hi
  | leave t =>
    refine terminate_leaves (h.refused rfl rfl) ?_
    intro f hrun hopen
    have ht := Func.setTerminator_ok hrun
    exact h.extended (.terminate ht hopen) (h.sound.terminate ht hopen id False.elim).1
      (fun i _ => ht.inst? i) (.terminated ht x) rfl rfl

lemma perform (h : b.Weaves x made supplied) (hdef : ∀ v, c ≠ .define x v)
    (huse : c = .use x → (b.draft.vars.value? x b.func.entry).isSome = true)
    (hrun : b.perform c = .ok b') : PassesOn x made supplied b c b' :=
  of_perform (h.make_leaves c hdef huse) hrun

/-- The assignment in the entry. What was supplied before can only be gone. -/
lemma define (h : b.Weaves x made supplied) (hnone : ∀ c, b.draft.vars.value? x c = none)
    (v : Value) : { b with draft := { b.draft with
      vars := b.draft.vars.bind x b.func.entry v } }.Weaves x made supplied := by
  have hform : { b.draft with vars := b.draft.vars.bind x b.func.entry v }.Formed False [] none :=
    h.spun.formed.bind False.elim x b.func.entry
  refine ⟨h.spun.define hnone v hform, h.current, ?_⟩
  intro u hu
  rcases h.held u hu with hgone | ⟨c, -, hc⟩
  · exact .inl hgone
  · rw [hnone] at hc
    cases hc

/-- A sequence of calls that does not assign to `x`, and does not read it before it is assigned,
passes on what it found. -/
lemma play {calls : List Call} (h : b.Weaves x made supplied)
    (hdef : ∀ v, Call.define x v ∉ calls)
    (huse : Call.use x ∈ calls → (b.draft.vars.value? x b.func.entry).isSome = true)
    (hrun : calls.foldlM Builder.perform b = .ok b') :
    b'.Weaves x (made ++ b.madeFor x calls) (supplied ++ b.suppliedFor x calls) ∧
      Turns x b.draft b'.draft := by
  induction calls generalizing b made supplied with
  | nil =>
    cases hrun
    unfold madeFor suppliedFor gather
    rw [List.append_nil, List.append_nil]
    exact ⟨h, .refl x _⟩
  | cons c rest ih =>
    rw [List.foldlM_cons] at hrun
    obtain ⟨b₁, hc, hrest⟩ := except_bind_ok.1 hrun
    obtain ⟨h₁, hturns₁⟩ := h.perform (fun v he => hdef v (he ▸ List.mem_cons_self))
      (fun he => huse (he ▸ List.mem_cons_self)) hc
    have hstarted : Call.use x ∈ rest → (b₁.draft.vars.value? x b₁.func.entry).isSome = true :=
      fun hmem => hturns₁.bound _ (huse (List.mem_cons_of_mem _ hmem))
    obtain ⟨h₂, hturns₂⟩ := ih h₁ (fun v hmem => hdef v (List.mem_cons_of_mem _ hmem)) hstarted hrest
    unfold madeFor suppliedFor at *
    rw [gather_cons _ hc, gather_cons _ hc, ← List.append_assoc, ← List.append_assoc]
    exact ⟨h₂, hturns₁.trans hturns₂⟩

end Weaves

/-! ## Finishing -/

/-- The blocks are sealed one after another, and `rest` are to come. -/
structure Finishing (x : Variable) (d : Draft) (made : List InstId) (rest : List BlockId)
    (d' : Draft) : Prop where
  spun : Spun False x made d'
  turns : Turns x d d'
  hasBlock : ∀ c, d'.func.hasBlock c = d.func.hasBlock c
  closed : ∀ c, d.func.hasBlock c = true → c ∈ rest ∨ d'.vars.isSealed c = true

lemma Finishing.sealLate {d d₁ : Draft} {c : BlockId} {rest : List BlockId}
    (h : Finishing x d made (c :: rest) d₁) :
    (Builder.sealLate c).Yields d₁ fun _ =>
      Finishing x d (made ++ (d₁.noted c).sealMade x c) rest := by
  apply Work.Yields.get_bind
  by_cases hsealed : d₁.vars.isSealed c = true
  · have hmade : (d₁.noted c).sealMade x c = [] := if_pos hsealed
    rw [hsealed, hmade, List.append_nil]
    exact .of_pure { h with closed := Draft.closed_next h.closed hsealed fun _ hc => hc }
  · rw [Bool.eq_false_iff.2 hsealed]
    have hnoted : Spun False x made (d₁.noted c) :=
      { h.spun with
        formed := { h.spun.formed with }
        web := h.spun.web.of_same rfl (fun _ => rfl) (fun _ => rfl) (fun _ hc => hc)
          fun _ _ he => he }
    have hjournal : Turns x d₁ (d₁.noted c) := by
      refine ⟨⟨id, .of_vars rfl ?_ fun _ _ hv => hv⟩, fun hnone => hnone⟩
      exact fun e he => Array.mem_push_of_mem _ he
    have hseal := (hnoted.sealBlock c).and (hnoted.formed.sealBlock hnoted.settled c)
    refine Work.Yields.modify_bind (hseal.mono ?_)
    rintro _ d₂ ⟨⟨hspun, hturns, hblocks⟩, -, -, -, -, hstay⟩
    refine ⟨hspun, (h.turns.trans hjournal).trans hturns, ?_, ?_⟩
    · exact fun c => (hblocks c).trans (h.hasBlock c)
    · exact Draft.closed_next h.closed ((hstay c).2 (.inl rfl)) fun e he => (hstay e).2 (.inr he)

/-- Finishing seals all blocks, and the function passes the checks then. -/
lemma Weaves.finish (h : b.Weaves x made supplied) (hrun : Builder.finish.run b = .ok f b') :
    b'.Weaves x (made ++ b.madeAtFinish x) supplied ∧ Turns x b.draft b'.draft ∧ b'.func = f ∧
      f.verify = .ok () ∧ ∀ c, f.hasBlock c = true → b'.isSealed c = true := by
  have hstart : Finishing x b.draft made b.draft.func.blockIds b.draft :=
    ⟨h.spun, .refl x _, fun _ => rfl, fun c hc => .inl (Func.mem_blockIds.2 hc)⟩
  have hloop := Work.Yields.forM_gather (Finishing x b.draft) (fun _ _ _ _ hd => hd.sealLate)
    b.draft.func.blockIds made hstart
  unfold Builder.finish at hrun
  rw [Recording.onDraft_run] at hrun
  split at hrun
  · rename_i g d hdraft
    cases hrun
    obtain ⟨_, d₁, hseals, hchecks⟩ := Work.bind_ok.1 (Work.get_bind_ok.1 hdraft)
    obtain ⟨_, hverify, hanswer⟩ := Work.ofExcept_bind_ok.1 (Work.get_bind_ok.1 hchecks)
    cases hanswer
    have hd := hloop.ok hseals
    refine ⟨⟨hd.spun, (hd.hasBlock _).trans h.current, ?_⟩, hd.turns, rfl, hverify, ?_⟩
    · intro u hu
      obtain ⟨σ, hσ⟩ := hd.turns.evolves
      exact (h.held u hu).evolves hσ
    · intro c hc
      exact (hd.closed c ((hd.hasBlock c).symm.trans hc)).resolve_left List.not_mem_nil
  · cases hrun

end Builder

end SsaBackend
