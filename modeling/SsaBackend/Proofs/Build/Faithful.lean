import SsaBackend.Proofs.Build.Playing
import SsaBackend.Proofs.Build.Telling

/-!
# Recordings that render a program

A recording becomes a program `S` if nothing in `S` contradicts what was recorded so far, and
`S` supplies the results that were used. Such a program may be the one that the script ends
with, and also the one that was told up to now. Whatever a recording becomes, its draft renders
what was told of it, and its answers hold the results of their calls: `Recording.Faithful`. Every
call keeps that (`Faithful.step`), and so does every script (`Faithful.play`).
-/

namespace SsaBackend

open Program
open Moment (content result operand)

namespace Recording

variable {r r' : Recording} {c : Call} {S : Program} {w : World} {N N' : Naming S}

/-! ## What a recording becomes -/

/-- `S` goes on from what was recorded, and supplies the results that were used. -/
structure Becomes (r : Recording) (S : Program) : Prop where
  leads : r.program.Leads S
  closed : ∀ b, r.builder.isSealed b = true → ∀ p, S.Edge p b → r.program.Edge p b
  supplies : ∀ k π, r.program.Uses k π → ∃ u i, S.MadeAt k u i ∧ S.Dom (u, i + 1) π

/-- What the later recording becomes, the earlier one does. -/
lemma Becomes.back (h : r'.Becomes S) (hcont : r.Continues r') : r.Becomes S := by
  refine ⟨⟨hcont.begins.trans h.leads.toBegins, h.leads.once, h.leads.entry⟩, ?_, ?_⟩
  · intro b hb p hp
    exact hcont.closed b hb p (h.closed b (hcont.isSealed b hb) p hp)
  · intro k π hk
    exact h.supplies k π (hcont.begins.uses hk)

/-- What was told so far is a program of its own: it has fewer ways, and all the results it
uses. -/
lemma Becomes.self (h : r.Becomes S) (horder : r.InOrder) : r.Becomes r.program := by
  refine ⟨⟨.refl _, horder.numbered.once, ?_⟩, fun _ _ _ hp => hp, ?_⟩
  · intro p hp
    exact h.leads.entry p (h.leads.edge hp)
  · intro k π hk
    obtain ⟨u, i, hmade, hdom⟩ := h.supplies k π hk
    obtain ⟨u', i', hmade'⟩ := horder.numbered.supplied k π hk
    have heq := h.leads.once k u i u' i' hmade (h.leads.madeAt hmade')
    cases heq
    exact ⟨u, i, hmade', h.leads.dom hdom⟩

/-! ## Rendering -/

/-- The draft renders the program, and every answer holds the result of its call. -/
structure Renders (w : World) (N : Naming S) (r : Recording) : Prop where
  draft : r.builder.draft.Renders w r.program N
  answered : ∀ (k : InstId) v, r.answers[k.index]?.join = some v →
    ∃ u i, S.MadeAt k u i ∧ N.Holds w v (result k) (u, i + 1)

namespace Renders

/-- Values with the answers put in hold what they stand for, at every point that the program
supplies. -/
lemma holds_fill (h : r.Renders w N) (hS : S.Once) {v : Value} {π : Place}
    (hv : ∀ k, v = .inst k → (r.answers[k.index]?.join).isSome = true ∧
      ∃ u i, S.MadeAt k u i ∧ S.Dom (u, i + 1) π) :
    N.Holds w (Call.fill r.answers v) (operand w v) π := by
  cases v with
  | inst k =>
    obtain ⟨hsome, u, i, hmade, hdom⟩ := hv k rfl
    obtain ⟨u', hu'⟩ := Option.isSome_iff_exists.1 hsome
    obtain ⟨u₁, i₁, hmade₁, hholds⟩ := h.answered k u' hu'
    have heq := hS k u i u₁ i₁ hmade hmade₁
    cases heq
    have hfill : Call.fill r.answers (.inst k) = u' := by
      show (r.answers[k.index]?.join).getD .undef = u'
      rw [hu']
      rfl
    rw [hfill]
    exact hholds.of_dom hS hmade hdom
  | const _ | arg _ | undef =>
    refine ⟨?_, fun m _ => rfl⟩
    intro i hi
    cases hi

/-- The answers go on holding when the draft changes and nothing is answered. -/
lemma quiet (h : r.Renders w N) (hle : N.Le N') {b : Builder} {P : Program}
    (hdraft : b.draft.Renders w P N') : (r.next b none P).Renders w N' := by
  refine ⟨hdraft, ?_⟩
  intro k v hv
  rcases answer_cases hv with hv | ⟨-, he⟩
  · obtain ⟨u, i, hmade, hholds⟩ := h.answered k v hv
    exact ⟨u, i, hmade, hholds.mono hle⟩
  · cases he

/-- An answer holds the result of its call from its statement on. -/
lemma answer (h : r.Renders w N) (hle : N.Le N') {b : Builder} {P : Program} {v : Value}
    {u : BlockId} {i : Nat} (hdraft : b.draft.Renders w P N') (hmade : S.MadeAt r.nextCall u i)
    (hv : N'.Holds w v (result r.nextCall) (u, i + 1)) : (r.next b (some v) P).Renders w N' := by
  refine ⟨hdraft, ?_⟩
  intro k v' hv'
  rcases answer_cases hv' with hv' | ⟨rfl, he⟩
  · obtain ⟨u, i, hmade, hholds⟩ := h.answered k v' hv'
    exact ⟨u, i, hmade, hholds.mono hle⟩
  · cases he
    exact ⟨u, i, hmade, hv⟩

end Renders

/-- Whatever the recording becomes, it renders what was told of it. -/
def Faithful (w : World) (r : Recording) : Prop :=
  ∀ S, r.Becomes S → ∃ N : Naming S, r.Renders w N

namespace Faithful

/-- At the beginning nothing is there that could be wrong. -/
lemma start (w : World) (name : String) (numArgs : Nat) :
    (start name numArgs).Faithful w := by
  intro S hS
  have hinst := Func.inst?_new name numArgs
  have hedge : ∀ p b, ¬ ({} : Program).Edge p b := by
    intro p b h
    obtain ⟨t, ht, -⟩ := h
    cases ht
  refine ⟨.empty, ⟨⟨?_, ?_, ?_, ?_, ?_, ?_, ?_, ?_, ?_, ?_, ?_, ?_⟩, ?_⟩, ?_⟩
  · intro i l hl
    cases hl
  · intro i k b j hl
    cases hl
  · intro i i' k b j hl
    cases hl
  · -- no instruction has been made
    intro i p hp
    cases (hinst i).symm.trans hp
  · intro i b node hp
    cases (hinst i).symm.trans hp
  · intro i b node hp
    cases (hinst i).symm.trans hp
  · intro i b node hp
    cases (hinst i).symm.trans hp
  · intro i hi
    cases hi
  · -- the entry is the only block, and nothing was told for it
    intro b bb hb
    rw [Func.block?_new hb]
    rfl
  · intro b bb hb
    rw [Func.block?_new hb]
    exact ⟨id, rfl, fun t ht => by cases ht⟩
  · intro b p
    refine ⟨?_, fun h => absurd h (hedge p b)⟩
    intro hp
    change p ∈ ((Func.new name numArgs).block? b).elim [] (·.preds) at hp
    cases hb : (Func.new name numArgs).block? b with
    | none =>
      rw [hb] at hp
      cases hp
    | some bb =>
      rw [hb, Func.block?_new hb] at hp
      cases hp
  · intro b p hp
    exact absurd hp (hedge p b)
  · refine ⟨?_, ?_, ?_, ?_, ?_, rfl⟩
    · intro x b v hv
      cases hv
    · intro x b _ u hu
      cases hu
    · intro b e he
      cases he
    · intro n m hm
      cases hm
    · -- only the entry is sealed
      intro b hb p hp
      rcases Bindings.isSealed_markSealed.1 hb with rfl | hb
      · exact absurd hp (hS.leads.entry p)
      · cases hb
  · intro k v hv
    cases hv

/-- The operands of a statement that is told are held where it stands. -/
lemma holds_operands (h : r.Renders w N) (hallow : r.allows c = true) {s : Stmt}
    (hS : r'.Becomes S) (hr' : r'.program = r.program.add r.current s)
    (hc : c.values = s.operands) :
    ∀ v ∈ s.operands, N.Holds w (Call.fill r.answers v) (operand w v)
      (r.program.final r.current) := by
  intro v hv
  apply h.holds_fill hS.leads.once
  intro k hk
  subst hk
  refine ⟨answered_of_allows hallow (hc ▸ hv), hS.supplies k _ ?_⟩
  rw [hr']
  exact .inl ⟨s, stmt_add_self .., hv⟩

/-- The statement that is told stands in the program at the end of what was told before. -/
lemma stmt_told {s : Stmt} (hS : r'.Becomes S) (hr' : r'.program = r.program.add r.current s) :
    (S.stmts r.current)[r.program.length r.current]? = some s := by
  apply hS.leads.stmt
  rw [hr']
  exact stmt_add_self ..

/-- A call that is in order keeps a recording faithful. -/
lemma step (h : r.Faithful w) (horder : r.InOrder) (hallow : r.allows c = true)
    (hout : Outcome r c r') :
    r'.Faithful w := by
  intro S hS
  obtain ⟨-, hcont⟩ := horder.step hallow hout
  have hback := hS.back hcont
  obtain ⟨N, hN⟩ := h S hback
  have honce := hback.leads.once
  cases hout with
  | createBlock =>
    exact ⟨N, hN.quiet (.refl N) ⟨hN.draft.func.addBlock horder.passage_nextBlock, hN.draft.vars⟩⟩
  | switchTo hb => exact ⟨N, hN.quiet (.refl N) hN.draft⟩
  | @sealBlock b d hrun =>
    have hfinal := hS.closed b (Draft.isSealed_of_sealBlock hrun)
    obtain ⟨N', hle, hd⟩ := (hN.draft.sealBlock hback.leads hfinal).ok hrun
    exact ⟨N', hN.quiet hle hd⟩
  | @define x v =>
    have hv := holds_operands hN hallow hS rfl rfl v (List.mem_singleton_self v)
    refine ⟨N, hN.quiet (.refl N) ⟨hN.draft.func.tell rfl, ?_⟩⟩
    exact hN.draft.vars.define honce (stmt_told hS rfl) hv
  | @use x v d hrun =>
    obtain ⟨e, he⟩ := horder.current
    have hs := stmt_told hS rfl
    have hread := hN.draft.read hback.leads x (Func.hasBlock_of_outline he)
    obtain ⟨N', hd, hlater, hv⟩ := hread.ok hrun
    refine ⟨N', hN.answer hlater.names ⟨hd.func.tell rfl, ?_⟩ ⟨_, hs, rfl⟩ (hv.read honce hs)⟩
    exact hd.vars.tell honce hs (by intro y u hu; cases hu)
  | @emit inst hphi f hopen happ =>
    have hs := stmt_told hS rfl
    have hlegal : (Label.code r.nextCall r.current (r.program.length r.current)).Legal S :=
      ⟨inst, hs⟩
    have hops := holds_operands hN hallow hS rfl rfl
    have hle := Naming.Le.set N hlegal hN.draft.func.label_nextInst
    refine ⟨N.set r.builder.func.nextInst _ hlegal, hN.answer hle ⟨?_, ?_⟩ ⟨_, hs, rfl⟩ ?_⟩
    · exact hN.draft.func.emit hlegal happ rfl hphi hops
    · exact (hN.draft.vars.mono hle).tell honce hs (by intro y u hu; cases hu)
    · exact .of_code (Naming.label_set_self ..)
  | @leave t f hopen hterm =>
    have hnone := horder.terminator?_current (isTerminated_of_terminated hterm)
    have hend : (r.program.close r.current t).terminator? r.current = some t := by
      rw [terminator?_close, if_pos rfl]
    have hfinal : S.final r.current = r.program.final r.current := by
      rw [hS.leads.final_eq hend]
      exact final_close ..
    refine ⟨N, hN.quiet (.refl N) ⟨hN.draft.func.leave hterm hnone ?_, hN.draft.vars.leave hnone⟩⟩
    intro v hv
    apply hN.holds_fill honce
    intro k hk
    subst hk
    refine ⟨answered_of_allows hallow hv, hS.supplies k _ (.inr ⟨t, hend, ?_, hv⟩)⟩
    rw [hfinal]
    exact (final_close ..).symm
  | refused => exact ⟨N, hN.quiet (.refl N) hN.draft⟩
  | @sealRefused b e d hrun hne =>
    -- a block may be sealed when the program ends as it is, and then sealing is not refused
    obtain ⟨N', hN'⟩ := h r.program (hback.self horder)
    have hseal := hN'.draft.sealBlock (b := b) (hback.self horder).leads fun _ hp => hp
    exact absurd (hseal.error hrun) hne
  | @useRefused x e d hrun hne =>
    obtain ⟨e', he⟩ := horder.current
    have hread := hN.draft.read hback.leads x (Func.hasBlock_of_outline he)
    exact absurd (hread.error hrun) hne

/-- A script whose calls are all in order keeps a recording faithful. -/
lemma play (h : r.Faithful w) (horder : r.InOrder) {script : List Call}
    (hscript : r.allowsAll script = true) (hplay : script.foldlM perform r = .ok r') :
    r'.Faithful w := by
  induction script generalizing r with
  | nil =>
    cases hplay
    exact h
  | cons c rest ih =>
    obtain ⟨r₁, hc, hrest⟩ := except_bind_ok.1 hplay
    obtain ⟨hallow, hnext⟩ := allowsAll_cons hscript
    have hout := outcome_of_perform hc
    exact ih (h.step horder hallow hout) (horder.step hallow hout).1 (hnext r₁ hc) hrest

end Faithful

/-! ## Finishing -/

/-- Blocks that are still unsealed at the end are sealed then. -/
lemma sealLate_yields {P : Program} {d : Draft} (h : d.Renders w P N) (hP : P.Leads S) {b : BlockId}
    (hfinal : ∀ p, S.Edge p b → P.Edge p b) :
    (Builder.sealLate b).Yields d fun _ d' => ∃ N' : Naming S, d'.Renders w P N' := by
  unfold Builder.sealLate
  apply Work.Yields.get_bind
  split
  · -- the journal is all that changes before the block is sealed
    have hnoted : { d with
        journal := d.journal.push (.inFunction d.func.name (.sealedAtFinish b)) }.Renders w P N :=
      ⟨h.func, h.vars⟩
    refine (hnoted.sealBlock hP hfinal).mono ?_
    intro _ d' hd'
    obtain ⟨N', -, hN'⟩ := hd'
    exact ⟨N', hN'⟩
  · exact ⟨N, h⟩

/-- The function that a faithful recording is finished to renders its program, and passes the
checks. -/
lemma Faithful.finish (h : r.Faithful w) (hself : r.Becomes r.program) {f : Func}
    (hf : Builder.finish.result r.builder = .ok f) :
    f.verify = .ok () ∧ ∃ (N : Naming r.program) (G : List InstId), f.Renders w r.program N G := by
  obtain ⟨N, hN⟩ := h r.program hself
  unfold Work.result at hf
  split at hf
  · rename_i f' b hrun
    cases hf
    unfold Builder.finish at hrun
    rw [onDraft_run] at hrun
    split at hrun
    · rename_i g d hd
      cases hrun
      rw [Work.get_bind_ok] at hd
      obtain ⟨_, d₁, hloop, hd⟩ := Work.bind_ok.1 hd
      rw [Work.get_bind_ok] at hd
      obtain ⟨_, hverify, hd⟩ := Work.ofExcept_bind_ok.1 hd
      cases hd
      have hall := Work.Yields.forM (f := Builder.sealLate)
        (fun _ d => ∃ N : Naming r.program, d.Renders w r.program N)
        (fun b _ d hd => sealLate_yields hd.choose_spec hself.leads fun _ hp => hp)
        (s := r.builder.draft) r.builder.draft.func.blockIds ⟨N, hN.draft⟩
      obtain ⟨N', hN'⟩ := hall.ok hloop
      exact ⟨hverify, N', _, hN'.func⟩
    · cases hrun
  · cases hf

end Recording

end SsaBackend
