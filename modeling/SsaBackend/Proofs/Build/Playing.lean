import SsaBackend.Proofs.Build.Outcome
import SsaBackend.Proofs.Build.Rendering
import SsaBackend.Proofs.Build.Steady

/-!
# Playing a script

What holds of a recording from beginning to end, call by call, whatever the variables mean. It
stays in order (`Recording.InOrder`), and it is continued in a way that the past foretells:
blocks that are complete stay as they are, and sealed blocks gain no predecessors
(`Recording.Continues`).
-/

namespace SsaBackend

open Program

namespace Recording

variable {r r' r'' : Recording} {c : Call}

/-! ## Order -/

/-- Results are numbered by calls that were made, each once. Whatever was answered or is used
as an operand is made somewhere. -/
structure Numbered (answers : List (Option Value)) (P : Program) : Prop where
  below : ∀ k u i, P.MadeAt k u i → k.index < answers.length
  once : P.Once
  answered : ∀ k : InstId, answers[k.index]?.join.isSome = true → ∃ u i, P.MadeAt k u i
  supplied : ∀ k π, P.Uses k π → ∃ u i, P.MadeAt k u i

/-- An answer is an earlier one or the last one. -/
lemma answer_cases {answers : List (Option Value)} {a : Option Value} {v : Value} {k : InstId}
    (h : (answers ++ [a])[k.index]?.join = some v) :
    answers[k.index]?.join = some v ∨ (k = ⟨answers.length⟩ ∧ a = some v) := by
  rcases Nat.lt_trichotomy k.index answers.length with hk | hk | hk
  · rw [List.getElem?_append_left hk] at h
    exact .inl h
  · rw [hk, List.getElem?_concat_length] at h
    exact .inr ⟨InstId.index_inj.1 hk, h⟩
  · rw [List.getElem?_eq_none (by rw [List.length_append, List.length_singleton]; omega)] at h
    cases h

namespace Numbered

variable {answers : List (Option Value)} {P : Program} {b : BlockId}

lemma start : Numbered [] {} := by
  have hnone : ∀ k u i, ¬ ({} : Program).MadeAt k u i := by
    intro k u i h
    obtain ⟨s, hs, -⟩ := h
    cases hs
  refine ⟨?_, ?_, ?_, ?_⟩
  · intro k u i h
    exact absurd h (hnone k u i)
  · intro k u i u' i' h
    exact absurd h (hnone k u i)
  · intro k h
    cases h
  · intro k π h
    rcases h with ⟨s, hs, -⟩ | ⟨t, ht, -⟩
    · cases hs
    · cases ht

/-- A call may tell nothing and answer nothing. -/
lemma quiet (h : Numbered answers P) : Numbered (answers ++ [none]) P := by
  refine ⟨?_, h.once, ?_, h.supplied⟩
  · intro k u i hk
    have := h.below k u i hk
    rw [List.length_append]
    omega
  · intro k hk
    obtain ⟨v, hv⟩ := Option.isSome_iff_exists.1 hk
    rcases answer_cases hv with hv | ⟨-, he⟩
    · exact h.answered k (by rw [hv]; rfl)
    · cases he

/-- A statement makes at most the result that has the number of its call. -/
lemma tell (h : Numbered answers P) (hnone : P.terminator? b = none) {a : Option Value} {s : Stmt}
    (hs : ∀ k, s.result? = some k → k = ⟨answers.length⟩)
    (ha : a.isSome = true → s.result? = some ⟨answers.length⟩)
    (hops : ∀ k, Value.inst k ∈ s.operands → answers[k.index]?.join.isSome = true) :
    Numbered (answers ++ [a]) (P.add b s) := by
  have hkept : ∀ k, (∃ u i, P.MadeAt k u i) → ∃ u i, (P.add b s).MadeAt k u i := by
    intro k hk
    obtain ⟨u, i, s', hs', hk⟩ := hk
    exact ⟨u, i, s', stmt_add hs', hk⟩
  -- the number of the call is new
  have hfresh : ∀ u i, ¬ P.MadeAt ⟨answers.length⟩ u i := by
    intro u i hk
    exact Nat.lt_irrefl _ (h.below _ u i hk)
  refine ⟨?_, ?_, ?_, ?_⟩
  · intro k u i hk
    rw [List.length_append]
    rcases madeAt_add hk with hk | ⟨-, hk⟩
    · have := h.below k u i hk
      omega
    · rw [hs k hk]
      exact Nat.lt_succ_self _
  · intro k u i u' i' hk hk'
    rcases madeAt_add hk with hk | ⟨he, hres⟩
    · rcases madeAt_add hk' with hk' | ⟨-, hres⟩
      · exact h.once k u i u' i' hk hk'
      · exact absurd (hs k hres ▸ hk) (hfresh u i)
    · rcases madeAt_add hk' with hk' | ⟨he', -⟩
      · exact absurd (hs k hres ▸ hk') (hfresh u' i')
      · rw [he, he']
  · intro k hk
    obtain ⟨v, hv⟩ := Option.isSome_iff_exists.1 hk
    rcases answer_cases hv with hv | ⟨rfl, he⟩
    · exact hkept k (h.answered k (by rw [hv]; rfl))
    · exact ⟨b, P.length b, s, stmt_add_self P b s, ha (by rw [he]; rfl)⟩
  · intro k π hk
    rcases uses_add hnone hk with hk | ⟨-, hk⟩
    · exact hkept k (h.supplied k π hk)
    · exact hkept k (h.answered k (hops k hk))

lemma close (h : Numbered answers P) {t : Terminator}
    (hops : ∀ k, Value.inst k ∈ t.operands → answers[k.index]?.join.isSome = true) :
    Numbered (answers ++ [none]) (P.close b t) := by
  have hmade : ∀ k u i, (P.close b t).MadeAt k u i ↔ P.MadeAt k u i := by
    intro k u i
    unfold MadeAt
    rw [stmts_close]
  have hquiet := h.quiet
  refine ⟨?_, ?_, ?_, ?_⟩
  · intro k u i hk
    exact hquiet.below k u i ((hmade k u i).1 hk)
  · intro k u i u' i' hk hk'
    exact h.once k u i u' i' ((hmade k u i).1 hk) ((hmade k u' i').1 hk')
  · intro k hk
    simp only [hmade]
    exact hquiet.answered k hk
  · intro k π hk
    simp only [hmade]
    rcases uses_close hk with hk | ⟨-, hk⟩
    · exact h.supplied k π hk
    · exact h.answered k (hops k hk)

end Numbered

/-- The numbers are in order; the program says nothing about blocks that are not there, and has
the ends that the function has. -/
structure InOrder (r : Recording) : Prop where
  numbered : Numbered r.answers r.program
  absent : ∀ b, r.builder.func.outline b = none → r.program.passage b = {}
  ended : ∀ b e, r.builder.func.outline b = some e → (r.program.terminator? b).isSome = e
  current : ∃ e, r.builder.func.outline r.current = some e

namespace InOrder

lemma start (name : String) (numArgs : Nat) : (start name numArgs).InOrder := by
  refine ⟨.start, fun _ _ => rfl, ?_, ⟨false, rfl⟩⟩
  intro b e he
  obtain ⟨bb, hbb, rfl⟩ := Option.map_eq_some_iff.1 he
  rw [Func.block?_new hbb]
  rfl

/-- The block at the insertion point is open in the program if it is in the function. -/
lemma terminator?_current (h : r.InOrder) (hopen : r.builder.isTerminated = false) :
    r.program.terminator? r.current = none := by
  obtain ⟨e, he⟩ := h.current
  have hend := h.ended _ e he
  have hfalse : e = false := by
    unfold Builder.isTerminated at hopen
    rw [Func.isSome_terminator?] at hopen
    change (r.builder.func.outline r.current).getD false = false at hopen
    rw [he] at hopen
    exact hopen
  rw [hfalse] at hend
  exact Option.not_isSome_iff_eq_none.1 (Bool.eq_false_iff.1 hend)

/-- A call that tells nothing and leaves the blocks as they are keeps the order. -/
lemma quiet (h : r.InOrder) {b : Builder}
    (hout : ∀ c, b.func.outline c = r.builder.func.outline c)
    (hcur : ∃ e, r.builder.func.outline b.current = some e) :
    (r.next b none r.program).InOrder := by
  refine ⟨h.numbered.quiet, ?_, ?_, ?_⟩
  · intro c hc
    exact h.absent c ((hout c).symm.trans hc)
  · intro c e hc
    exact h.ended c e ((hout c).symm.trans hc)
  · obtain ⟨e, he⟩ := hcur
    exact ⟨e, (hout b.current).trans he⟩

/-- A statement is told of the block at the insertion point. -/
lemma tell (h : r.InOrder) {b : Builder} {a : Option Value} {s : Stmt}
    (hnumbered : Numbered (r.answers ++ [a]) (r.program.add r.current s))
    (hout : ∀ c, b.func.outline c = r.builder.func.outline c) (hcur : b.current = r.current) :
    (r.next b a (r.program.add r.current s)).InOrder := by
  obtain ⟨e₀, he₀⟩ := h.current
  refine ⟨hnumbered, ?_, ?_, ?_⟩
  · intro c hc
    change b.func.outline c = none at hc
    rw [hout] at hc
    have hne : c ≠ r.current := by
      intro heq
      rw [heq, he₀] at hc
      cases hc
    show (r.program.add r.current s).passage c = {}
    rw [passage_add, if_neg hne]
    exact h.absent c hc
  · intro c e hc
    show ((r.program.add r.current s).terminator? c).isSome = e
    rw [terminator?_add]
    exact h.ended c e ((hout c).symm.trans hc)
  · refine ⟨e₀, ?_⟩
    show b.func.outline b.current = _
    rw [hout, hcur, he₀]

/-- A new block is open, and the program says nothing about it. -/
lemma passage_nextBlock (h : r.InOrder) : r.program.passage r.builder.func.nextBlock = {} := by
  apply h.absent
  unfold Func.outline
  rw [Func.block?_nextBlock]
  rfl

lemma createBlock (h : r.InOrder) :
    (r.next (r.withFunc r.builder.func.addBlock) none r.program).InOrder := by
  refine ⟨h.numbered.quiet, ?_, ?_, ?_⟩
  · intro c hc
    change r.builder.func.addBlock.outline c = none at hc
    rw [Func.outline_addBlock] at hc
    split at hc
    · cases hc
    · exact h.absent c hc
  · intro c e hc
    change r.builder.func.addBlock.outline c = some e at hc
    rw [Func.outline_addBlock] at hc
    split at hc
    · rename_i heq
      cases hc
      show (r.program.passage c).terminator.isSome = false
      rw [heq, h.passage_nextBlock]
      rfl
    · exact h.ended c e hc
  · obtain ⟨e, he⟩ := h.current
    show ∃ e, r.builder.func.addBlock.outline r.current = some e
    rw [Func.outline_addBlock]
    split
    · exact ⟨false, rfl⟩
    · exact ⟨e, he⟩

/-- A block is completed in the function and in the program. -/
lemma leave (h : r.InOrder) {t t' : Terminator} {f : Func}
    (hnumbered : Numbered (r.answers ++ [none]) (r.program.close r.current t))
    (hterm : r.builder.func.Terminated f r.current t') :
    (r.next (r.withFunc f) none (r.program.close r.current t)).InOrder := by
  have hout := Func.outline_terminated hterm
  refine ⟨hnumbered, ?_, ?_, ?_⟩
  · intro c hc
    change f.outline c = none at hc
    rw [hout] at hc
    split at hc
    · cases hc
    · rename_i hne
      show (r.program.close r.current t).passage c = {}
      rw [passage_close, if_neg hne]
      exact h.absent c hc
  · intro c e hc
    change f.outline c = some e at hc
    rw [hout] at hc
    show ((r.program.close r.current t).terminator? c).isSome = e
    rw [terminator?_close]
    split at hc
    · rename_i heq
      cases hc
      rw [if_pos heq]
      rfl
    · rename_i hne
      rw [if_neg hne]
      exact h.ended c e hc
  · refine ⟨true, ?_⟩
    show f.outline r.current = some true
    rw [hout, if_pos rfl]

end InOrder

/-! ## Continuation -/

/-- How the later recording follows from the earlier one: more may have been told, but nothing of
blocks that were complete, and no edge to a block that was sealed. -/
structure Continues (r r' : Recording) : Prop where
  begins : r.program.Begins r'.program
  isSealed : ∀ b, r.builder.isSealed b = true → r'.builder.isSealed b = true
  closed : ∀ b, r.builder.isSealed b = true → ∀ p, r'.program.Edge p b → r.program.Edge p b

namespace Continues

lemma refl (r : Recording) : r.Continues r := ⟨.refl _, fun _ h => h, fun _ _ _ h => h⟩

lemma trans (h : r.Continues r') (h' : r'.Continues r'') : r.Continues r'' := by
  refine ⟨h.begins.trans h'.begins, fun b hb => h'.isSealed b (h.isSealed b hb), ?_⟩
  intro b hb p hp
  exact h.closed b hb p (h'.closed b (h.isSealed b hb) p hp)

/-- Nothing is told. -/
lemma quiet {b : Builder} {a : Option Value}
    (hsealed : ∀ c, r.builder.isSealed c = true → b.isSealed c = true) :
    r.Continues (r.next b a r.program) := ⟨.refl _, hsealed, fun _ _ _ h => h⟩

/-- A statement is told of the open block at the insertion point. -/
lemma tell {b : Builder} {a : Option Value} {s : Stmt}
    (hopen : r.program.terminator? r.current = none)
    (hsealed : ∀ c, r.builder.isSealed c = true → b.isSealed c = true) :
    r.Continues (r.next b a (r.program.add r.current s)) :=
  ⟨.add hopen s, hsealed, fun _ _ _ hp => (edge_add ..).1 hp⟩

end Continues

/-- A block that could be completed was open. -/
lemma isTerminated_of_terminated {f : Func} {t : Terminator}
    (h : r.builder.func.Terminated f r.current t) : r.builder.isTerminated = false := by
  obtain ⟨bb, hbb, hend⟩ := h.was
  show ((r.builder.func.block? r.current).bind (·.terminator)).isSome = false
  rw [hbb, Option.bind_some, hend]
  rfl

/-- A call that is in order keeps the order, and continues the recording. -/
lemma InOrder.step (h : r.InOrder) (hallow : r.allows c = true) (hout : Outcome r c r') :
    r'.InOrder ∧ r.Continues r' := by
  cases hout with
  | createBlock => exact ⟨h.createBlock, .quiet fun _ hc => hc⟩
  | switchTo hb =>
    exact ⟨h.quiet (fun _ => rfl) (Func.outline_of_hasBlock hb), .quiet fun _ hc => hc⟩
  | @sealBlock b d hrun =>
    have hsteady := (Draft.keepsSteady_sealBlock b).of_ok hrun
    exact ⟨h.quiet hsteady.outline h.current, .quiet hsteady.isSealed⟩
  | @sealRefused b e d hrun _ =>
    have hsteady := (Draft.keepsSteady_sealBlock b).of_error hrun
    exact ⟨h.quiet hsteady.outline h.current, .quiet hsteady.isSealed⟩
  | @define x v =>
    have hopen := h.terminator?_current (isTerminated_of_allows hallow rfl)
    have hnumbered := h.numbered.tell hopen (a := none) (s := .assign x v)
      (fun k hk => by cases hk) (fun ha => by cases ha) fun k hk => answered_of_allows hallow hk
    exact ⟨h.tell hnumbered (fun _ => rfl) rfl, .tell hopen fun _ hc => hc⟩
  | @use x v d hrun =>
    have hopen := h.terminator?_current (isTerminated_of_allows hallow rfl)
    have hsteady := (Draft.keepsSteady_read x r.current).of_ok hrun
    have hnumbered := h.numbered.tell hopen (a := some v) (s := .read r.nextCall x)
      (fun k hk => (Option.some.inj hk).symm) (fun _ => rfl) fun k hk => by cases hk
    exact ⟨h.tell hnumbered hsteady.outline rfl, .tell hopen hsteady.isSealed⟩
  | @useRefused x e d hrun _ =>
    have hsteady := (Draft.keepsSteady_read x r.current).of_error hrun
    exact ⟨h.quiet hsteady.outline h.current, .quiet hsteady.isSealed⟩
  | @emit inst hphi f hopen happ =>
    have hnone := h.terminator?_current hopen
    have hnumbered := h.numbered.tell hnone (a := some (.inst r.builder.func.nextInst))
      (s := .compute r.nextCall inst) (fun k hk => (Option.some.inj hk).symm) (fun _ => rfl)
      fun k hk => answered_of_allows hallow hk
    exact ⟨h.tell hnumbered (Func.outline_appended happ) rfl, .tell hnone fun _ hc => hc⟩
  | @leave t f hopen hterm =>
    have hnone := h.terminator?_current (isTerminated_of_terminated hterm)
    have hnumbered := h.numbered.close (b := r.current) (t := t)
      fun k hk => answered_of_allows hallow hk
    refine ⟨h.leave hnumbered hterm, ⟨.close hnone t, fun _ hc => hc, ?_⟩⟩
    -- no sealed block gains a predecessor
    intro b hb p hp
    rcases (edge_close hnone).1 hp with hp | ⟨-, hmem⟩
    · exact hp
    · rw [hopen b hmem] at hb
      cases hb
  | refused => exact ⟨h.quiet (fun _ => rfl) h.current, .quiet fun _ hc => hc⟩

/-- A script whose calls are all in order keeps the order, and continues the recording. -/
lemma InOrder.play (h : r.InOrder) {script : List Call} (hscript : r.allowsAll script = true)
    (hplay : script.foldlM perform r = .ok r') : r'.InOrder ∧ r.Continues r' := by
  induction script generalizing r with
  | nil =>
    cases hplay
    exact ⟨h, .refl _⟩
  | cons c rest ih =>
    obtain ⟨r₁, hc, hrest⟩ := except_bind_ok.1 hplay
    obtain ⟨hallow, hnext⟩ := allowsAll_cons hscript
    obtain ⟨h₁, hcont⟩ := h.step hallow (outcome_of_perform hc)
    obtain ⟨h', hcont'⟩ := ih h₁ (hnext r₁ hc) hrest
    exact ⟨h', hcont.trans hcont'⟩

end Recording

end SsaBackend
