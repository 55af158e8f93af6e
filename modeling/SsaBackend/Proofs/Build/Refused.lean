import SsaBackend.Proofs.Build.Calls
import SsaBackend.Proofs.Func.Edges

/-!
# Calls that are refused

A builder refuses to move to a block that is not there, to append an instruction of a bad width or
behind the end of a block, and to complete a block twice or with a target that is sealed or not
there (`Builder.refuses`). Whatever was called before, a call is refused exactly then, and it leaves
the builder as it was. Reads and seals are never refused; if they do not return, they go on for
ever.

The edges of a block are put in one by one. That a target is refused only while nothing is put in
yet is part of how a block is completed: `Builder.terminateInPlace` does it step by step, with every
step free to fail, and comes to the same.

## Main statements

- `Builder.terminateInPlace_run`: completing a block step by step never stops half way
- `Builder.failed_calls_change_nothing`: which calls fail, and that nothing comes of them
-/

namespace SsaBackend

/-! ## Step by step -/

section Step

variable {σ α : Type}

/-- Looks for something wrong in a list, and complains of the first. -/
def Work.guardAll (wrong : σ → α → Bool) (complaint : α → Error) (l : List α) : Work σ Unit :=
  l.forM fun a => do if wrong (← get) a then throw (complaint a)

lemma Work.guardAll_run (wrong : σ → α → Bool) (complaint : α → Error) (l : List α) (s : σ) :
    (guardAll wrong complaint l).run s = match l.find? (wrong s) with
      | some a => .error (complaint a) s
      | none => .ok () s := by
  induction l with
  | nil => rfl
  | cons a rest ih =>
    show ((if wrong s a then throw (complaint a) else pure ()) >>= fun _ =>
      guardAll wrong complaint rest : Work σ Unit).run s = _
    cases hwrong : wrong s a with
    | true =>
      rw [List.find?_cons_of_pos hwrong]
      rfl
    | false =>
      rw [List.find?_cons_of_neg (by simp [hwrong]), ← ih]
      rfl

end Step

namespace Func

variable {f : Func} {b : BlockId}

/-- Lets a successor record the block it is entered from. -/
def recordPred (b s : BlockId) : Work Func Unit := do
  set (← Work.ofExcept ((← get).addPred s b))

/-- Puts an end to a block that has none. -/
def putEnd (b : BlockId) (t : Terminator) : Work Func Unit := do
  let bb ← Work.ofExcept ((← get).getBlock b)
  if bb.terminator.isSome then throw (.malformed (.alreadyTerminated b))
  modify (·.modifyBlock b ({ · with terminator := some t }))

/-- Completes a block step by step: its end is put in first, and then its successors record it one
after the other. A step that is refused leaves what was done before it. -/
def completeInPlace (b : BlockId) (t : Terminator) : Work Func Unit := do
  Work.guardAll (fun f s => !f.hasBlock s) (fun s => .malformed (.missingTarget s)) t.successors
  putEnd b t
  t.successors.forM (recordPred b)

lemma putEnd_run (f : Func) (b : BlockId) (t : Terminator) : (putEnd b t).run f =
    match f.getBlock b with
    | .error e => .error e f
    | .ok bb =>
      if bb.terminator.isSome then .error (.malformed (.alreadyTerminated b)) f
      else .ok () (f.modifyBlock b ({ · with terminator := some t })) := by
  show (Work.ofExcept (f.getBlock b) >>= fun bb => do
    if bb.terminator.isSome then throw (.malformed (.alreadyTerminated b))
    modify (·.modifyBlock b ({ · with terminator := some t })) : Work Func Unit).run f = _
  cases f.getBlock b with
  | error e => rfl
  | ok bb =>
    show EStateM.run (if bb.terminator.isSome then _ else _) f = if bb.terminator.isSome then _ else _
    cases bb.terminator.isSome with
    | true => rfl
    | false => rfl

/-- A block that is there records a predecessor without complaint. -/
lemma recordPred_run {s : BlockId} (hs : f.hasBlock s = true) :
    (recordPred b s).run f = .ok () (f.modifyBlock s (·.addPred b)) := by
  obtain ⟨ss, hss⟩ := Option.isSome_iff_exists.1 hs
  have hadd : f.addPred s b = .ok (f.modifyBlock s (·.addPred b)) := by
    unfold addPred getBlock
    rw [hss]
    rfl
  show (Work.ofExcept (f.addPred s b) >>= set : Work Func Unit).run f = _
  rw [hadd]
  rfl

lemma recordAll_run (b : BlockId) (l : List BlockId) (f : Func)
    (hl : ∀ s ∈ l, f.hasBlock s = true) : (l.forM (recordPred b) : Work Func Unit).run f =
      .ok () (l.foldl (fun g s => g.modifyBlock s (·.addPred b)) f) := by
  induction l generalizing f with
  | nil => rfl
  | cons s rest ih =>
    obtain ⟨hs, hrest⟩ := List.forall_mem_cons.1 hl
    show (recordPred b s >>= fun _ => rest.forM (recordPred b)).run f = _
    rw [EStateM.run_bind, recordPred_run hs]
    exact ih _ fun s' hs' => (f.hasBlock_modifyBlock ..).trans (hrest s' hs')

/-- What completing a block that is there comes to. -/
lemma setTerminator_eq {bb : Block} (hb : f.block? b = some bb) (t : Terminator) :
    f.setTerminator b t = match t.successors.find? (!f.hasBlock ·) with
      | some s => .error (.malformed (.missingTarget s))
      | none =>
        if bb.terminator.isSome then .error (.malformed (.alreadyTerminated b))
        else .ok (t.successors.foldl (fun g s => g.modifyBlock s (·.addPred b))
          (f.modifyBlock b ({ · with terminator := some t }))) := by
  unfold setTerminator getBlock
  rw [hb]
  cases t.successors.find? (!f.hasBlock ·) with
  | some s => rfl
  | none =>
    cases hend : bb.terminator with
    | none =>
      simp only [bind, Except.bind, hend]
      rfl
    | some t' =>
      simp only [bind, Except.bind, hend]
      rfl

/-- Completing a block step by step comes to the same as completing it at once, and it is refused
before the first step. -/
lemma completeInPlace_run (f : Func) (b : BlockId) (t : Terminator) :
    (completeInPlace b t).run f = match f.setTerminator b t with
      | .ok g => .ok () g
      | .error e => .error e f := by
  unfold completeInPlace setTerminator
  rw [EStateM.run_bind, Work.guardAll_run]
  cases hfind : t.successors.find? (!f.hasBlock ·) with
  | some s => rfl
  | none =>
    simp only
    rw [EStateM.run_bind, putEnd_run]
    cases f.getBlock b with
    | error e => rfl
    | ok bb =>
      simp only [bind, Except.bind]
      cases bb.terminator.isSome with
      | true => rfl
      | false =>
        refine recordAll_run b t.successors _ fun s hs => ?_
        rw [hasBlock_modifyBlock]
        simpa using List.find?_eq_none.1 hfind s hs

end Func

/-- The error tells what is wrong with a request. -/
def Error.Tells (e : Error) : Prop := (∃ s, e = .sealedBlock s) ∨ ∃ d, e = .malformed d

namespace Builder

variable {fair : Prop} {b b' : Builder} {c : Call} {e : Error}

/-- Work on the function of a builder. -/
def onFunc {α : Type} (w : Work Func α) : Work Builder α := fun b =>
  match w.run b.func with
  | .ok a f => .ok a { b with draft := { b.draft with func := f } }
  | .error e f => .error e { b with draft := { b.draft with func := f } }

lemma onFunc_run {α : Type} (w : Work Func α) (b : Builder) : (onFunc w).run b =
    match w.run b.func with
    | .ok a f => .ok a { b with draft := { b.draft with func := f } }
    | .error e f => .error e { b with draft := { b.draft with func := f } } := rfl

/-- Completes the block at the insertion point step by step. -/
def terminateInPlace (t : Terminator) : Work Builder Unit := do
  Work.guardAll isSealed .sealedBlock t.successors
  let b ← get
  onFunc (Func.completeInPlace b.current t)

/-- No edge is put in before all targets are found to be in order. -/
lemma terminateInPlace_run (t : Terminator) (b : Builder) :
    (terminateInPlace t).run b = (terminate t).run b := by
  unfold terminateInPlace
  rw [EStateM.run_bind, Work.guardAll_run, Recording.terminate_run]
  cases t.successors.find? b.isSealed with
  | some s => rfl
  | none =>
    simp only
    rw [Work.get_bind_run, onFunc_run, Func.completeInPlace_run]
    cases b.func.setTerminator b.current t with
    | error e => rfl
    | ok g => rfl

/-! ## What is refused -/

/-- Whether a call is refused. -/
def refuses (b : Builder) : Call → Bool
  | .switchTo c => !b.func.hasBlock c
  | .emit inst _ => !(checkWidth inst).isOk || b.isTerminated
  | .leave t => b.isTerminated || t.successors.any fun s => b.isSealed s || !b.func.hasBlock s
  | _ => false

/-- Work on a builder is refused if `p` says so: the error tells what is wrong, and the builder is
left as it was. Work that is not refused comes to its end, or goes on for ever if it `walks`. -/
structure RefusedIf (p walks : Bool) {α : Type} (x : Work Builder α) (b : Builder) : Prop where
  refused : p = true → ∃ e, x.run b = .error e b ∧ e.Tells
  accepted : p = false →
    (∃ a b', x.run b = .ok a b') ∨ walks = true ∧ ∃ b', x.run b = .error .endless b'

namespace RefusedIf

variable {α : Type} {x : Work Builder α} {p walks : Bool}

lemma of_error (hp : p = true) (hrun : x.run b = .error e b) (he : e.Tells) :
    RefusedIf p walks x b :=
  ⟨fun _ => ⟨e, hrun, he⟩, fun hfalse => (Bool.false_ne_true (hfalse.symm.trans hp)).elim⟩

lemma of_ok (hp : p = false) {a : α} (hrun : x.run b = .ok a b') : RefusedIf p walks x b :=
  ⟨fun htrue => (Bool.false_ne_true (hp.symm.trans htrue)).elim, fun _ => .inl ⟨a, b', hrun⟩⟩

lemma of_yields {Q : α → Builder → Prop} (hx : x.Yields b Q) : RefusedIf false true x b := by
  refine ⟨fun htrue => (Bool.false_ne_true htrue).elim, fun _ => ?_⟩
  cases hrun : x.run b with
  | ok a b' => exact .inl ⟨a, b', rfl⟩
  | error e b' =>
    obtain rfl := hx.error hrun
    exact .inr ⟨rfl, b', rfl⟩

/-- Dropping the answer changes nothing. -/
lemma drop (h : RefusedIf p walks x b) : RefusedIf p walks (x >>= fun _ => pure ()) b := by
  constructor
  · intro hp
    obtain ⟨e, hrun, he⟩ := h.refused hp
    refine ⟨e, ?_, he⟩
    rw [EStateM.run_bind, hrun]
  · intro hp
    rcases h.accepted hp with ⟨a, b', hrun⟩ | ⟨hwalks, b', hrun⟩
    · exact .inl ⟨(), b', by rw [EStateM.run_bind, hrun]; rfl⟩
    · exact .inr ⟨hwalks, b', by rw [EStateM.run_bind, hrun]⟩

end RefusedIf

lemma switchTo_refusedIf (b : Builder) (c : BlockId) :
    RefusedIf (!b.func.hasBlock c) false (Builder.switchTo c) b := by
  have hrun := Recording.switchTo_run c b
  unfold Func.hasBlock
  unfold Func.getBlock at hrun
  cases hc : b.func.block? c with
  | none =>
    rw [hc] at hrun
    exact .of_error rfl hrun (.inr ⟨_, rfl⟩)
  | some cc =>
    rw [hc] at hrun
    exact .of_ok rfl hrun

/-- The only fault of an instruction by itself is a width. -/
lemma checkWidth_error {inst : Inst} (h : checkWidth inst = .error e) : e.Tells := by
  unfold checkWidth at h
  split at h
  · split at h
    · cases h
    · cases h
      exact .inr ⟨_, rfl⟩
  · cases h

lemma emit_refusedIf (hcurrent : b.func.hasBlock b.current = true) (inst : Inst) :
    RefusedIf (!(checkWidth inst).isOk || b.isTerminated) false (Builder.emit inst) b := by
  have hrun := Recording.emit_run inst b
  cases hwidth : checkWidth inst with
  | error e =>
    rw [hwidth] at hrun
    exact .of_error rfl hrun (checkWidth_error hwidth)
  | ok _ =>
    rw [hwidth] at hrun
    cases hend : b.isTerminated with
    | true =>
      rw [hend] at hrun
      exact .of_error rfl hrun (.inr ⟨_, rfl⟩)
    | false =>
      obtain ⟨bb, hbb⟩ := Option.isSome_iff_exists.1 hcurrent
      obtain ⟨g, hg, -⟩ := Func.appendInst_eq inst hbb
      rw [hend, hg] at hrun
      exact .of_ok rfl hrun

lemma terminate_refusedIf (hcurrent : b.func.hasBlock b.current = true) (t : Terminator) :
    RefusedIf (b.isTerminated || t.successors.any fun s => b.isSealed s || !b.func.hasBlock s)
      false (Builder.terminate t) b := by
  have hrun := Recording.terminate_run t b
  have hfaulty : ∀ s ∈ t.successors, (b.isSealed s || !b.func.hasBlock s) = true →
      (b.isTerminated || t.successors.any fun s => b.isSealed s || !b.func.hasBlock s) = true :=
    fun s hs hfault => Bool.or_eq_true_iff.2 (.inr (List.any_eq_true.2 ⟨s, hs, hfault⟩))
  cases hsealed : t.successors.find? b.isSealed with
  | some s =>
    rw [hsealed] at hrun
    refine .of_error (hfaulty s (List.mem_of_find?_eq_some hsealed) ?_) hrun (.inl ⟨s, rfl⟩)
    rw [List.find?_some hsealed, Bool.true_or]
  | none =>
    obtain ⟨bb, hbb⟩ := Option.isSome_iff_exists.1 hcurrent
    rw [hsealed] at hrun
    simp only [Func.setTerminator_eq hbb] at hrun
    cases hmissing : t.successors.find? (!b.func.hasBlock ·) with
    | some s =>
      rw [hmissing] at hrun
      refine .of_error (hfaulty s (List.mem_of_find?_eq_some hmissing) ?_) hrun (.inr ⟨_, rfl⟩)
      -- the targets are looked up before anything is written
      have hgone := List.find?_some hmissing
      exact Bool.or_eq_true_iff.2 (.inr hgone)
    | none =>
      have hterminated : b.isTerminated = bb.terminator.isSome := by
        unfold isTerminated Func.terminator?
        rw [hbb]
        rfl
      rw [hmissing, ← hterminated] at hrun
      cases hend : b.isTerminated with
      | true =>
        rw [hend] at hrun
        exact .of_error (Bool.true_or _) hrun (.inr ⟨_, rfl⟩)
      | false =>
        rw [hend] at hrun
        refine .of_ok ?_ hrun
        rw [Bool.false_or, List.any_eq_false]
        intro s hs
        have hopen := List.find?_eq_none.1 hsealed s hs
        have hthere := List.find?_eq_none.1 hmissing s hs
        rw [Bool.or_eq_true_iff]
        exact fun hfault => hfault.elim hopen hthere

end Builder

/-- Whether the call walks back through the blocks. -/
def Call.walks : Call → Bool
  | sealBlock _ | use _ => true
  | _ => false

namespace Builder

variable {fair : Prop} {b : Builder}

/-- Between two calls it is known which calls are refused. -/
lemma Sound.refusedIf (h : b.Sound fair) (c : Call) :
    RefusedIf (b.refuses c) c.walks c.make b := by
  cases c with
  | createBlock => exact .of_ok rfl rfl
  | switchTo c => exact switchTo_refusedIf b c
  | sealBlock c => exact .of_yields (onDraft_yields (h.formed.sealBlock h.settled c))
  | define x v => exact .of_ok rfl rfl
  | use x =>
    have hread := h.formed.read (x := x) h.settled (by rintro c ⟨⟩) h.current
    have huse : RefusedIf false true (useVar x) b := .of_yields (.get_bind (onDraft_yields hread))
    exact huse.drop
  | emit inst hphi => exact (emit_refusedIf h.current inst).drop
  | leave t => exact terminate_refusedIf h.current t

/-- Reads and seals are never refused. -/
lemma refuses_of_walks {c : Call} (hc : c.walks = true) : b.refuses c = false := by
  cases c with
  | sealBlock c => rfl
  | use x => rfl
  | _ => cases hc

/-- A call that fails is refused, or it goes on for ever. -/
lemma Sound.of_error (h : b.Sound fair) {c : Call} {e : Error} {b' : Builder}
    (hrun : c.make.run b = .error e b') :
    (b.refuses c = true ∧ b' = b ∧ e.Tells) ∨
      b.refuses c = false ∧ c.walks = true ∧ e = .endless := by
  cases hrefused : b.refuses c with
  | true =>
    obtain ⟨e₁, herror, he⟩ := (h.refusedIf c).refused hrefused
    rw [herror] at hrun
    cases hrun
    exact .inl ⟨rfl, rfl, he⟩
  | false =>
    rcases (h.refusedIf c).accepted hrefused with ⟨a, b₁, hok⟩ | ⟨hwalks, b₁, hendless⟩
    · rw [hok] at hrun
      cases hrun
    · rw [hendless] at hrun
      cases hrun
      exact .inr ⟨rfl, hwalks, rfl⟩

/-- Reads and seals are not refused, whatever was called before. Any other call that fails tells
what is wrong and leaves the builder as it was, and which calls these are can be read off the
builder. No edge is put in before a branch is known to be in order. -/
theorem failed_calls_change_nothing {name : String} {numArgs : Nat} {calls : List Call}
    {b : Builder} (hcalls : calls.foldlM perform (.new name numArgs) = .ok b) :
    (∀ (c : Call) (e : Error) (b' : Builder),
      c.walks = true → c.make.run b = .error e b' → e = .endless) ∧
    (∀ (c : Call) (e : Error) (b' : Builder),
      c.walks = false → c.make.run b = .error e b' → b' = b ∧ e.Tells) ∧
    (∀ c : Call, c.walks = false →
      ((∃ e b', c.make.run b = .error e b') ↔ b.refuses c = true)) ∧
    ∀ t, (terminateInPlace t).run b = (terminate t).run b := by
  obtain ⟨hsound, -⟩ := (Sound.new name numArgs).play hcalls
  refine ⟨?_, ?_, ?_, fun t => terminateInPlace_run t b⟩
  · intro c e b' hwalks hrun
    rcases hsound.of_error hrun with ⟨hrefused, -⟩ | ⟨-, -, rfl⟩
    · rw [refuses_of_walks hwalks] at hrefused
      cases hrefused
    · rfl
  · intro c e b' hwalks hrun
    rcases hsound.of_error hrun with ⟨-, hsame, he⟩ | ⟨-, hw, -⟩
    · exact ⟨hsame, he⟩
    · exact (Bool.false_ne_true (hwalks.symm.trans hw)).elim
  · intro c hwalks
    constructor
    · rintro ⟨e, b', hrun⟩
      rcases hsound.of_error hrun with ⟨hrefused, -⟩ | ⟨-, hw, -⟩
      · exact hrefused
      · exact (Bool.false_ne_true (hwalks.symm.trans hw)).elim
    · intro hrefused
      obtain ⟨e, herror, -⟩ := (hsound.refusedIf c).refused hrefused
      exact ⟨e, b, herror⟩

/-- Two ways on from the entry, of which the second gains no more predecessors. -/
def halfOpen : List Call := [.createBlock, .createBlock, .sealBlock ⟨2⟩]

/-- A branch to the open block and the sealed one is refused, as is one to the open block and one
that is not there, and neither leaves an edge to the open block behind. A conversion to 65 bits and
the move to a block that is not there change nothing either, and a read is not refused. -/
theorem halfOpen_unchanged : ∃ b, halfOpen.foldlM perform (.new "halfOpen" 1) = .ok b ∧
    (terminate (.branch (.arg 0) ⟨1⟩ ⟨2⟩)).run b = .error (.sealedBlock ⟨2⟩) b ∧
    (terminate (.branch (.arg 0) ⟨1⟩ ⟨3⟩)).run b = .error (.malformed (.missingTarget ⟨3⟩)) b ∧
    (switchTo ⟨3⟩).run b = .error (.malformed (.missingBlock ⟨3⟩)) b ∧
    (∃ e, (Call.emit (.cast .zext (.arg 0) 65) rfl).make.run b = .error e b) ∧
    ∀ e b', (Call.use ⟨0⟩).make.run b = .error e b' → e = .endless := by
  have hseen : (halfOpen.foldlM perform (.new "halfOpen" 1)).map (fun b =>
      ((terminate (.branch (.arg 0) ⟨1⟩ ⟨2⟩)).result b,
        (terminate (.branch (.arg 0) ⟨1⟩ ⟨3⟩)).result b, (switchTo ⟨3⟩).result b)) =
      .ok (.error (.sealedBlock ⟨2⟩), .error (.malformed (.missingTarget ⟨3⟩)),
        .error (.malformed (.missingBlock ⟨3⟩))) := by
    decide +kernel
  obtain ⟨b, hcalls, hb⟩ := except_map_ok.1 hseen
  obtain ⟨hsealed, hrest⟩ := Prod.mk.inj hb
  obtain ⟨hmissing, hmove⟩ := Prod.mk.inj hrest
  obtain ⟨hreads, hsame, hrefused, -⟩ := failed_calls_change_nothing hcalls
  have hstays : ∀ {c : Call} {e : Error}, c.walks = false → c.make.result b = .error e →
      c.make.run b = .error e b := by
    intro c e hwalks hresult
    obtain ⟨b', hrun⟩ := Work.result_error.1 hresult
    rw [hrun, (hsame c e b' hwalks hrun).1]
  refine ⟨b, hcalls, @hstays (.leave _) _ rfl hsealed, @hstays (.leave _) _ rfl hmissing,
    @hstays (.switchTo _) _ rfl hmove, ?_, fun e b' hrun => hreads (.use ⟨0⟩) e b' rfl hrun⟩
  obtain ⟨e, b', hrun⟩ := (hrefused (.emit (.cast .zext (.arg 0) 65) rfl) rfl).2 rfl
  exact ⟨e, by rw [hrun, (hsame _ _ _ rfl hrun).1]⟩

end Builder

end SsaBackend
