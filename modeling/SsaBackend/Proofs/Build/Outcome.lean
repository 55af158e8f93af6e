import SsaBackend.Proofs.Build.Script
import SsaBackend.Proofs.Func.Edit

/-!
# What a call can come to

`Recording.Outcome` lists all that a call of a builder can come to, and
`Recording.outcome_of_perform` says that it comes to one of them. Everything about the play of a
script is proved from this list.
-/

namespace SsaBackend

namespace Recording

variable {r r' : Recording} {c : Call}

/-! ## Outcomes -/

/-- The recording after a call that left the builder `b` behind and answered `a`. -/
def next (r : Recording) (b : Builder) (a : Option Value) (P : Program) : Recording :=
  ⟨b, r.answers ++ [a], P⟩

/-- The builder with another draft. -/
def withDraft (r : Recording) (d : Draft) : Builder := { r.builder with draft := d }

/-- The builder with another function. -/
def withFunc (r : Recording) (f : Func) : Builder := r.withDraft { r.builder.draft with func := f }

/-- The block at the insertion point. -/
def current (r : Recording) : BlockId := r.builder.current

/-- What a call of each kind can come to. A call that is refused leaves the builder as it was;
a read or a seal that were refused would leave it where they had got. -/
inductive Outcome (r : Recording) : Call → Recording → Prop
  | createBlock :
    Outcome r .createBlock (r.next (r.withFunc r.builder.func.addBlock) none r.program)
  | switchTo {b : BlockId} (hb : r.builder.func.hasBlock b = true) :
    Outcome r (.switchTo b) (r.next { r.builder with current := b } none r.program)
  | sealBlock {b : BlockId} {d : Draft}
    (h : (Draft.sealBlock b).run r.builder.draft = .ok () d) :
    Outcome r (.sealBlock b) (r.next (r.withDraft d) none r.program)
  | define {x : Variable} {v : Value} :
    Outcome r (.define x v) (r.next (r.withDraft { r.builder.draft with
      vars := r.builder.draft.vars.bind x r.current (Call.fill r.answers v) }) none
      (r.program.add r.current (.assign x v)))
  | use {x : Variable} {v : Value} {d : Draft}
    (h : (Draft.read x r.current).run r.builder.draft = .ok v d) :
    Outcome r (.use x)
      (r.next (r.withDraft d) (some v) (r.program.add r.current (.read r.nextCall x)))
  | emit {inst : Inst} {hphi : inst.isPhi = false} {f : Func}
    (hopen : r.builder.isTerminated = false)
    (h : r.builder.func.Appended f r.current (inst.mapOperands (Call.fill r.answers))) :
    Outcome r (.emit inst hphi) (r.next (r.withFunc f) (some (.inst r.builder.func.nextInst))
      (r.program.add r.current (.compute r.nextCall inst)))
  | leave {t : Terminator} {f : Func} (hopen : ∀ s ∈ t.successors, r.builder.isSealed s = false)
    (h : r.builder.func.Terminated f r.current (t.mapOperands (Call.fill r.answers))) :
    Outcome r (.leave t) (r.next (r.withFunc f) none (r.program.close r.current t))
  | refused {c : Call} : Outcome r c (r.next r.builder none r.program)
  | sealRefused {b : BlockId} {e : Error} {d : Draft}
    (h : (Draft.sealBlock b).run r.builder.draft = .error e d) (he : e ≠ .endless) :
    Outcome r (.sealBlock b) (r.next (r.withDraft d) none r.program)
  | useRefused {x : Variable} {e : Error} {d : Draft}
    (h : (Draft.read x r.current).run r.builder.draft = .error e d) (he : e ≠ .endless) :
    Outcome r (.use x) (r.next (r.withDraft d) none r.program)

/-! ## Reading a call -/

lemma emit_run (inst : Inst) (b : Builder) : (Builder.emit inst).run b =
    match Builder.checkWidth inst with
    | .error e => .error e b
    | .ok _ =>
      if b.isTerminated then .error (.malformed (.appendAfterEnd b.current inst.opcode)) b
      else match b.func.appendInst b.current inst with
        | .error e => .error e b
        | .ok (i, f) => .ok (.inst i) { b with draft := { b.draft with func := f } } := by
  unfold Builder.emit
  cases Builder.checkWidth inst with
  | error e => rfl
  | ok _ =>
    show EStateM.run (if b.isTerminated then _ else _) b = _
    by_cases ht : b.isTerminated = true
    · rw [if_pos ht]
      show _ = if b.isTerminated then _ else _
      rw [if_pos ht]
      rfl
    · rw [if_neg ht]
      show _ = if b.isTerminated then _ else _
      rw [if_neg ht]
      show (Work.ofExcept (b.func.appendInst b.current inst) >>= _).run b = _
      cases b.func.appendInst b.current inst with
      | error e => rfl
      | ok r => rfl

lemma terminate_run (t : Terminator) (b : Builder) : (Builder.terminate t).run b =
    match t.successors.find? b.isSealed with
    | some s => .error (.sealedBlock s) b
    | none =>
      match b.func.setTerminator b.current t with
      | .error e => .error e b
      | .ok f => .ok () { b with draft := { b.draft with func := f } } := by
  unfold Builder.terminate
  show EStateM.run (match t.successors.find? b.isSealed with | some s => _ | none => _) b = _
  cases t.successors.find? b.isSealed with
  | some s => rfl
  | none =>
    show (Work.ofExcept (b.func.setTerminator b.current t) >>= _).run b = _
    cases b.func.setTerminator b.current t with
    | error e => rfl
    | ok f => rfl

lemma switchTo_run (c : BlockId) (b : Builder) : (Builder.switchTo c).run b =
    match b.func.getBlock c with
    | .error e => .error e b
    | .ok _ => .ok () { b with current := c } := by
  unfold Builder.switchTo
  show (Work.ofExcept (b.func.getBlock c) >>= _).run b = _
  cases b.func.getBlock c with
  | error e => rfl
  | ok _ => rfl

lemma onDraft_run {α : Type} (x : Work Draft α) (b : Builder) : (Builder.onDraft x).run b =
    match x.run b.draft with
    | .ok a d => .ok a { b with draft := d }
    | .error e d => .error e { b with draft := d } := rfl

lemma perform_ok (h : r.perform c = .ok r') :
    (∃ a b, (c.work r.answers).run r.builder = .ok a b ∧
      r' = r.next b a (c.note r.program r.nextCall r.current)) ∨
    ∃ e b, (c.work r.answers).run r.builder = .error e b ∧ e ≠ .endless ∧
      r' = r.next b none r.program := by
  unfold perform at h
  split at h
  · rename_i a b hrun
    cases h
    exact .inl ⟨a, b, hrun, rfl⟩
  · cases h
  · rename_i e b hne hrun
    cases h
    exact .inr ⟨e, b, hrun, hne, rfl⟩

/-- Only the call itself can be refused, not the handing over of its answer. -/
lemma error_of_map {α β : Type} {x : Work Builder α} {g : α → β} {b b' : Builder} {e : Error}
    (h : (x >>= fun a => pure (g a)).run b = .error e b') : x.run b = .error e b' := by
  rw [EStateM.run_bind] at h
  cases hx : x.run b with
  | ok a t =>
    rw [hx] at h
    cases h
  | error e t =>
    rw [hx] at h
    cases h
    rfl

/-- A call that ends well comes to the outcome of its kind. -/
lemma outcome_of_ok {a : Option Value} {b : Builder}
    (hrun : (c.work r.answers).run r.builder = .ok a b) :
    Outcome r c (r.next b a (c.note r.program r.nextCall r.current)) := by
  cases c with
  | createBlock =>
    cases hrun
    exact .createBlock
  | define x v =>
    cases hrun
    exact .define
  | switchTo c =>
    obtain ⟨_, b₁, hx, hpure⟩ := Work.bind_ok.1 hrun
    cases hpure
    rw [switchTo_run] at hx
    cases hget : r.builder.func.getBlock c with
    | error e =>
      rw [hget] at hx
      cases hx
    | ok bb =>
      rw [hget] at hx
      cases hx
      apply Outcome.switchTo
      exact Option.isSome_iff_exists.2 ⟨bb, Func.block?_of_getBlock hget⟩
  | sealBlock c =>
    obtain ⟨_, b₁, hx, hpure⟩ := Work.bind_ok.1 hrun
    cases hpure
    unfold Builder.sealBlock at hx
    rw [onDraft_run] at hx
    -- the draft is handed back with what the seal made of it
    split at hx
    · rename_i d hd
      cases hx
      exact .sealBlock hd
    · cases hx
  | use x =>
    obtain ⟨v, b₁, hx, hpure⟩ := Work.bind_ok.1 hrun
    cases hpure
    unfold Builder.useVar at hx
    rw [Work.get_bind_ok, onDraft_run] at hx
    split at hx
    · rename_i d hd
      cases hx
      exact .use hd
    · cases hx
  | emit inst hphi =>
    obtain ⟨v, b₁, hx, hpure⟩ := Work.bind_ok.1 hrun
    cases hpure
    -- no phi was handed in, the block is open, and it is there
    rw [emit_run] at hx
    split at hx
    · cases hx
    · split at hx
      · cases hx
      · rename_i hopen
        split at hx
        · cases hx
        · rename_i i f happ
          cases hx
          obtain ⟨rfl, -, happ⟩ := Func.appendInst_ok happ
          exact .emit (Bool.eq_false_iff.2 hopen) happ
  | leave t =>
    obtain ⟨v, b₁, hx, hpure⟩ := Work.bind_ok.1 hrun
    cases hpure
    rw [terminate_run] at hx
    split at hx
    · cases hx
    · rename_i hfind
      split at hx
      · cases hx
      · rename_i f hterm
        cases hx
        refine .leave ?_ (Func.setTerminator_ok hterm)
        -- no target is sealed: the targets are those of the terminator that was told
        intro s hs
        rw [Terminator.successors_mapOperands] at hfind
        exact Bool.eq_false_iff.2 (List.find?_eq_none.1 hfind s hs)

/-- A call that is refused leaves the builder as it was, reads and seals apart. -/
lemma outcome_of_error {e : Error} {b : Builder}
    (hrun : (c.work r.answers).run r.builder = .error e b) (hne : e ≠ .endless) :
    Outcome r c (r.next b none r.program) := by
  cases c with
  | createBlock => cases hrun
  | define x v => cases hrun
  | switchTo c =>
    have hx := error_of_map hrun
    rw [switchTo_run] at hx
    split at hx
    · cases hx
      exact .refused
    · cases hx
  | sealBlock c =>
    have hx := error_of_map hrun
    unfold Builder.sealBlock at hx
    rw [onDraft_run] at hx
    split at hx
    · cases hx
    · rename_i d hd
      cases hx
      -- what the reads did before the refusal stays done
      exact .sealRefused hd hne
  | use x =>
    have hx := error_of_map hrun
    unfold Builder.useVar at hx
    change (Builder.onDraft (Draft.read x r.current)).run r.builder = _ at hx
    rw [onDraft_run] at hx
    split at hx
    · cases hx
    · rename_i d hd
      cases hx
      exact .useRefused hd hne
  | emit inst hphi =>
    have hx := error_of_map hrun
    -- each of the three checks comes before anything is written
    rw [emit_run] at hx
    split at hx
    · cases hx
      exact .refused
    · split at hx
      · cases hx
        exact .refused
      · split at hx
        · cases hx
          exact .refused
        · cases hx
  | leave t =>
    have hx := error_of_map hrun
    rw [terminate_run] at hx
    split at hx
    · cases hx
      exact .refused
    · split at hx
      · cases hx
        exact .refused
      · cases hx

/-- Every call comes to one of the outcomes. -/
lemma outcome_of_perform (h : r.perform c = .ok r') : Outcome r c r' := by
  rcases perform_ok h with ⟨a, b, hrun, rfl⟩ | ⟨e, b, hrun, hne, rfl⟩
  · exact outcome_of_ok hrun
  · exact outcome_of_error hrun hne

end Recording

end SsaBackend
