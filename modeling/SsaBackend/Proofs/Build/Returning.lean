import SsaBackend.Proofs.Build.Calls
import SsaBackend.Proofs.Build.Halting

/-!
# What a read answers

A read ends unless it comes to a ring, and whatever happens on the way, the last thing it does is
to bind the variable in its block to its answer. Phis may be folded while it goes on, but not after
that. So a second read finds the binding at once, and binds it again to what it is bound to, which
changes nothing (`Bindings.bind_bind`).

## Main statements

* `Draft.read_binds`: the draft that a read leaves binds the variable to the answer.
* `Builder.reads_return`: reads between the calls of a builder return, and do so again.
-/

namespace SsaBackend

/-! ## Writing twice -/

namespace NatMap

variable {α : Type}

lemma insertEntry_insertEntry (key : Nat) (a : α) (l : List (Nat × α)) :
    insertEntry key a (insertEntry key a l) = insertEntry key a l := by
  induction l with
  | nil => simp [insertEntry]
  | cons e rest ih =>
    obtain ⟨k, b⟩ := e
    by_cases hlt : key < k
    · simp [insertEntry, hlt]
    · by_cases he : key = k
      · simp [insertEntry, he]
      · simp only [insertEntry, if_neg hlt, if_neg he, ih]

lemma insert_insert (m : NatMap α) (key : Nat) (a : α) :
    (m.insert key a).insert key a = m.insert key a :=
  congrArg NatMap.mk (insertEntry_insertEntry key a m.entries)

end NatMap

/-- Binding a variable again to what it was just bound to changes nothing. -/
lemma Bindings.bind_bind (s : Bindings) (x : Variable) (b : BlockId) (v : Value) :
    (s.bind x b v).bind x b v = s.bind x b v := by
  simp only [bind, NatMap.get?_insert, if_true, Option.getD_some, NatMap.insert_insert]

namespace Draft

open Func Relation

variable {d d' : Draft} {x : Variable} {b c : BlockId} {v : Value}

/-! ## The last binding -/

/-- The blocks of a walk back end with the one in which it began. -/
lemma exists_prefix_of_trailFrom {n : Nat} {passed : List BlockId} {t : Trail}
    (ht : d.trailFrom x n passed b = some t) : ∃ l, t.last :: t.passed = l ++ b :: passed := by
  induction n generalizing passed b with
  | zero => cases ht
  | succ n ih =>
    rw [Draft.trailFrom] at ht
    split at ht
    · cases ht
      exact ⟨[], rfl⟩
    · split at ht
      · split at ht
        · cases ht
          exact ⟨[], rfl⟩
        · rename_i p _
          obtain ⟨l, hl⟩ := ih ht
          exact ⟨l ++ [p], by rw [hl, List.append_assoc]; rfl⟩
        · cases ht
          exact ⟨[], rfl⟩
      · cases ht
        exact ⟨[], rfl⟩

/-- What is bound to all blocks of a list is bound to the last of them at the end. -/
lemma bindAll_binds (x : Variable) (v : Value) (bs : List BlockId) (c : BlockId) (d : Draft) :
    ∃ d₁ : Draft, (do
        (bs ++ [c]).forM fun e => modifyVars (·.bind x e v)
        return v : Work Draft Value).run d =
      .ok v { d₁ with vars := d₁.vars.bind x c v } := by
  induction bs generalizing d with
  | nil => exact ⟨d, rfl⟩
  | cons e rest ih => exact ih { d with vars := d.vars.bind x e v }

/-- A read that ends well has bound the variable in its block to the answer at last. -/
lemma readWithin_binds {depth : Nat} (hrun : (Draft.readWithin x depth c).run d = .ok v d') :
    ∃ d₁ : Draft, d' = { d₁ with vars := d₁.vars.bind x c v } := by
  cases depth with
  | zero => cases hrun
  | succ depth =>
    unfold Draft.readWithin at hrun
    obtain ⟨t, d₀, htrail, hgo⟩ := Work.bind_ok.1 hrun
    obtain ⟨rfl, ht⟩ := (trail_yields x c d).ok htrail
    obtain ⟨l, hl⟩ := exists_prefix_of_trailFrom ht
    have hrest : ∀ u d₁, (do
        (t.last :: t.passed).forM fun e => modifyVars (·.bind x e u)
        return u : Work Draft Value).run d₁ = .ok v d' →
        ∃ d₁ : Draft, d' = { d₁ with vars := d₁.vars.bind x c v } := by
      intro u d₁ h
      obtain ⟨d₂, hd₂⟩ := bindAll_binds x u l c d₁
      rw [hl, hd₂] at h
      cases h
      exact ⟨d₂, rfl⟩
    cases hsource : t.source with
    | bound u =>
      rw [hsource] at hgo
      exact hrest u _ hgo
    | unsealed =>
      rw [hsource] at hgo
      obtain ⟨u, d₁, -, hgo⟩ := Work.bind_ok.1 hgo
      exact hrest u _ hgo
    | nothing =>
      rw [hsource] at hgo
      exact hrest .undef _ hgo
    | join preds =>
      rw [hsource] at hgo
      obtain ⟨phi, d₁, -, hgo⟩ := Work.bind_ok.1 hgo
      obtain ⟨_, d₂, -, hgo⟩ := Work.bind_ok.1 hgo
      obtain ⟨u, d₃, -, hgo⟩ := Work.bind_ok.1 hgo
      exact hrest u _ hgo

lemma read_binds (hrun : (Draft.read x c).run d = .ok v d') :
    ∃ d₁ : Draft, d' = { d₁ with vars := d₁.vars.bind x c v } :=
  readWithin_binds (Work.get_bind_ok.1 hrun)

/-! ## Reads without a walk -/

/-- A walk back of one block. -/
lemma trail_run {s : Source} (h : d.trailFrom x (d.func.blockCapacity + 1) [] c = some ⟨[], c, s⟩) :
    (Draft.trail x c).run d = .ok ⟨[], c, s⟩ d := by
  unfold Draft.trail
  rw [Work.get_bind_ok, h]
  rfl

/-- A variable that is bound is read off its binding. -/
lemma read_of_bound (h : d.vars.value? x c = some v) :
    (Draft.read x c).run d = .ok v { d with vars := d.vars.bind x c v } := by
  have htrail : (Draft.trail x c).run d = .ok ⟨[], c, .bound v⟩ d := by
    apply trail_run
    rw [Draft.trailFrom, h]
  show (Draft.readWithin x (d.func.blockCapacity + 1) c).run d = _
  unfold Draft.readWithin
  exact Work.bind_ok.2 ⟨_, d, htrail, rfl⟩

/-- A read in a block that is not there ends at once. If the variable is not bound there and the
block is not sealed either, no placeholder can be put there. -/
lemma read_of_missing (hc : d.func.hasBlock c = false) :
    (∃ v d', (Draft.read x c).run d = .ok v d') ∨
    (Draft.read x c).run d = .error (.malformed (.missingBlock c)) d := by
  have hblock : d.func.block? c = none := Option.not_isSome_iff_eq_none.1 (Bool.eq_false_iff.1 hc)
  cases hx : d.vars.value? x c with
  | some v => exact .inl ⟨v, _, read_of_bound hx⟩
  | none =>
    have hpreds : d.func.preds c = [] := Func.preds_of_missing hblock
    show (∃ v d', (Draft.readWithin x (d.func.blockCapacity + 1) c).run d = .ok v d') ∨
      (Draft.readWithin x (d.func.blockCapacity + 1) c).run d = _
    unfold Draft.readWithin
    by_cases hsealed : d.vars.isSealed c = true
    · -- without predecessors the walk ends here, and there is nothing to merge
      have htrail : (Draft.trail x c).run d = .ok ⟨[], c, .nothing⟩ d := by
        apply trail_run
        rw [Draft.trailFrom, hx, if_pos hsealed, hpreds]
      exact .inl ⟨.undef, _, Work.bind_ok.2 ⟨_, d, htrail, rfl⟩⟩
    · have htrail : (Draft.trail x c).run d = .ok ⟨[], c, .unsealed⟩ d := by
        apply trail_run
        rw [Draft.trailFrom, hx, if_neg hsealed]
      -- an open block gets a placeholder, for which there is no place
      have hget : d.func.getBlock c = .error (.malformed (.missingBlock c)) := by
        unfold Func.getBlock
        rw [hblock]
      have hphi : d.func.createPhi c = .error (.malformed (.missingBlock c)) := by
        unfold Func.createPhi Func.appendInst
        rw [hget]
        rfl
      have hnew : (Draft.newPhi c).run d = .error (.malformed (.missingBlock c)) d := by
        show (Work.ofExcept (d.func.createPhi c) >>= fun r => do
          setFunc r.2
          return r.1 : Work Draft InstId).run d = _
        rw [hphi]
        rfl
      have hput : (newPlaceholder x c).run d = .error (.malformed (.missingBlock c)) d := by
        unfold newPlaceholder
        rw [EStateM.run_bind, hnew]
      refine .inr ?_
      rw [EStateM.run_bind, htrail]
      simp only
      rw [EStateM.run_bind, hput]

end Draft

namespace Builder

open Func Relation

/-- Between the calls of a builder, whatever they were, a read returns if it does not come to a
ring of sealed blocks with one predecessor each that do not bind the variable; it is refused only
in a block that is not there. The variable is then bound in the block to the answer, and a second
read answers the same and changes nothing. -/
theorem reads_return {name : String} {numArgs : Nat} {calls : List Call} {b : Builder}
    (hcalls : calls.foldlM perform (.new name numArgs) = .ok b) (x : Variable) (c : BlockId) :
    (b.draft.Straight x c → (∃ v d, (Draft.read x c).run b.draft = .ok v d) ∨
      b.func.hasBlock c = false ∧
        (Draft.read x c).run b.draft = .error (.malformed (.missingBlock c)) b.draft) ∧
    ∀ v d, (Draft.read x c).run b.draft = .ok v d →
      d.vars.value? x c = some v ∧ (Draft.read x c).run d = .ok v d := by
  obtain ⟨hsound, -⟩ := (Sound.new name numArgs).play hcalls
  constructor
  · intro hstraight
    cases hc : b.func.hasBlock c with
    | true =>
      have hlate : Draft.LateBound x none b.draft := by
        rintro e ⟨⟩
      have hends := hsound.formed.read_halts hsound.settled hlate hc hstraight
      have hanswers := hsound.formed.read hsound.settled hlate hc
      obtain ⟨v, d, hrun, -⟩ := hanswers.exists_ok hends
      exact .inl ⟨v, d, hrun⟩
    | false => exact (Draft.read_of_missing hc).imp id fun h => ⟨rfl, h⟩
  · intro v d hrun
    obtain ⟨d₁, rfl⟩ := Draft.read_binds hrun
    have hbound : (d₁.vars.bind x c v).value? x c = some v := Bindings.value?_bind_self
    refine ⟨hbound, (Draft.read_of_bound hbound).trans ?_⟩
    rw [Bindings.bind_bind]

/-- A loop that leaves `x` alone, and two blocks beside it that lead into each other only. -/
def aside : List Call :=
  [ .createBlock, .createBlock, .createBlock, .createBlock,
    .define ⟨0⟩ (.int 0),
    .leave (.jump ⟨1⟩),
    .switchTo ⟨1⟩,
    .leave (.branch (.arg 0) ⟨1⟩ ⟨2⟩),
    .sealBlock ⟨1⟩,
    .sealBlock ⟨2⟩,
    .switchTo ⟨3⟩,
    .leave (.jump ⟨4⟩),
    .switchTo ⟨4⟩,
    .leave (.jump ⟨3⟩),
    .sealBlock ⟨3⟩,
    .sealBlock ⟨4⟩ ]

/-- Behind the loop `x` is read off the entry, since the phi that is made for it is folded before
the read ends. Between the two blocks a read would go round for ever. -/
theorem aside_returns : ∃ b v d, aside.foldlM perform (.new "aside" 1) = .ok b ∧
    (Draft.read ⟨0⟩ ⟨3⟩).result b.draft = .error .endless ∧
    (v = .int 0 ∧ (Draft.read ⟨0⟩ ⟨2⟩).run b.draft = .ok v d) ∧
    d.vars.value? ⟨0⟩ ⟨2⟩ = some v ∧ (Draft.read ⟨0⟩ ⟨2⟩).run d = .ok v d := by
  have hseen : (aside.foldlM perform (.new "aside" 1)).map (fun b =>
      ([b.func.preds ⟨0⟩, b.func.preds ⟨1⟩, b.func.preds ⟨2⟩],
        ((Draft.read ⟨0⟩ ⟨3⟩).result b.draft, (Draft.read ⟨0⟩ ⟨2⟩).result b.draft))) =
      .ok ([[], [⟨0⟩, ⟨1⟩], [⟨1⟩]], (.error .endless, .ok (.int 0))) := by
    decide +kernel
  obtain ⟨b, hcalls, hb⟩ := except_map_ok.1 hseen
  obtain ⟨hpreds, hresults⟩ := Prod.mk.inj hb
  obtain ⟨hendless, hzero⟩ := Prod.mk.inj hresults
  simp only [List.cons.injEq, and_true] at hpreds
  obtain ⟨hpreds₀, hpreds₁, hpreds₂⟩ := hpreds
  -- the read stays in the first three blocks, and walks back in them lead up
  have hstay : ∀ e p, e.index ≤ 2 → p ∈ b.func.preds e → p.index ≤ 2 := by
    rintro ⟨_ | _ | _ | n⟩ p he hp
    · rw [hpreds₀] at hp
      cases hp
    · rw [hpreds₁] at hp
      exact (by decide : ∀ p ∈ [(⟨0⟩ : BlockId), ⟨1⟩], p.index ≤ 2) p hp
    · rw [hpreds₂] at hp
      exact (by decide : ∀ p ∈ [(⟨1⟩ : BlockId)], p.index ≤ 2) p hp
    · exact absurd he (by simp)
  have hup : ∀ e p, e.index ≤ 2 → b.func.preds e = [p] → p.index < e.index := by
    rintro ⟨_ | _ | _ | n⟩ p he hp
    · rw [hpreds₀] at hp
      cases hp
    · rw [hpreds₁] at hp
      cases hp
    · rw [hpreds₂] at hp
      cases hp
      decide
    · exact absurd he (by simp)
  have hstraight : b.draft.Straight ⟨0⟩ ⟨2⟩ := by
    intro c hc
    have hin : c.index ≤ 2 := by
      induction hc with
      | refl => decide
      | tail _ hgo ih => exact hstay _ _ ih hgo.2.2
    intro hring
    have hless : ∀ e, TransGen (Draft.Passes ⟨0⟩ b.draft) c e → e.index < c.index := by
      intro e he
      induction he with
      | single hp => exact hup _ _ hin hp.2.2
      | tail _ hp ih => exact Nat.lt_trans (hup _ _ (Nat.le_trans (Nat.le_of_lt ih) hin) hp.2.2) ih
    exact Nat.lt_irrefl _ (hless c hring)
  obtain ⟨hreturns, hagain⟩ := reads_return hcalls ⟨0⟩ ⟨2⟩
  obtain ⟨d, hrun⟩ := Work.result_ok.1 hzero
  rcases hreturns hstraight with ⟨v, d', hrun'⟩ | ⟨-, hrefused⟩
  · rw [hrun] at hrun'
    cases hrun'
    exact ⟨b, _, d, hcalls, hendless, ⟨rfl, hrun⟩, hagain _ _ hrun⟩
  · rw [hrun] at hrefused
    cases hrefused

end Builder

end SsaBackend
