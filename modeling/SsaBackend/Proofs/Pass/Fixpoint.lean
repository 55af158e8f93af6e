import SsaBackend.Proofs.Pass.Changed
import SsaBackend.Proofs.Pass.Fresh

/-!
# A fixpoint is a normal form

A round of passes in which each answers that it changed nothing says of each that it had nothing to
do, and of one and the same function. So when the repetition stops because of such a round, the
function is in normal form (`Func.Normal`), and running the passes again changes nothing
(`Schedule.fixpoint_is_normal`). That rests on the answers of the passes, which tell whether the
function is another one; no round has to be looked at but the last.
-/

namespace SsaBackend

open Func

/-- Nothing is left to do: no instruction has a value that is known, no phi is trivial, no branch
has a constant as its condition, every block is reached and, if code is hoisted, every loop has a
preheader and no instruction in a loop is invariant in it. -/
structure Func.Normal (hoisting : Bool) (f : Func) : Prop where
  insts : ∀ b bb, f.block? b = some bb → ∀ i ∈ bb.body, ∀ p, f.inst? i = some p →
    p.inst.fold? = none
  phis : ∀ b bb, f.block? b = some bb → ∀ i ∈ bb.phis, ∀ node, f.phi? i = some node →
    node.trivial? i = none
  branches : ∀ b c t e, f.terminator? b ≠ some (.branch (.const c) t e)
  reached : ∀ b bb, f.block? b = some bb → f.Reached b
  loops : hoisting = true → ∀ dom, f.dominators = .ok dom → ∀ l ∈ (f.loopForest dom).loops,
    (∃ pre, l.HasPreheader f pre) ∧
      ∀ b ∈ l.body, ∀ bb, f.block? b = some bb → ∀ i ∈ bb.body, Hoist.isInvariant f l i = false

namespace Config

/-- Where no pass of a compilation has anything to do, the function is in normal form. -/
lemma normal_of_settled {c : Config} {f : Func} (hf : f.EdgesAgree)
    (h : ∀ p ∈ c.schedule.passes, p.Settled f) : f.Normal c.hoist := by
  have hmem : ∀ p ∈ [Pass.constantOps, .branchFold, .deadBlocks], p ∈ c.schedule.passes :=
    fun p hp => List.mem_append_left _ hp
  obtain ⟨hfolds, htrivial⟩ := h .constantOps (hmem _ (by decide))
  refine ⟨hfolds, htrivial, h .branchFold (hmem _ (by decide)),
    h .deadBlocks (hmem _ (by decide)), fun hhoist dom hdom l hl => ?_⟩
  have hpass : Pass.hoist ∈ c.schedule.passes := by
    refine List.mem_append_right _ ?_
    rw [hhoist]
    decide
  have hset : Hoist.Settled f := h .hoist hpass
  rw [show f.dominators = .ok f.cfg.domTree from hf.consistent.dominators_eq] at hdom
  cases hdom
  obtain ⟨hpre, hnothing⟩ := hset l hl
  obtain ⟨pre, hpre⟩ := Option.isSome_iff_exists.1 hpre
  have hwhole := (family_loopForest hf).1.whole l hl
  exact ⟨⟨pre, Loop.findPreheader_spec (hwhole.preheader.symm.trans hpre)⟩, hnothing⟩

end Config

namespace Schedule

variable {sch : Schedule} {s : Session}

/-! ## A round that changes nothing -/

lemma runPass_answers (sch : Schedule) (p : Pass) (h : s.Holds EdgesAgree) :
    (sch.runPass p).Ends s (fun changed s' =>
      changed = false → s'.func = s.func ∧ p.Settled s.func) fun _ => True := by
  unfold runPass
  refine (Session.compute_meets h.func.consistent h.fresh p.wanted _).ends.bind ?_
  rintro _ s₁ ⟨hfunc, hfresh⟩
  refine (Pass.run_answers (p := p) (hfunc ▸ h.func) (hfunc ▸ hfresh)).bind ?_
  rintro changed s₂ ⟨hno, -⟩
  rw [hfunc] at hno
  refine Work.Ends.modify_bind ?_
  cases changed with
  | false => exact Work.Ends.of_pure fun _ => hno rfl
  | true =>
    refine Work.Ends.get_bind (Work.Ends.modify_bind ?_)
    dsimp only
    split
    · exact Work.Ends.get_bind (Work.Ends.ofExcept_bind
        (fun _ _ => Work.Ends.of_pure fun h => absurd h (by decide)) trivial)
    · exact Work.Ends.of_pure fun h => absurd h (by decide)

lemma run_answers (sch : Schedule) (h : s.Holds EdgesAgree) :
    sch.run.Ends s (fun changed s' => changed = false → s'.func = s.func ∧
      ∀ p ∈ sch.passes, p.Settled s.func) fun _ => True := by
  unfold run
  refine Work.Ends.ofExcept_bind (fun _ _ => ?_) trivial
  -- as long as nothing has changed, the passes look at one function
  refine (Work.Ends.foldlM (fun rest any (s' : Session) => s'.Holds EdgesAgree ∧ (any = false →
    s'.func = s.func ∧ ∀ p ∈ sch.passes, p ∈ rest ∨ p.Settled s.func)) ?_ sch.passes false
    ⟨h, fun _ => ⟨rfl, fun p hp => .inl hp⟩⟩).mono (fun any s' hs' hno => ?_) fun _ h => h
  · rintro any p rest s' ⟨hs', hany⟩
    refine (((sch.runPass_ends p hs').and (sch.runPass_answers p hs')).mono
      (fun _ _ h => h) fun _ _ => trivial).bind ?_
    rintro changed s'' ⟨hs'', hno⟩
    refine Work.Ends.of_pure ⟨hs'', fun hfalse => ?_⟩
    rw [Bool.or_eq_false_iff] at hfalse
    obtain ⟨hsame, hset⟩ := hno hfalse.1
    obtain ⟨hsame', hothers⟩ := hany hfalse.2
    refine ⟨hsame.trans hsame', fun q hq => ?_⟩
    rcases hothers q hq with hmem | hq
    · rcases List.mem_cons.1 hmem with rfl | hmem
      · exact .inr (hsame' ▸ hset)
      · exact .inl hmem
    · exact .inr hq
  · obtain ⟨hsame, hall⟩ := hs'.2 hno
    exact ⟨hsame, fun p hp => (hall p hp).resolve_left List.not_mem_nil⟩

/-- If the last thing reported is that a fixpoint was reached, no pass has anything to do. -/
lemma repeatFrom_answers (sch : Schedule) (left i : Nat) (h : s.Holds EdgesAgree) :
    (sch.repeatFrom i left).Ends s (fun _ s' => ∀ name n,
      s'.journal.back? = some (.inFunction name (.fixpointReached n)) →
      ∀ p ∈ sch.passes, p.Settled s'.func) fun _ => True := by
  induction left generalizing i s with
  | zero =>
    unfold repeatFrom
    refine Work.Ends.modify_bind (Work.Ends.of_pure fun name n hlast => ?_)
    rw [Array.back?_push] at hlast
    cases hlast
  | succ left ih =>
    unfold repeatFrom
    refine (((sch.run_ends h).and (sch.run_answers h)).mono (fun _ _ h => h)
      fun _ _ => trivial).bind ?_
    rintro changed s' ⟨hs', hno⟩
    split
    · exact ih (i + 1) hs'
    · rename_i hchanged
      obtain ⟨hsame, hset⟩ := hno (by simpa using hchanged)
      exact Work.Ends.modify_bind (Work.Ends.of_pure fun name n _ => hsame ▸ hset)

/-! ## Nothing more changes -/

lemma run_of_settled (hvalid : sch.validate = .ok ()) (h : s.Holds EdgesAgree)
    (hset : ∀ p ∈ sch.passes, p.Settled s.func) :
    sch.run.Meets s (fun changed s' => changed = false ∧ s'.func = s.func) fun _ => False := by
  unfold run
  refine Work.Meets.ofExcept_bind hvalid ?_
  refine (Work.Meets.foldlM (fun rest any (s' : Session) => (any = false ∧ s'.func = s.func) ∧
    s'.cache.FreshFor s.func ∧ ∀ p ∈ rest, p.Settled s.func) ?_ sch.passes false
    ⟨⟨rfl, rfl⟩, h.fresh, hset⟩).mono (fun _ _ h => h.1) fun _ h => h
  rintro any p rest s' ⟨⟨rfl, hfunc⟩, hfresh, hrest⟩
  unfold runPass
  refine Work.Meets.bind (Q := fun changed s'' => changed = false ∧ s''.func = s.func ∧
    s''.cache.FreshFor s.func) ?_ ?_
  · have hagree : s'.func.EdgesAgree := hfunc ▸ h.func
    refine (Session.compute_meets hagree.consistent (hfunc ▸ hfresh) p.wanted _).bind ?_
    rintro _ s₁ ⟨hfunc₁, hfresh₁⟩
    have hsame : s₁.func = s.func := hfunc₁.trans hfunc
    refine (Pass.run_of_settled (p := p) (hsame ▸ h.func) (hfunc₁ ▸ hfresh₁)
      (hsame ▸ hrest p List.mem_cons_self)).bind ?_
    rintro changed s₂ ⟨rfl, hfunc₂, hfresh₂⟩
    have hsame₂ : s₂.func = s.func := hfunc₂.trans hsame
    exact Work.Meets.modify_bind (Work.Meets.of_pure ⟨rfl, hsame₂, hsame₂ ▸ hfresh₂⟩)
  · rintro changed s'' ⟨rfl, hfunc'', hfresh''⟩
    exact Work.Meets.of_pure ⟨⟨rfl, hfunc''⟩, hfresh'',
      fun q hq => hrest q (List.mem_cons_of_mem _ hq)⟩

lemma runToFixpoint_of_settled (hvalid : sch.validate = .ok ()) (h : s.Holds EdgesAgree)
    (hset : ∀ p ∈ sch.passes, p.Settled s.func) (max : Nat) :
    (sch.runToFixpoint max).Meets s (fun changed s' => changed = false ∧ s'.func = s.func)
      fun _ => False := by
  unfold runToFixpoint
  cases max with
  | zero =>
    unfold repeatFrom
    exact Work.Meets.modify_bind (Work.Meets.of_pure ⟨rfl, rfl⟩)
  | succ left =>
    unfold repeatFrom
    refine (run_of_settled hvalid h hset).bind ?_
    rintro changed s' ⟨rfl, hfunc⟩
    exact Work.Meets.modify_bind (Work.Meets.of_pure ⟨rfl, hfunc⟩)

/-- Of a function that was accepted, a pass answers no if and only if it leaves the function as it
was. Hence, when the passes of a compilation are repeated until a round changes nothing, what they
leave is in normal form, and repeating them once more changes nothing. -/
theorem fixpoint_is_normal (hverify : s.func.verify = .ok ())
    (hfresh : s.cache.FreshFor s.func) :
    (∀ (p : Pass) (changed : Bool) (s' : Session), p.run.run s = .ok changed s' →
      (changed = false ↔ s'.func = s.func)) ∧
    ∀ (c : Config) (max : Nat) (changed : Bool) (s' : Session),
      (c.schedule.runToFixpoint max).run s = .ok changed s' →
      (∃ name n, s'.journal.back? = some (.inFunction name (.fixpointReached n))) →
      s'.func.Normal c.hoist ∧ s'.cache.FreshFor s'.func ∧
        ∀ (max' : Nat) (t : Session), t.func = s'.func → t.cache.FreshFor t.func →
          ∃ t', (c.schedule.runToFixpoint max').run t = .ok false t' ∧ t'.func = t.func := by
  have hv := verified_of_verify hverify
  have h : s.Holds EdgesAgree := ⟨hv.edgesAgree, hfresh⟩
  have hplaced : s.func.BodiesPlaced := by
    intro b bb hb i hi
    obtain ⟨p, hp, hpb, -⟩ := hv.body b bb hb i hi
    exact ⟨p, hp, hpb⟩
  constructor
  · intro p changed s' hrun
    obtain ⟨hno, hyes⟩ := (Pass.run_answers h.func h.fresh).ok hrun
    refine ⟨fun he => (hno he).1, fun he => ?_⟩
    by_contra hchanged
    exact hyes (by simpa using hchanged) hplaced he
  · rintro c max changed s' hrun ⟨name, n, hlast⟩
    have hs' := (c.schedule.repeatFrom_ends max 1 h).ok hrun
    have hset := (c.schedule.repeatFrom_answers max 1 h).ok hrun name n hlast
    refine ⟨Config.normal_of_settled hs'.func hset, hs'.fresh, fun max' t htfunc htfresh => ?_⟩
    have ht : t.Holds EdgesAgree := ⟨htfunc ▸ hs'.func, htfresh⟩
    obtain ⟨_, t', hrun', rfl, hfunc⟩ :=
      (runToFixpoint_of_settled c.validate_schedule ht (htfunc ▸ hset) max').exists_ok
    exact ⟨t', hrun', hfunc⟩

/-- A comparison of constants decides whether a loop is entered that computes the same product in
every round. -/
def mill : Func where
  name := "mill"
  numArgs := 2
  blocks := #[
    some { body := [⟨0⟩], terminator := some (.branch (.inst ⟨0⟩) ⟨1⟩ ⟨3⟩) },
    some { phis := [⟨1⟩], preds := [⟨0⟩, ⟨2⟩], terminator := some (.branch (.inst ⟨1⟩) ⟨2⟩ ⟨3⟩) },
    some { body := [⟨2⟩, ⟨3⟩], preds := [⟨1⟩], terminator := some (.jump ⟨1⟩) },
    some { phis := [⟨4⟩], preds := [⟨0⟩, ⟨1⟩], terminator := some (.ret (some (.inst ⟨4⟩))) }]
  insts := #[
    some ⟨.compare .slt (.int 1) (.int 2), ⟨0⟩⟩,
    some ⟨.phi ⟨[⟨⟨0⟩, .arg 0⟩, ⟨⟨2⟩, .inst ⟨3⟩⟩]⟩, ⟨1⟩⟩,
    some ⟨.binary .mul (.arg 0) (.arg 1), ⟨2⟩⟩,
    some ⟨.binary .sub (.inst ⟨1⟩) (.inst ⟨2⟩), ⟨2⟩⟩,
    some ⟨.phi ⟨[⟨⟨0⟩, .arg 1⟩, ⟨⟨1⟩, .inst ⟨1⟩⟩]⟩, ⟨3⟩⟩]

/-- The mill comes to its normal form in one round, and a second one finds nothing to do. -/
theorem mill_is_normal :
    (mill.verify = .ok () ∧ Cache.empty.FreshFor mill) ∧
    ∃ s', (Schedule.runToFixpoint (Config.schedule {}) 8).run ⟨mill, .empty, #[]⟩ = .ok true s' ∧
      s'.journal.back? = some (.inFunction "mill" (.fixpointReached 2)) ∧
      s'.func.liveBlocks.map (·.2.body) = [[⟨2⟩], [], [⟨3⟩], []] ∧
      s'.func.liveBlocks.map (·.2.phis) = [[], [⟨1⟩], [], []] ∧
      s'.func.Normal true ∧
      ∃ t', (Schedule.runToFixpoint (Config.schedule {}) 8).run s' = .ok false t' ∧
        t'.func = s'.func := by
  have hv : mill.verify = .ok () := by rfl
  have hrun : (Schedule.runToFixpoint (Config.schedule {}) 8).result ⟨mill, .empty, #[]⟩ =
      .ok true := by decide +kernel
  have hend : let s' := (Schedule.runToFixpoint (Config.schedule {}) 8).state ⟨mill, .empty, #[]⟩
      s'.journal.back? = some (.inFunction "mill" (.fixpointReached 2)) ∧
      s'.func.liveBlocks.map (·.2.body) = [[⟨2⟩], [], [⟨3⟩], []] ∧
      s'.func.liveBlocks.map (·.2.phis) = [[], [⟨1⟩], [], []] := by decide +kernel
  unfold Work.result at hrun
  unfold Work.state at hend
  cases hok : (Schedule.runToFixpoint (Config.schedule {}) 8).run ⟨mill, .empty, #[]⟩ with
  | error e s' =>
    rw [hok] at hrun
    cases hrun
  | ok changed s' =>
    rw [hok] at hrun hend
    cases hrun
    obtain ⟨hnormal, hfresh, hagain⟩ := (fixpoint_is_normal (s := ⟨mill, .empty, #[]⟩) hv
      (Cache.FreshFor.empty _)).2 {} 8 true s' hok ⟨_, _, hend.1⟩
    exact ⟨⟨hv, Cache.FreshFor.empty _⟩, s', rfl, hend.1, hend.2.1, hend.2.2, hnormal,
      hagain 8 s' rfl hfresh⟩

end Schedule

end SsaBackend
