import Mathlib.Tactic.IntervalCases
import SsaBackend.Proofs.Checked.Allocation
import SsaBackend.Proofs.Pass.Rounds
import SsaBackend.Proofs.Pass.Strictness

/-!
# Compilation is refused for want of registers only

The passes are not refused (`Config.repeatFrom_meets`), the intervals of what they leave can be
computed, and the allocation that is found for them passes its check if all slots of the function
have numbers (`Allocating.verify_cases`). What remains is that no allocation is found
(`compile_refused_for_registers`).

In blocks that are never run a select may choose itself. Folding it takes it away and leaves its
uses, and then the function is refused although nothing is wrong with the blocks that are run
(`compile_refuses_selfish_select`).
-/

namespace SsaBackend

/-! ## Selects that choose themselves -/

namespace Func

/-- Whether every select chooses among instructions of a lower rank. -/
def picksBelow (f : Func) (rank : InstId → Nat) : Bool :=
  f.instIds.all fun i => (f.inst? i).all fun p => p.inst.picks.all fun v =>
    v.inst?.all fun j => rank j < rank i

lemma picksEnd_of_rank {f : Func} (rank : InstId → Nat) (h : f.picksBelow rank = true) :
    f.PicksEnd := by
  have hone : ∀ i j, f.Picks i j → rank j < rank i := by
    rintro i j ⟨b, bb, p, -, -, hp, hpick⟩
    have hall := List.all_eq_true.1 h i (mem_instIds.2 ⟨p, hp⟩)
    rw [hp, Option.all_some, List.all_eq_true] at hall
    simpa [Value.inst?] using hall _ hpick
  have hmany : ∀ i j, Relation.TransGen f.Picks i j → rank j < rank i := by
    intro i j hij
    induction hij with
    | single hij => exact hone _ _ hij
    | tail _ hjk ih => exact Nat.lt_trans (hone _ _ hjk) ih
  intro i hi
  exact Nat.lt_irrefl _ (hmany i i hi)

end Func

/-! ## Registers for the function -/

namespace Allocating

/-- When nobody waits, the check accepts the allocation, unless pieces do not fit and a register that
is written at the last slot for that is spilled. -/
lemma verify_cases {t : Target} {start : Intervals} {s : AllocState}
    (h : Allocating t start (fun _ => False) s) (hstart : start.Computed) (hq : s.queue = []) :
    Allocation.verify ⟨s.matrix.assignment, s.spills⟩ s.intervals t = .ok () ∨
      ¬ start.PiecesFit ∧ ∃ r, Allocation.verify ⟨s.matrix.assignment, s.spills⟩ s.intervals t =
        .error (.malformed (.inAllocation (.uncoveredDef (slotLimit - 2) r))) := by
  have hregs : ∀ record ∈ s.spills, ∃ li, start.get? record.reg = some li := fun record hmem =>
    ⟨_, Array.getElem?_eq_getElem (h.history.records record hmem)⟩
  have huses : ∀ record ∈ s.spills, ∀ u ∈ record.usedAt,
      Allocation.Covers s.intervals record u := by
    intro record hmem u hu
    obtain ⟨li, hli⟩ := hregs record hmem
    rw [(h.covers hli hmem rfl).2.1] at hu
    exact h.covers_use hli hmem rfl hu (Nat.le_of_eq (hstart.usedAt _ li hli u hu))
  refine (Allocation.verify_seated h.sound (h.seated hq) (h.distinct hq) huses).imp id ?_
  rintro ⟨record, hmem, d, hd, hnot, herror⟩
  obtain ⟨li, hli⟩ := hregs record hmem
  rw [(h.covers hli hmem rfl).1] at hd
  have hlast : SpillRecord.LastTwo d := by
    by_contra hlast
    exact hnot (h.covers_def hli hmem rfl hd hlast)
  have hslot : d = slotLimit - 2 := by
    have hdef := hstart.defAt _ li hli d hd
    unfold SpillRecord.LastTwo slotLimit UInt32.size at *
    omega
  refine ⟨fun hfit => ?_, record.reg, hslot ▸ herror⟩
  have hstarts : d ∈ SpillRecord.starts li := SpillRecord.mem_starts.2 (.inl hd)
  exact Nat.not_lt.2 hlast.2 (hfit _ li hli (hstart.spillable _ li hli) d hstarts)

end Allocating

namespace Session

variable {s : Session}

/-- The intervals of a function without loose ends can be computed. Their pieces fit if the slots of
the function have numbers. -/
lemma intervals_meets (hg : s.func.cfg.Consistent) (hc : s.cache.FreshFor s.func)
    (E : Error → Prop) : Session.intervals.Meets s (fun ivs _ => ivs.Computed ∧
      (s.func.SlotsFit (s.func.loopForest s.func.cfg.domTree) → ivs.PiecesFit)) E := by
  unfold Session.intervals
  refine (Session.loops_meets hg hc E).bind ?_
  rintro lf s₁ ⟨rfl, hfunc, -⟩
  obtain ⟨-, hivs⟩ := Func.exists_liveIntervals hg (s.func.loopForest s.func.cfg.domTree)
  rw [← hfunc] at hivs ⊢
  exact Work.Meets.get_bind (Work.Meets.ofExcept_bind hivs (Work.Meets.modify_bind
    (Work.Meets.of_pure ⟨Func.computed_intervalsIn .., fun hslots => hslots.piecesFit⟩)))

lemma run_allocate (t : Target) (colors : Nat) (ivs : Intervals) (s : Session) :
    (Session.allocate t colors ivs).run s =
      match (SsaBackend.allocate t colors).run { intervals := ivs, journal := s.journal } with
      | .ok a st => .ok (a, st) { s with journal := st.journal }
      | .error e st => .error e { s with journal := st.journal } := rfl

/-- Registers are allocated so that the check accepts them, or there are not enough. If pieces do not
fit, the check may also miss one over a definition at the last slot for that. -/
lemma allocate_meets {t : Target} {colors : Nat} {ivs : Intervals} (hivs : ivs.Computed)
    (ht : t.validate = .ok ()) (hcolors : 1 ≤ colors) :
    (Session.allocate t colors ivs).Meets s
      (fun found _ => found.1.verify found.2.intervals t = .ok () ∨
        ¬ ivs.PiecesFit ∧ ∃ r, found.1.verify found.2.intervals t =
          .error (.malformed (.inAllocation (.uncoveredDef (slotLimit - 2) r))))
      fun e => ∃ r, e = .allocationFailed r := by
  have hmeets : (SsaBackend.allocate t colors).Meets { intervals := ivs, journal := s.journal }
      (fun _ _ => True) fun e => ∃ r, e = .allocationFailed r :=
    SsaBackend.allocate_meets hivs ht hcolors fun _ _ _ r _ _ _ _ => ⟨r, rfl⟩
  cases hrun : (SsaBackend.allocate t colors).run { intervals := ivs, journal := s.journal } with
  | ok a st =>
    obtain ⟨s', hinv, hq, hend, rfl⟩ := allocate_finishes hivs.sound hrun
    have hsession := run_allocate t colors ivs s
    rw [hrun] at hsession
    exact Work.Meets.of_ok hsession (hend ▸ hinv.verify_cases hivs hq)
  | error e st =>
    have hsession := run_allocate t colors ivs s
    rw [hrun] at hsession
    exact Work.Meets.of_error hsession (hmeets.error hrun)

end Session

/-! ## Compilation -/

/-- Where no select chooses itself, a function that passes the checks, whose entry has no
predecessors and whose uses are dominated where the entry leads is compiled or lacks registers,
for every register file that is valid and every positive number of colours. Only if what the passes
leave is so large that not all of its slots have numbers, it may also be refused because it writes a
register at the last slot for that, and the piece over this definition is empty. -/
theorem compile_refused_for_registers {f : Func} {c : Config} (hverify : f.verify = .ok ())
    (hentry : f.preds f.entry = []) (huses : f.DominatedWhereReached) (hends : f.PicksEnd)
    (hcolors : 1 ≤ c.colors) (htarget : c.target.validate = .ok ()) (journal : Journal) :
    (∃ compiled, (compile c).result ⟨f, .empty, journal⟩ = .ok compiled) ∨
      (∃ r, (compile c).result ⟨f, .empty, journal⟩ = .error (.allocationFailed r)) ∨
      ∃ changed s, (c.schedule.runToFixpoint c.maxRounds).run ⟨f, .empty, journal⟩ = .ok changed s ∧
        ¬ s.func.SlotsFit (s.func.loopForest s.func.cfg.domTree) ∧
        ∃ r, (compile c).result ⟨f, .empty, journal⟩ =
          .error (.malformed (.inAllocation (.uncoveredDef (slotLimit - 2) r))) := by
  obtain ⟨hframed, htight, hknown⟩ := Func.framed_of_verify hverify hentry
  have hready : Session.Holds Pass.constantOps.Needs ⟨f, .empty, journal⟩ :=
    ⟨⟨⟨hframed, htight, hknown, huses⟩, hends⟩, Cache.FreshFor.empty f⟩
  have hpasses : (c.schedule.runToFixpoint c.maxRounds).Meets ⟨f, .empty, journal⟩
      (fun _ => Session.Holds Pass.constantOps.Needs) fun _ => False :=
    Config.repeatFrom_meets _ _ hready
  have hmeets : (compile c).Meets ⟨f, .empty, journal⟩ (fun _ _ => True)
      fun e => (∃ r, e = .allocationFailed r) ∨ ∃ changed s,
        (c.schedule.runToFixpoint c.maxRounds).run ⟨f, .empty, journal⟩ = .ok changed s ∧
        ¬ s.func.SlotsFit (s.func.loopForest s.func.cfg.domTree) ∧
        ∃ r, e = .malformed (.inAllocation (.uncoveredDef (slotLimit - 2) r)) := by
    unfold compile
    refine (hpasses.with_run.mono (fun _ _ h => h) fun _ h => h.elim).bind ?_
    rintro changed s ⟨hs, hrun⟩
    refine Work.Meets.get_bind (Work.Meets.modify_bind ?_)
    set noted : Session := { s with journal := _ }
    have hconsistent : noted.func.cfg.Consistent := hs.func.1.consistent
    refine (Session.intervals_meets hconsistent hs.fresh _).bind fun ivs s₁ ⟨hivs, hfit⟩ => ?_
    refine ((Session.allocate_meets hivs htarget hcolors).mono (fun _ _ h => h) fun _ => .inl).bind ?_
    rintro ⟨a, st⟩ s₂ hcheck
    dsimp only
    split
    · rcases hcheck with hok | ⟨hnot, r, herror⟩
      · exact Work.Meets.ofExcept_bind hok (Work.Meets.of_pure trivial)
      · rw [herror]
        exact .of_error rfl (.inr ⟨changed, s, hrun, fun hslots => hnot (hfit hslots), r, rfl⟩)
    · exact Work.Meets.of_pure trivial
  unfold Work.result
  cases hrun : (compile c).run ⟨f, .empty, journal⟩ with
  | ok compiled s => exact .inl ⟨compiled, rfl⟩
  | error e s =>
    rcases hmeets.error hrun with ⟨r, rfl⟩ | ⟨changed, s', hpassed, hlarge, r, rfl⟩
    · exact .inr (.inl ⟨r, rfl⟩)
    · exact .inr (.inr ⟨changed, s', hpassed, hlarge, r, rfl⟩)

/-- A loop that sums up squares, and behind its exit another one that is never entered and in
which a select chooses `v`. -/
def stray (v : Value) : Func where
  name := "stray"
  numArgs := 1
  blocks := #[
    some { terminator := some (.jump ⟨1⟩) },
    some { phis := [⟨0⟩], body := [⟨1⟩, ⟨2⟩, ⟨3⟩], preds := [⟨0⟩, ⟨1⟩],
           terminator := some (.branch (.inst ⟨3⟩) ⟨1⟩ ⟨2⟩) },
    some { preds := [⟨1⟩], terminator := some (.ret (some (.inst ⟨2⟩))) },
    some { body := [⟨4⟩, ⟨5⟩], preds := [⟨3⟩], terminator := some (.jump ⟨3⟩) }]
  insts := #[
    some ⟨.phi ⟨[⟨⟨0⟩, .int 0⟩, ⟨⟨1⟩, .inst ⟨2⟩⟩]⟩, ⟨1⟩⟩,
    some ⟨.binary .mul (.arg 0) (.arg 0), ⟨1⟩⟩,
    some ⟨.binary .add (.inst ⟨0⟩) (.inst ⟨1⟩), ⟨1⟩⟩,
    some ⟨.compare .slt (.inst ⟨2⟩) (.int 100), ⟨1⟩⟩,
    some ⟨.select (.bool true) v (.int 5), ⟨3⟩⟩,
    some ⟨.binary .add (.inst ⟨4⟩) (.int 1), ⟨3⟩⟩]

/-- A select that chooses what is computed from it is folded without harm. -/
theorem compile_stray :
    (stray (.inst ⟨5⟩)).verify = .ok () ∧
    ((∃ compiled, (compile {}).result ⟨stray (.inst ⟨5⟩), .empty, #[]⟩ = .ok compiled) ∨
      ∃ r, (compile {}).result ⟨stray (.inst ⟨5⟩), .empty, #[]⟩ = .error (.allocationFailed r)) := by
  have hverify : (stray (.inst ⟨5⟩)).verify = .ok () := by decide +kernel
  have huses : (stray (.inst ⟨5⟩)).DominatedWhereReached :=
    Func.dominated_of_check (Func.verified_of_verify hverify).consistent (by decide +kernel)
  have hends : (stray (.inst ⟨5⟩)).PicksEnd :=
    Func.picksEnd_of_rank (fun i => if i = ⟨4⟩ then 1 else 0) (by decide +kernel)
  have haccepted : (match (compile {}).result ⟨stray (.inst ⟨5⟩), .empty, #[]⟩ with
      | .ok _ => none
      | .error e => some e) = none := by decide +kernel
  refine ⟨hverify, ?_⟩
  rcases compile_refused_for_registers (c := {}) hverify (by decide) huses hends (by decide)
    (by decide) #[] with hok | hfailed | ⟨_, _, _, _, r, hr⟩
  · exact .inl hok
  · exact .inr hfailed
  · rw [hr] at haccepted
    cases haccepted

/-- A select that chooses itself is taken away although it is used, and compilation is refused
for that use. -/
theorem compile_refuses_selfish_select :
    (stray (.inst ⟨4⟩)).verify = .ok () ∧
    (stray (.inst ⟨4⟩)).preds (stray (.inst ⟨4⟩)).entry = [] ∧
    (∀ i op v bits b, (stray (.inst ⟨4⟩)).inst? i = some ⟨.cast op v bits, b⟩ →
      1 ≤ bits ∧ bits ≤ 64) ∧
    (stray (.inst ⟨4⟩)).DominatedWhereReached ∧
    (compile {}).result ⟨stray (.inst ⟨4⟩), .empty, #[]⟩ =
      .error (.malformed (.inFunction "stray" (.removedOperand ⟨3⟩ ⟨4⟩))) := by
  have hverify : (stray (.inst ⟨4⟩)).verify = .ok () := by decide +kernel
  refine ⟨hverify, by decide, ?_, ?_, ?_⟩
  · intro i op v bits b h
    have hlt : i.index < 6 := Func.lt_instCapacity h
    obtain ⟨i⟩ := i
    interval_cases i <;> cases h
  · exact Func.dominated_of_check (Func.verified_of_verify hverify).consistent (by decide +kernel)
  · have hkind : (match (compile {}).result ⟨stray (.inst ⟨4⟩), .empty, #[]⟩ with
        | .ok _ => none
        | .error e => some e) =
        some (.malformed (.inFunction "stray" (.removedOperand ⟨3⟩ ⟨4⟩))) := by decide +kernel
    split at hkind
    · cases hkind
    · rename_i e he
      cases hkind
      exact he

end SsaBackend
