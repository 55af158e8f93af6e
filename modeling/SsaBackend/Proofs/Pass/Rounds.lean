import SsaBackend.Compile
import SsaBackend.Proofs.Hoist.Clean
import SsaBackend.Proofs.Pass.ConstantOps
import SsaBackend.Proofs.Pass.Edges
import SsaBackend.Proofs.Preheader.Complete

/-!
# Rounds of passes

Each pass needs something of the function it is run on (`Pass.Needs`) and leaves something
behind (`Pass.Leaves`); in particular, what it leaves passes the checks. Run on a function that
is as it needs, a pass of a schedule is not refused (`Schedule.runPass_meets`). In the schedule
of a compilation each pass leaves what the next one needs, and the last one leaves what the next
round needs, so rounds can be repeated (`Config.repeatFrom_meets`).
-/

namespace SsaBackend

open Func

/-! ## What passes need and leave -/

/-- A function that passes the checks, whose entry has no predecessors, and whose uses are
dominated where the entry leads. -/
structure Func.Sturdy (f : Func) : Prop where
  framed : f.Framed
  tight : f.Tight
  operands : f.OperandsKnown
  dominated : f.DominatedWhereReached

namespace Func

variable {f : Func}

lemma Sturdy.verify (h : f.Sturdy) : f.verify = .ok () :=
  verify_of_wired h.framed.toWired h.tight h.operands

lemma Sturdy.consistent (h : f.Sturdy) : f.cfg.Consistent := h.framed.consistent h.tight

lemma Clean.sturdy (h : f.Clean) : f.Sturdy := ⟨h.framed, h.tight, h.operands, h.dominated⟩

lemma Clean.picksEnd (h : f.Clean) : f.PicksEnd :=
  picksEnd_of_dominated h.framed h.dominated h.reached

end Func

namespace Pass

/-- What a pass needs of a function. -/
def Needs : Pass → Func → Prop
  | constantOps => fun f => f.Sturdy ∧ f.PicksEnd
  | branchFold | deadBlocks => Sturdy
  | preheaders => Clean
  | hoist => fun f => f.Clean ∧ Preheaders.Complete f

/-- What a pass leaves of a function that is as it needs. -/
def Leaves : Pass → Func → Prop
  | constantOps | branchFold => Sturdy
  | deadBlocks | hoist => Clean
  | preheaders => fun f => f.Clean ∧ Preheaders.Complete f

lemma Needs.sturdy {p : Pass} {f : Func} (h : p.Needs f) : f.Sturdy := by
  cases p with
  | constantOps => exact h.1
  | branchFold => exact h
  | deadBlocks => exact h
  | preheaders => exact Clean.sturdy h
  | hoist => exact h.1.sturdy

lemma Leaves.sturdy {p : Pass} {f : Func} (h : p.Leaves f) : f.Sturdy := by
  cases p with
  | constantOps => exact h
  | branchFold => exact h
  | deadBlocks => exact Clean.sturdy h
  | preheaders => exact h.1.sturdy
  | hoist => exact Clean.sturdy h

end Pass

/-- The function of a session is as `P` says, and what is known of it is up to date. -/
structure Session.Holds (P : Func → Prop) (s : Session) : Prop where
  func : P s.func
  fresh : s.cache.FreshFor s.func

lemma Session.Holds.mono {P Q : Func → Prop} {s : Session} (h : s.Holds P)
    (hPQ : ∀ f, P f → Q f) : s.Holds Q := ⟨hPQ _ h.func, h.fresh⟩

/-! ## One pass -/

namespace Pass

variable {p : Pass} {s : Session}

/-- What is known after a pass once the analyses that it does not keep are forgotten. -/
def cacheAfter (p : Pass) (changed : Bool) (c : Cache) : Cache :=
  if changed then c.keepOnly p.kept else c

lemma fresh_cacheAfter {f : Func} {c : Cache} (h : c.FreshFor f) (changed : Bool) :
    (p.cacheAfter changed c).FreshFor f := by
  unfold cacheAfter
  split
  · exact h.keepOnly _
  · exact h

/-- A pass that keeps no analysis leaves nothing stale if it answers truly whether it changed the
function. -/
lemma fresh_of_forgotten {f g : Func} {c : Cache} {changed : Bool} (hkept : p.kept = .none)
    (h : c.FreshFor f) (hsame : changed = false → g = f) :
    (p.cacheAfter changed c).FreshFor g := by
  unfold cacheAfter
  cases changed with
  | true =>
    rw [if_pos rfl, hkept]
    exact Cache.FreshFor.empty g
  | false =>
    rw [hsame rfl]
    exact h

/-- A pass that has what it needs is not refused, leaves what it should, and what it says it
keeps is up to date. -/
lemma run_meets (h : s.Holds p.Needs) :
    p.run.Meets s (fun changed s' => p.Leaves s'.func ∧
      (p.cacheAfter changed s'.cache).FreshFor s'.func) fun _ => False := by
  obtain ⟨hneeds, hfresh⟩ := h
  have hsturdy := hneeds.sturdy
  cases p with
  | constantOps =>
    have hends := ConstantOps.foldAll_ends hsturdy.framed hsturdy.operands hneeds.2
    refine (ConstantOps.run_folds hsturdy.framed).mono ?_ fun _ hleft => hleft hends
    rintro changed s' ⟨hcache, hshape, hframed, hdom, hknown⟩
    refine ⟨⟨hframed, hshape.tight hsturdy.tight, hknown hsturdy.operands hneeds.2,
      hdom hsturdy.dominated⟩, fresh_cacheAfter ?_ _⟩
    rw [hcache]
    exact hfresh.sameShape hshape
  | branchFold =>
    refine (BranchFold.run_folds hsturdy.framed hsturdy.tight).mono ?_ fun _ h => h
    rintro changed s' ⟨hcache, hsame, htight, hkeep⟩
    exact ⟨⟨hkeep.framed, htight, hkeep.operands hsturdy.operands,
      hkeep.dominated hsturdy.dominated⟩, fresh_of_forgotten rfl (hcache ▸ hfresh) hsame⟩
  | deadBlocks =>
    refine (DeadBlocks.run_removes hsturdy.framed hsturdy.tight).mono ?_ fun _ h => h
    rintro changed s' ⟨hcache, hsame, hframed, htight, hall, hdom, hargs⟩
    exact ⟨⟨hframed, htight, hall, hdom hsturdy.dominated, hargs hsturdy.operands.args⟩,
      fresh_of_forgotten rfl (hcache ▸ hfresh) hsame⟩
  | preheaders =>
    refine (Preheaders.run_completes hneeds hfresh).mono ?_ fun _ h => h
    rintro changed s' ⟨hc, hfresh', hcomplete⟩
    exact ⟨⟨hc, hcomplete⟩, fresh_cacheAfter hfresh' _⟩
  | hoist =>
    refine (Hoist.run_hoists hneeds.1 hfresh (E := fun _ => False) ?_).mono ?_ fun _ h => h
    · intro l hl hnone
      obtain ⟨pre, hpre⟩ := hneeds.2 l hl
      rw [hnone] at hpre
      cases hpre
    · rintro changed s' ⟨hc, -, hfresh'⟩
      exact ⟨hc, fresh_cacheAfter hfresh' _⟩

end Pass

namespace Schedule

/-- A pass of a schedule that has what it needs is not refused, nor is what it leaves. -/
lemma runPass_meets (sch : Schedule) {p : Pass} {s : Session} (h : s.Holds p.Needs) :
    (sch.runPass p).Meets s (fun _ s' => s'.Holds p.Leaves) fun _ => False := by
  unfold runPass
  refine (Session.compute_meets h.func.sturdy.consistent h.fresh p.wanted _).bind ?_
  rintro _ s₁ ⟨hfunc, hfresh⟩
  have h₁ : s₁.Holds p.Needs := ⟨hfunc ▸ h.func, hfunc ▸ hfresh⟩
  refine (Pass.run_meets h₁).bind ?_
  rintro changed s₂ ⟨hleaves, hfresh₂⟩
  refine Work.Meets.modify_bind ?_
  cases changed with
  | false => exact Work.Meets.of_pure ⟨hleaves, hfresh₂⟩
  | true =>
    refine Work.Meets.get_bind (Work.Meets.modify_bind ?_)
    dsimp only
    split
    · exact Work.Meets.get_bind (Work.Meets.ofExcept_bind hleaves.sturdy.verify
        (Work.Meets.of_pure ⟨hleaves, hfresh₂⟩))
    · exact Work.Meets.of_pure ⟨hleaves, hfresh₂⟩

/-- A list of passes goes through if its first pass does and hands on what the others need. -/
lemma foldlM_runPass_cons {sch : Schedule} {p : Pass} {rest : List Pass} {s : Session}
    {R : Bool → Session → Prop} {any : Bool} (h : s.Holds p.Needs)
    (hrest : ∀ any s', s'.Holds p.Leaves →
      (rest.foldlM (fun any p => return (← sch.runPass p) || any) any).Meets s' R
        fun _ => False) :
    ((p :: rest).foldlM (fun any p => return (← sch.runPass p) || any) any).Meets s R
      fun _ => False := by
  rw [List.foldlM_cons]
  refine Work.Meets.bind ((sch.runPass_meets h).bind fun changed s' hs' => ?_)
    fun any' s' => hrest any' s'
  exact Work.Meets.of_pure hs'

end Schedule

/-! ## The rounds of a compilation -/

namespace Config

variable {c : Config} {s : Session}

lemma validate_schedule (c : Config) : c.schedule.validate = .ok () := by
  unfold schedule Schedule.validate
  dsimp only
  cases c.hoist <;> decide

/-- One round leaves a clean function. -/
lemma round_meets (h : s.Holds Pass.constantOps.Needs) :
    c.schedule.run.Meets s (fun _ s' => s'.Holds Clean) fun _ => False := by
  unfold Schedule.run
  refine Work.Meets.ofExcept_bind c.validate_schedule ?_
  refine Schedule.foldlM_runPass_cons h fun _ s₁ h₁ => ?_
  refine Schedule.foldlM_runPass_cons (p := .branchFold) h₁ fun _ s₂ h₂ => ?_
  refine Schedule.foldlM_runPass_cons (p := .deadBlocks) h₂ fun _ s₃ h₃ => ?_
  cases c.hoist with
  | false => exact Work.Meets.of_pure h₃
  | true =>
    refine Schedule.foldlM_runPass_cons (p := .preheaders) h₃ fun _ s₄ h₄ => ?_
    exact Schedule.foldlM_runPass_cons (p := .hoist) h₄ fun _ s₅ h₅ => Work.Meets.of_pure h₅

/-- Rounds can be repeated: each leaves what the next one needs. -/
lemma repeatFrom_meets (left i : Nat) (h : s.Holds Pass.constantOps.Needs) :
    (c.schedule.repeatFrom i left).Meets s (fun _ s' => s'.Holds Pass.constantOps.Needs)
      fun _ => False := by
  induction left generalizing i s with
  | zero =>
    unfold Schedule.repeatFrom
    exact Work.Meets.modify_bind (Work.Meets.of_pure ⟨h.func, h.fresh⟩)
  | succ left ih =>
    unfold Schedule.repeatFrom
    refine (round_meets h).bind fun changed s' hs' => ?_
    have hnext := hs'.mono (Q := Pass.constantOps.Needs) fun f hc => ⟨hc.sturdy, hc.picksEnd⟩
    split
    · exact ih (i + 1) hnext
    · exact Work.Meets.modify_bind (Work.Meets.of_pure ⟨hnext.func, hnext.fresh⟩)

end Config

end SsaBackend
