import SsaBackend.Alloc.Run
import SsaBackend.Proofs.Work

/-!
# The whole of an allocation

An allocation is work on a state of its own, in which nothing is allocated at first; of the state
that it leaves, the spilling is kept. Its stages are named here (`AllocState.whole`), so that what
is proved of them is proved of the allocation: of every one (`meets_of_whole`), of one that is
found (`allocate_ok`) and of one that is refused (`allocate_error`).
-/

namespace SsaBackend

lemma Target.validate_error {t : Target} {e : Error} (h : t.validate = .error e) :
    e = .notSupported := by
  unfold validate at h
  split at h
  · cases h
    rfl
  · cases h

namespace AllocState

/-- All of an allocation, with the work by which registers come to wait and that by which they get
their places. -/
def whole (t : Target) (colors : Nat) (prepare drain : Work AllocState Unit) :
    Work AllocState Allocation := do
  Work.ofExcept t.validate
  if colors = 0 then throw .notSupported
  prepare
  drain
  let s ← get
  note (.allocated s.matrix.assignment.size s.spills.length)
  return ⟨s.matrix.assignment, s.spills⟩

/-- Work that begins with nothing allocated. Of what it leaves, the spilling is kept. -/
def begun {α : Type} (t : Target) (work : Work AllocState α) : Work SpillState α := fun st =>
  match work.run ⟨st, .ofTarget t, [], []⟩ with
  | .ok a s => .ok a s.spilling
  | .error e s => .error e s.spilling

lemma whole_ok {t : Target} {colors : Nat} {prepare drain : Work AllocState Unit}
    {s s' : AllocState} {a : Allocation} : (whole t colors prepare drain).run s = .ok a s' ↔
      t.validate = .ok () ∧ colors ≠ 0 ∧ ∃ s₁ s₂, prepare.run s = .ok ⟨⟩ s₁ ∧
        drain.run s₁ = .ok ⟨⟩ s₂ ∧ a = ⟨s₂.matrix.assignment, s₂.spills⟩ ∧
        (note (.allocated s₂.matrix.assignment.size s₂.spills.length)).run s₂ = .ok ⟨⟩ s' := by
  unfold whole
  rw [Work.ofExcept_bind_ok]
  constructor
  · rintro ⟨_, hvalid, h⟩
    split at h
    · cases h
    · rename_i hcolors
      obtain ⟨_, s₁, hprepare, h⟩ := Work.bind_ok.1 h
      obtain ⟨_, s₂, hdrain, h⟩ := Work.bind_ok.1 h
      obtain ⟨_, s₃, hnote, h⟩ := Work.bind_ok.1 (Work.get_bind_ok.1 h)
      cases h
      exact ⟨hvalid, hcolors, s₁, s₂, hprepare, hdrain, rfl, hnote⟩
  · rintro ⟨hvalid, hcolors, s₁, s₂, hprepare, hdrain, rfl, hnote⟩
    refine ⟨(), hvalid, ?_⟩
    rw [if_neg hcolors]
    refine Work.bind_ok.2 ⟨⟨⟩, s₁, hprepare, Work.bind_ok.2 ⟨⟨⟩, s₂, hdrain, ?_⟩⟩
    exact Work.get_bind_ok.2 (Work.bind_ok.2 ⟨⟨⟩, s', hnote, rfl⟩)

section Begun

variable {α : Type} {t : Target} {x : Work AllocState α} {st st' : SpillState}

lemma begun_ok {a : α} : (begun t x).run st = .ok a st' ↔
    ∃ s, x.run ⟨st, .ofTarget t, [], []⟩ = .ok a s ∧ s.spilling = st' := by
  show begun t x st = _ ↔ _
  unfold begun
  cases x.run ⟨st, .ofTarget t, [], []⟩ <;> simp

lemma begun_error {e : Error} : (begun t x).run st = .error e st' ↔
    ∃ s, x.run ⟨st, .ofTarget t, [], []⟩ = .error e s ∧ s.spilling = st' := by
  show begun t x st = _ ↔ _
  unfold begun
  cases x.run ⟨st, .ofTarget t, [], []⟩ <;> simp

lemma begun_congr {y : Work AllocState α}
    (h : x.run ⟨st, .ofTarget t, [], []⟩ = y.run ⟨st, .ofTarget t, [], []⟩) :
    (begun t x).run st = (begun t y).run st := by
  show begun t x st = begun t y st
  unfold begun
  rw [h]

end Begun

end AllocState

open AllocState

variable {t : Target} {colors : Nat} {st st' : SpillState}

lemma run_allocate (t : Target) (colors : Nat) (st : SpillState) : (allocate t colors).run st =
    (begun t (whole t colors (prepare colors) (drain t (turns st.intervals)))).run st := by
  show allocate t colors st = begun t _ st
  unfold allocate begun whole
  dsimp only
  generalize EStateM.run _ _ = r
  cases r <;> rfl

/-- An allocation that is found has gone through all stages. -/
lemma allocate_ok {a : Allocation} : (allocate t colors).run st = .ok a st' ↔
    ∃ s, (whole t colors (prepare colors) (drain t (turns st.intervals))).run
      ⟨st, .ofTarget t, [], []⟩ = .ok a s ∧ s.spilling = st' := by
  rw [run_allocate, begun_ok]

/-- An allocation that is refused is so in some stage. -/
lemma allocate_error {e : Error} : (allocate t colors).run st = .error e st' ↔
    ∃ s, (whole t colors (prepare colors) (drain t (turns st.intervals))).run
      ⟨st, .ofTarget t, [], []⟩ = .error e s ∧ s.spilling = st' := by
  rw [run_allocate, begun_error]

/-- How the stages end says how an allocation does. -/
lemma meets_of_whole {Q : Allocation → AllocState → Prop} {E : Error → Prop}
    (h : (whole t colors (prepare colors) (drain t (turns st.intervals))).Meets
      ⟨st, .ofTarget t, [], []⟩ Q E) :
    (allocate t colors).Meets st (fun a st' => ∃ s, Q a s ∧ s.spilling = st') E := by
  cases hrun : (allocate t colors).run st with
  | ok a st' =>
    obtain ⟨s, hwhole, hs⟩ := allocate_ok.1 hrun
    exact .of_ok hrun ⟨s, h.ok hwhole, hs⟩
  | error e st' =>
    obtain ⟨s, hwhole, -⟩ := allocate_error.1 hrun
    exact .of_error hrun (h.error hwhole)

end SsaBackend
