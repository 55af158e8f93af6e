/-!
# Bounded iteration

Every loop of the back end is a one-step function repeated until it has nothing left to
do. `repeatUpTo` is that repetition, with a bound on the number of rounds, so that the
loop is total by construction; `repeatUpTo_done` says that a bound which dominates a
measure that every step lowers is never felt. What a loop without a bound comes to, if it
comes to anything, is said by `Rests`.
-/

namespace SsaBackend

/-- Repeats `step` until it answers `none`, at most `n` times. -/
def repeatUpTo {σ : Type} (step : σ → Option σ) : Nat → σ → σ
  | 0, s => s
  | n + 1, s =>
    match step s with
    | none => s
    | some s' => repeatUpTo step n s'

/-- A state in which there is nothing to do is left alone. -/
theorem repeatUpTo_of_none {σ : Type} {step : σ → Option σ} {s : σ} (h : step s = none)
    (n : Nat) : repeatUpTo step n s = s := by
  cases n with
  | zero => rfl
  | succ n => simp [repeatUpTo, h]

/-- What holds at the start and is kept by every step holds at the end. -/
theorem repeatUpTo_induct {σ : Type} {step : σ → Option σ} (P : σ → Prop)
    (hstep : ∀ s s', P s → step s = some s' → P s') (n : Nat) (s : σ) (h : P s) :
    P (repeatUpTo step n s) := by
  induction n generalizing s with
  | zero => exact h
  | succ n ih =>
    rw [repeatUpTo]
    split
    · exact h
    · exact ih _ (hstep _ _ h (by assumption))

/-- If every step from a state of interest lowers a measure, a bound at least as large as the
measure at the start lets the loop run to its end. -/
theorem repeatUpTo_done {σ : Type} {step : σ → Option σ} (P : σ → Prop) (μ : σ → Nat)
    (hP : ∀ s s', P s → step s = some s' → P s')
    (hμ : ∀ s s', P s → step s = some s' → μ s' < μ s) (n : Nat) (s : σ) (hs : P s)
    (hn : μ s ≤ n) : step (repeatUpTo step n s) = none := by
  induction n generalizing s with
  | zero =>
    rw [repeatUpTo]
    cases h : step s with
    | none => rfl
    | some s' => exact absurd (hμ _ _ hs h) (by omega)
  | succ n ih =>
    rw [repeatUpTo]
    split
    · assumption
    · rename_i s' h
      exact ih s' (hP _ _ hs h) (by have := hμ _ _ hs h; omega)

/-- The loop comes to rest: steps lead from the one state to the other, and none leads on. -/
inductive Rests {σ : Type} (step : σ → Option σ) : σ → σ → Prop
  | here {s : σ} (h : step s = none) : Rests step s s
  | next {s s' t : σ} (h : step s = some s') (rest : Rests step s' t) : Rests step s t

/-- A loop whose bound lets it run to its end comes to rest there. -/
theorem rests_repeatUpTo {σ : Type} {step : σ → Option σ} {n : Nat} {s : σ}
    (h : step (repeatUpTo step n s) = none) : Rests step s (repeatUpTo step n s) := by
  induction n generalizing s with
  | zero => exact .here h
  | succ n ih =>
    rw [repeatUpTo] at h ⊢
    split
    · exact .here (by assumption)
    · rename_i s' hs
      rw [hs] at h
      exact .next hs (ih h)

end SsaBackend
