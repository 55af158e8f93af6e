import Mathlib.Tactic.Common
import SsaBackend.Work

/-!
# Reading work that ended well

Work that ends with a result went through all of its parts. `bind_ok` takes a sequence apart
into its two halves, and `foldlM_induct` and `forM_induct` carry what holds of the state along
a loop over a list, with the part of the list that is still to come in view. Answers that do
not touch a state are read the same way, by `except_bind_ok` and `forM_ok`.
-/

namespace SsaBackend

/-! ## Answers -/

/-- One answer after another is good exactly if both are. -/
lemma except_bind_ok {ε α β : Type} {x : Except ε α} {k : α → Except ε β} {b : β} :
    (x >>= k) = .ok b ↔ ∃ a, x = .ok a ∧ k a = .ok b := by
  cases x with
  | ok a => simp [bind, Except.bind]
  | error e => simp [bind, Except.bind]

/-- What is read off an answer is good exactly if the answer is. -/
lemma except_map_ok {ε α β : Type} {x : Except ε α} {g : α → β} {b : β} :
    x.map g = .ok b ↔ ∃ a, x = .ok a ∧ g a = b := by
  cases x with
  | ok a => simp [Except.map]
  | error e => simp [Except.map]

/-- A loop of checks is good exactly if all of them are. -/
lemma forM_ok {ε α : Type} {f : α → Except ε Unit} {l : List α} :
    l.forM f = .ok () ↔ ∀ a ∈ l, f a = .ok () := by
  induction l with
  | nil => simp [pure, Except.pure]
  | cons a rest ih =>
    show (f a >>= fun _ => rest.forM f) = .ok () ↔ _
    rw [except_bind_ok, List.forall_mem_cons, ← ih]
    constructor
    · intro h
      obtain ⟨_, ha, hrest⟩ := h
      exact ⟨ha, hrest⟩
    · intro h
      exact ⟨(), h.1, h.2⟩

/-- A loop of checks is good, or fails as one of them does. -/
lemma forM_cases {ε α : Type} (f : α → Except ε Unit) (l : List α) :
    l.forM f = .ok () ∨ ∃ a ∈ l, ∃ e, f a = .error e ∧ l.forM f = .error e := by
  induction l with
  | nil => exact .inl rfl
  | cons a rest ih =>
    have hcons : (a :: rest).forM f = (f a >>= fun _ => rest.forM f) := rfl
    rw [hcons]
    cases ha : f a with
    | error e => exact .inr ⟨a, List.mem_cons_self, e, ha, rfl⟩
    | ok u =>
      rcases ih with hok | ⟨b, hb, e, he, hrest⟩
      · exact .inl hok
      · exact .inr ⟨b, List.mem_cons_of_mem _ hb, e, he, hrest⟩

/-! ## Work -/

namespace Work

variable {σ α β : Type}

/-- A sequence ends well exactly if both halves do, one after the other. -/
lemma bind_ok {x : Work σ α} {k : α → Work σ β} {s s' : σ} {b : β} :
    (x >>= k).run s = .ok b s' ↔ ∃ a t, x.run s = .ok a t ∧ (k a).run t = .ok b s' := by
  rw [EStateM.run_bind]
  cases x.run s with
  | ok a t => simp
  | error e t => simp

/-- Work that begins by looking at the state goes on with it. -/
lemma get_bind_run {k : σ → Work σ β} {s : σ} : (get >>= k).run s = (k s).run s := rfl

lemma get_bind_ok {k : σ → Work σ β} {s s' : σ} {b : β} :
    (get >>= k).run s = .ok b s' ↔ (k s).run s = .ok b s' := Iff.rfl

/-- Work that begins with an answer found without the state goes on with a good one. -/
lemma ofExcept_bind_ok {r : Except Error α} {k : α → Work σ β} {s s' : σ} {b : β} :
    (ofExcept r >>= k).run s = .ok b s' ↔ ∃ a, r = .ok a ∧ (k a).run s = .ok b s' := by
  cases r with
  | ok a =>
    show (k a).run s = .ok b s' ↔ _
    simp
  | error e =>
    show EStateM.Result.error e s = .ok b s' ↔ _
    simp

/-- What holds at the start of a loop over a list, with the whole list to come, and is handed
on by every round, holds at its end. -/
lemma foldlM_induct {f : β → α → Work σ β} (P : List α → σ → Prop)
    (hstep : ∀ b a rest s b' s', P (a :: rest) s → (f b a).run s = .ok b' s' → P rest s')
    (l : List α) (b b' : β) (s s' : σ) (h : P l s) (hrun : (l.foldlM f b).run s = .ok b' s') :
    P [] s' := by
  induction l generalizing b s with
  | nil =>
    cases hrun
    exact h
  | cons a rest ih =>
    rw [List.foldlM_cons] at hrun
    obtain ⟨c, t, ha, hrest⟩ := bind_ok.1 hrun
    exact ih c t (hstep b a rest s c t h ha) hrest

/-- The same for a loop that gathers nothing. -/
lemma forM_induct {f : α → Work σ PUnit} (P : List α → σ → Prop)
    (hstep : ∀ a rest s s', P (a :: rest) s → (f a).run s = .ok ⟨⟩ s' → P rest s')
    (l : List α) (s s' : σ) (h : P l s) (hrun : (l.forM f).run s = .ok ⟨⟩ s') : P [] s' := by
  induction l generalizing s with
  | nil =>
    cases hrun
    exact h
  | cons a rest ih =>
    obtain ⟨_, t, ha, hrest⟩ := bind_ok.1 hrun
    exact ih t (hstep a rest s t h ha) hrest

/-- A loop that is refused goes well up to the round that is. -/
lemma forM_error {f : α → Work σ PUnit} {l : List α} {s s' : σ} {e : Error}
    (hrun : (l.forM f).run s = .error e s') : ∃ before a after t, l = before ++ a :: after ∧
      (before.forM f).run s = .ok ⟨⟩ t ∧ (f a).run t = .error e s' := by
  induction l generalizing s with
  | nil => cases hrun
  | cons a rest ih =>
    have hcons : ∀ l, ((a :: l).forM f).run s = (f a >>= fun _ => l.forM f).run s := fun _ => rfl
    rw [hcons, EStateM.run_bind] at hrun
    cases ha : (f a).run s with
    | error e t =>
      rw [ha] at hrun
      exact ⟨[], a, rest, s, rfl, rfl, ha.trans hrun⟩
    | ok u t =>
      rw [ha] at hrun
      obtain ⟨before, b, after, t', rfl, hbefore, hb⟩ := ih hrun
      refine ⟨a :: before, b, after, t', rfl, ?_, hb⟩
      rw [hcons, EStateM.run_bind, ha]
      exact hbefore

/-- A sequence leaves the state of its second half, if it comes to that. -/
lemma state_bind (x : Work σ α) (k : α → Work σ β) (s : σ) :
    (x >>= k).state s = match x.run s with
      | .ok a t => (k a).state t
      | .error _ t => t := by
  unfold state
  rw [EStateM.run_bind]
  cases x.run s <;> rfl

/-- Work has an answer exactly if it runs to it. -/
lemma result_ok {x : Work σ α} {s : σ} {a : α} :
    x.result s = .ok a ↔ ∃ s', x.run s = .ok a s' := by
  unfold result
  cases x.run s with
  | ok a' s' => simp
  | error e s' => simp

lemma state_of_ok {x : Work σ α} {s s' : σ} {a : α} (h : x.run s = .ok a s') : x.state s = s' := by
  unfold state
  rw [h]

/-- Work with an answer runs to it and to the state that it leaves. -/
lemma run_of_result {x : Work σ α} {s : σ} {a : α} (h : x.result s = .ok a) :
    x.run s = .ok a (x.state s) := by
  obtain ⟨s', hrun⟩ := result_ok.1 h
  rw [hrun, state_of_ok hrun]

/-- Work is refused an answer exactly if it runs to an error. -/
lemma result_error {x : Work σ α} {s : σ} {e : Error} :
    x.result s = .error e ↔ ∃ s', x.run s = .error e s' := by
  unfold result
  cases x.run s with
  | ok a s' => simp
  | error e' s' => simp

/-! ## Work that is not refused -/

/-- The work ends with a result that is as `Q` says, or it never ends; it is not refused. -/
def Yields (x : Work σ α) (s : σ) (Q : α → σ → Prop) : Prop :=
  match x.run s with
  | .ok a s' => Q a s'
  | .error e _ => e = .endless

namespace Yields

variable {Q : α → σ → Prop} {s : σ} {x : Work σ α}

lemma of_pure {a : α} (h : Q a s) : Yields (pure a : Work σ α) s Q := h

lemma of_throw : Yields (throw .endless : Work σ α) s Q := rfl

lemma bind {k : α → Work σ β} {R : β → σ → Prop} (hx : x.Yields s Q)
    (hk : ∀ a s', Q a s' → (k a).Yields s' R) : (x >>= k).Yields s R := by
  unfold Yields at *
  rw [EStateM.run_bind]
  cases hrun : x.run s with
  | ok a s' =>
    rw [hrun] at hx
    exact hk a s' hx
  | error e s' =>
    rw [hrun] at hx
    exact hx

lemma get_bind {k : σ → Work σ α} (h : (k s).Yields s Q) : (get >>= k).Yields s Q := h

lemma modify_bind {g : σ → σ} {k : PUnit → Work σ α} (h : (k ⟨⟩).Yields (g s) Q) :
    (modify g >>= k).Yields s Q := h

lemma ofExcept_bind {r : Except Error β} {b : β} {k : β → Work σ α} (hr : r = .ok b)
    (h : (k b).Yields s Q) : (ofExcept r >>= k).Yields s Q := by
  subst hr
  exact h

lemma mono {R : α → σ → Prop} (h : x.Yields s Q) (hQ : ∀ a s', Q a s' → R a s') :
    x.Yields s R := by
  unfold Yields at *
  cases hrun : x.run s with
  | ok a s' =>
    rw [hrun] at h
    exact hQ a s' h
  | error e s' =>
    rw [hrun] at h
    exact h

/-- A loop over a list hands on what holds before each of its rounds. -/
lemma forM {f : β → Work σ PUnit} (I : List β → σ → Prop)
    (hstep : ∀ b rest s, I (b :: rest) s → (f b).Yields s fun _ s' => I rest s') (l : List β)
    (h : I l s) : (l.forM f).Yields s fun _ s' => I [] s' := by
  induction l generalizing s with
  | nil => exact h
  | cons b rest ih => exact (hstep b rest s h).bind fun _ s' hs' => ih hs'

lemma ok (h : x.Yields s Q) {a : α} {s' : σ} (hrun : x.run s = .ok a s') : Q a s' := by
  unfold Yields at h
  rw [hrun] at h
  exact h

lemma error (h : x.Yields s Q) {e : Error} {s' : σ} (hrun : x.run s = .error e s') :
    e = .endless := by
  unfold Yields at h
  rw [hrun] at h
  exact h

lemma and {R : α → σ → Prop} (h : x.Yields s Q) (h' : x.Yields s R) :
    x.Yields s fun a s' => Q a s' ∧ R a s' := by
  unfold Yields at *
  cases hrun : x.run s with
  | ok a s' =>
    rw [hrun] at h h'
    exact ⟨h, h'⟩
  | error e s' =>
    rw [hrun] at h
    exact h

/-- The answer and the state are those of the run. -/
lemma with_run (h : x.Yields s Q) : x.Yields s fun a s' => Q a s' ∧ x.run s = .ok a s' := by
  unfold Yields at *
  cases hrun : x.run s with
  | ok a s' =>
    rw [hrun] at h
    exact ⟨h, rfl⟩
  | error e s' =>
    rw [hrun] at h
    exact h

end Yields

/-! ## Looking on while a list is worked through -/

/-- What is gathered while a list is worked through and every round is looked at in the state in
which it begins. -/
def gather {γ : Type} (f : β → Work σ PUnit) (look : β → σ → List γ) : List β → σ → List γ
  | [], _ => []
  | b :: rest, s => look b s ++ gather f look rest ((f b).state s)

/-- A loop over a list hands on what holds before each of its rounds, of what was gathered by
then. -/
lemma Yields.forM_gather {γ : Type} {s : σ} {f : β → Work σ PUnit} {look : β → σ → List γ}
    (I : List γ → List β → σ → Prop)
    (hstep : ∀ got b rest s, I got (b :: rest) s →
      (f b).Yields s fun _ s' => I (got ++ look b s) rest s')
    (l : List β) (got : List γ) (h : I got l s) :
    (l.forM f).Yields s fun _ s' => I (got ++ gather f look l s) [] s' := by
  induction l generalizing s got with
  | nil => exact (List.append_nil got).symm ▸ h
  | cons b rest ih =>
    refine (hstep got b rest s h).with_run.bind ?_
    rintro _ s' ⟨hs', hrun⟩
    refine (ih (got ++ look b s) hs').mono ?_
    intro _ s'' hs''
    rwa [List.append_assoc, ← state_of_ok hrun] at hs''

/-! ## Work that ends -/

/-- The work does not go on for ever. -/
def Halts (x : Work σ α) (s : σ) : Prop := ∀ s', x.run s ≠ .error .endless s'

namespace Halts

variable {Q : α → σ → Prop} {s : σ} {x : Work σ α}

lemma of_ok {a : α} {s' : σ} (hrun : x.run s = .ok a s') : x.Halts s := by
  intro t ht
  rw [hrun] at ht
  cases ht

lemma of_pure {a : α} : Halts (pure a : Work σ α) s := of_ok rfl

lemma get_bind {k : σ → Work σ α} (h : (k s).Halts s) : (get >>= k).Halts s := h

lemma modify_bind {g : σ → σ} {k : PUnit → Work σ α} (h : (k ⟨⟩).Halts (g s)) :
    (modify g >>= k).Halts s := h

lemma ofExcept_bind {r : Except Error β} {b : β} {k : β → Work σ α} (hr : r = .ok b)
    (h : (k b).Halts s) : (ofExcept r >>= k).Halts s := by
  subst hr
  exact h

/-- A sequence ends if both halves do; what the first yields is there for the second. -/
lemma bind {k : α → Work σ β} (hx : x.Halts s) (hq : x.Yields s Q)
    (hk : ∀ a s', Q a s' → (k a).Halts s') : (x >>= k).Halts s := by
  intro t ht
  rw [EStateM.run_bind] at ht
  cases hrun : x.run s with
  | ok a s' =>
    rw [hrun] at ht
    exact hk a s' (hq.ok hrun) t ht
  | error e s' =>
    rw [hrun] at ht
    cases ht
    exact hx t hrun

/-- A sequence ends if its first half does and its second always does. -/
lemma followed {k : α → Work σ β} (hx : x.Halts s) (hk : ∀ a s', (k a).Halts s') :
    (x >>= k).Halts s := by
  intro t ht
  rw [EStateM.run_bind] at ht
  cases hrun : x.run s with
  | ok a s' =>
    rw [hrun] at ht
    exact hk a s' t ht
  | error e s' =>
    rw [hrun] at ht
    cases ht
    exact hx t hrun

/-- A loop ends if every round does in what the rounds before it yield. -/
lemma forM {f : β → Work σ PUnit} (I : List β → σ → Prop)
    (hyields : ∀ b rest s, I (b :: rest) s → (f b).Yields s fun _ s' => I rest s')
    (hhalts : ∀ b rest s, I (b :: rest) s → (f b).Halts s) (l : List β) (h : I l s) :
    (l.forM f).Halts s := by
  induction l generalizing s with
  | nil => exact of_pure
  | cons b rest ih =>
    exact (hhalts b rest s h).bind (hyields b rest s h) fun _ s' hs' => ih hs'

end Halts

/-- Work that is not refused and ends has a result. -/
lemma Yields.exists_ok {Q : α → σ → Prop} {s : σ} {x : Work σ α} (h : x.Yields s Q)
    (hx : x.Halts s) : ∃ a s', x.run s = .ok a s' ∧ Q a s' := by
  cases hrun : x.run s with
  | ok a s' => exact ⟨a, s', rfl, h.ok hrun⟩
  | error e s' =>
    obtain rfl := h.error hrun
    exact absurd hrun (hx s')

/-! ## What work leaves behind -/

/-- Whatever the work comes to, it leaves a state that is as `Q` says, unless it never ends. -/
def Leaves (x : Work σ α) (s : σ) (Q : σ → Prop) : Prop :=
  match x.run s with
  | .ok _ s' => Q s'
  | .error e s' => e ≠ .endless → Q s'

namespace Leaves

variable {Q : σ → Prop} {s : σ} {x : Work σ α}

lemma of_yields {P : α → σ → Prop} (h : x.Yields s P) (hP : ∀ a s', P a s' → Q s') :
    x.Leaves s Q := by
  unfold Leaves
  cases hrun : x.run s with
  | ok a s' => exact hP a s' (h.ok hrun)
  | error e s' => exact fun hne => absurd (h.error hrun) hne

/-- Dropping the answer leaves the same state. -/
lemma map {g : α → β} (h : x.Leaves s Q) : (x >>= fun a => pure (g a)).Leaves s Q := by
  unfold Leaves at *
  rw [EStateM.run_bind]
  cases hrun : x.run s with
  | ok a s' =>
    rw [hrun] at h
    exact h
  | error e s' =>
    rw [hrun] at h
    exact h

end Leaves

/-! ## However work ends -/

/-- The work ends with a result that is as `Q` says, or is refused and leaves a state that is as
`R` says. -/
def Ends (x : Work σ α) (s : σ) (Q : α → σ → Prop) (R : σ → Prop) : Prop :=
  match x.run s with
  | .ok a s' => Q a s'
  | .error _ s' => R s'

namespace Ends

variable {Q : α → σ → Prop} {R : σ → Prop} {s : σ} {x : Work σ α}

lemma of_ok {a : α} {s' : σ} (hrun : x.run s = .ok a s') (h : Q a s') : x.Ends s Q R := by
  unfold Ends
  rw [hrun]
  exact h

lemma of_pure {a : α} (h : Q a s) : Ends (pure a : Work σ α) s Q R := h

lemma of_throw {e : Error} (h : R s) : Ends (throw e : Work σ α) s Q R := h

lemma of_modify {g : σ → σ} {Q : PUnit → σ → Prop} (h : Q ⟨⟩ (g s)) : Ends (modify g) s Q R := h

lemma bind {k : α → Work σ β} {Q' : β → σ → Prop} (hx : x.Ends s Q R)
    (hk : ∀ a s', Q a s' → (k a).Ends s' Q' R) : (x >>= k).Ends s Q' R := by
  unfold Ends at *
  rw [EStateM.run_bind]
  cases hrun : x.run s with
  | ok a s' =>
    rw [hrun] at hx
    exact hk a s' hx
  | error e s' =>
    rw [hrun] at hx
    exact hx

lemma get_bind {k : σ → Work σ α} (h : (k s).Ends s Q R) : (get >>= k).Ends s Q R := h

lemma modify_bind {g : σ → σ} {k : PUnit → Work σ α} (h : (k ⟨⟩).Ends (g s) Q R) :
    (modify g >>= k).Ends s Q R := h

lemma of_ofExcept {r : Except Error α} (hok : ∀ a, r = .ok a → Q a s) (herr : R s) :
    (ofExcept r).Ends s Q R := by
  cases r with
  | ok a => exact hok a rfl
  | error e => exact herr

lemma ofExcept_bind {r : Except Error β} {k : β → Work σ α}
    (hok : ∀ b, r = .ok b → (k b).Ends s Q R) (herr : R s) : (ofExcept r >>= k).Ends s Q R := by
  cases r with
  | ok b => exact hok b rfl
  | error e => exact herr

lemma ofExcept_bind_of_ok {r : Except Error β} {b : β} {k : β → Work σ α} (hr : r = .ok b)
    (h : (k b).Ends s Q R) : (ofExcept r >>= k).Ends s Q R := by
  subst hr
  exact h

lemma mono {Q' : α → σ → Prop} {R' : σ → Prop} (h : x.Ends s Q R)
    (hQ : ∀ a s', Q a s' → Q' a s') (hR : ∀ s', R s' → R' s') : x.Ends s Q' R' := by
  unfold Ends at *
  cases hrun : x.run s with
  | ok a s' =>
    rw [hrun] at h
    exact hQ a s' h
  | error e s' =>
    rw [hrun] at h
    exact hR s' h

lemma and {Q' : α → σ → Prop} {R' : σ → Prop} (h : x.Ends s Q R) (h' : x.Ends s Q' R') :
    x.Ends s (fun a s' => Q a s' ∧ Q' a s') fun s' => R s' ∧ R' s' := by
  unfold Ends at *
  cases hrun : x.run s with
  | ok a s' =>
    rw [hrun] at h h'
    exact ⟨h, h'⟩
  | error e s' =>
    rw [hrun] at h h'
    exact ⟨h, h'⟩

/-- A loop over a list hands on what holds before each of its rounds. -/
lemma forM {f : β → Work σ PUnit} (I : List β → σ → Prop)
    (hstep : ∀ b rest s, I (b :: rest) s → (f b).Ends s (fun _ s' => I rest s') R) (l : List β)
    (h : I l s) : (l.forM f).Ends s (fun _ s' => I [] s') R := by
  induction l generalizing s with
  | nil => exact h
  | cons b rest ih => exact (hstep b rest s h).bind fun _ s' hs' => ih hs'

/-- The same for a loop that gathers something. -/
lemma foldlM {f : β → α → Work σ β} (I : List α → β → σ → Prop)
    (hstep : ∀ b a rest s, I (a :: rest) b s → (f b a).Ends s (fun b' s' => I rest b' s') R)
    (l : List α) (b : β) (h : I l b s) :
    (l.foldlM f b).Ends s (fun b' s' => I [] b' s') R := by
  induction l generalizing s b with
  | nil => exact h
  | cons a rest ih =>
    rw [List.foldlM_cons]
    exact (hstep b a rest s h).bind fun b' s' hs' => ih b' hs'

lemma ok (h : x.Ends s Q R) {a : α} {s' : σ} (hrun : x.run s = .ok a s') : Q a s' := by
  unfold Ends at h
  rw [hrun] at h
  exact h

lemma error (h : x.Ends s Q R) {e : Error} {s' : σ} (hrun : x.run s = .error e s') : R s' := by
  unfold Ends at h
  rw [hrun] at h
  exact h

/-- What holds of the state in both cases holds of the state that is left. -/
lemma state {P : σ → Prop} (h : x.Ends s Q R) (hQ : ∀ a s', Q a s' → P s')
    (hR : ∀ s', R s' → P s') : P (x.state s) := by
  unfold Ends at h
  unfold Work.state
  cases hrun : x.run s with
  | ok a s' =>
    rw [hrun] at h
    exact hQ a s' h
  | error e s' =>
    rw [hrun] at h
    exact hR s' h

lemma of_forall_ok (h : ∀ a s', x.run s = .ok a s' → Q a s') : x.Ends s Q fun _ => True := by
  unfold Ends
  cases hrun : x.run s with
  | ok a s' => exact h a s' hrun
  | error e s' => trivial

lemma of_yields (h : x.Yields s Q) : x.Ends s Q fun _ => True :=
  of_forall_ok fun _ _ hrun => h.ok hrun

-- from here on the lemmas above speak for it; opened, it would run the work
attribute [irreducible] Ends

end Ends

/-! ## Work that is refused for known reasons only -/

/-- The work ends with a result that is as `Q` says, or is refused for a reason that `E`
admits. -/
def Meets (x : Work σ α) (s : σ) (Q : α → σ → Prop) (E : Error → Prop) : Prop :=
  match x.run s with
  | .ok a s' => Q a s'
  | .error e _ => E e

namespace Meets

variable {Q : α → σ → Prop} {E : Error → Prop} {s : σ} {x : Work σ α}

lemma of_ok {a : α} {s' : σ} (hrun : x.run s = .ok a s') (h : Q a s') : x.Meets s Q E := by
  unfold Meets
  rw [hrun]
  exact h

lemma of_error {e : Error} {s' : σ} (hrun : x.run s = .error e s') (h : E e) :
    x.Meets s Q E := by
  unfold Meets
  rw [hrun]
  exact h

lemma of_pure {a : α} (h : Q a s) : Meets (pure a : Work σ α) s Q E := h

lemma of_throw {e : Error} (h : E e) : Meets (throw e : Work σ α) s Q E := h

lemma of_modify {g : σ → σ} {Q : PUnit → σ → Prop} (h : Q ⟨⟩ (g s)) :
    Meets (modify g) s Q E := h

lemma bind {k : α → Work σ β} {R : β → σ → Prop} (hx : x.Meets s Q E)
    (hk : ∀ a s', Q a s' → (k a).Meets s' R E) : (x >>= k).Meets s R E := by
  unfold Meets at *
  rw [EStateM.run_bind]
  cases hrun : x.run s with
  | ok a s' =>
    rw [hrun] at hx
    exact hk a s' hx
  | error e s' =>
    rw [hrun] at hx
    exact hx

lemma get_bind {k : σ → Work σ α} (h : (k s).Meets s Q E) : (get >>= k).Meets s Q E := h

lemma modify_bind {g : σ → σ} {k : PUnit → Work σ α} (h : (k ⟨⟩).Meets (g s) Q E) :
    (modify g >>= k).Meets s Q E := h

lemma of_ofExcept {r : Except Error α} (hok : ∀ a, r = .ok a → Q a s)
    (herr : ∀ e, r = .error e → E e) : (ofExcept r).Meets s Q E := by
  cases r with
  | ok a => exact hok a rfl
  | error e => exact herr e rfl

lemma ofExcept_bind {r : Except Error β} {b : β} {k : β → Work σ α} (hr : r = .ok b)
    (h : (k b).Meets s Q E) : (ofExcept r >>= k).Meets s Q E := by
  subst hr
  exact h

lemma mono {R : α → σ → Prop} {E' : Error → Prop} (h : x.Meets s Q E)
    (hQ : ∀ a s', Q a s' → R a s') (hE : ∀ e, E e → E' e) : x.Meets s R E' := by
  unfold Meets at *
  cases hrun : x.run s with
  | ok a s' =>
    rw [hrun] at h
    exact hQ a s' h
  | error e s' =>
    rw [hrun] at h
    exact hE e h

/-- The result is the one of the run. -/
lemma with_run (h : x.Meets s Q E) :
    x.Meets s (fun a s' => Q a s' ∧ x.run s = .ok a s') E := by
  unfold Meets at *
  cases hrun : x.run s with
  | ok a s' =>
    rw [hrun] at h
    exact ⟨h, rfl⟩
  | error e s' =>
    rw [hrun] at h
    exact h

/-- A loop over a list hands on what holds before each of its rounds. -/
lemma forM {f : β → Work σ PUnit} (I : List β → σ → Prop)
    (hstep : ∀ b rest s, I (b :: rest) s → (f b).Meets s (fun _ s' => I rest s') E) (l : List β)
    (h : I l s) : (l.forM f).Meets s (fun _ s' => I [] s') E := by
  induction l generalizing s with
  | nil => exact h
  | cons b rest ih => exact (hstep b rest s h).bind fun _ s' hs' => ih hs'

/-- The same for a loop that gathers something. -/
lemma foldlM {f : β → α → Work σ β} (I : List α → β → σ → Prop)
    (hstep : ∀ b a rest s, I (a :: rest) b s → (f b a).Meets s (fun b' s' => I rest b' s') E)
    (l : List α) (b : β) (h : I l b s) :
    (l.foldlM f b).Meets s (fun b' s' => I [] b' s') E := by
  induction l generalizing s b with
  | nil => exact h
  | cons a rest ih =>
    rw [List.foldlM_cons]
    exact (hstep b a rest s h).bind fun b' s' hs' => ih b' hs'

lemma ok (h : x.Meets s Q E) {a : α} {s' : σ} (hrun : x.run s = .ok a s') : Q a s' := by
  unfold Meets at h
  rw [hrun] at h
  exact h

lemma error (h : x.Meets s Q E) {e : Error} {s' : σ} (hrun : x.run s = .error e s') : E e := by
  unfold Meets at h
  rw [hrun] at h
  exact h

/-- Work that is refused for no reason ends well. -/
lemma exists_ok (h : x.Meets s Q fun _ => False) : ∃ a s', x.run s = .ok a s' ∧ Q a s' := by
  cases hrun : x.run s with
  | ok a s' => exact ⟨a, s', rfl, h.ok hrun⟩
  | error e s' => exact (h.error hrun).elim

lemma ends {R : σ → Prop} (h : x.Meets s Q fun _ => False) : x.Ends s Q R := by
  obtain ⟨a, s', hrun, hQ⟩ := h.exists_ok
  exact Ends.of_ok hrun hQ

-- from here on the lemmas above speak for it; opened, it would run the work
attribute [irreducible] Meets

end Meets

end Work

end SsaBackend
