import Mathlib.Tactic.Lemma
import SsaBackend.Error
import SsaBackend.Iterate
import SsaBackend.Proofs.BitSet
import SsaBackend.Proofs.Tables
import SsaBackend.Proofs.Work

/-!
# Looking before reaching

Tables all over the back end are read and written at places that other tables name. The
definitions that run are total: a place outside a table reads as some default, and writing it
changes nothing. Here are the accesses that refuse such a place, and the loops made of steps that
can be refused. Work done with them is done without a false step if it is not refused; then it is
the work that runs.
-/

namespace SsaBackend

section Access

variable {α : Type}

/-- Reads a place of a table, which must be there. -/
def load? (a : Array α) (i : Nat) : Except Error α :=
  match a[i]? with
  | some x => .ok x
  | none => .error .outOfRange

/-- Writes a place of a table, which must be there. -/
def store? (a : Array α) (i : Nat) (x : α) : Except Error (Array α) :=
  if i < a.size then .ok (a.setIfInBounds i x) else .error .outOfRange

/-- Changes a place of a table, which must be there. -/
def update? (a : Array α) (i : Nat) (f : α → α) : Except Error (Array α) :=
  if i < a.size then .ok (a.modify i f) else .error .outOfRange

/-- What a place holds that must have been filled. -/
def filled? (x : Option α) : Except Error α :=
  match x with
  | some a => .ok a
  | none => .error .outOfRange

/-- Goes on only if a condition holds that must hold. -/
def ensure (p : Prop) [Decidable p] : Except Error Unit := if p then .ok () else .error .outOfRange

variable {a : Array α} {i : Nat}

/-- An answer is handed on. -/
@[simp] lemma ok_bind {β γ : Type} (x : β) (k : β → Except Error γ) : (.ok x >>= k) = k x := rfl

lemma load?_ok (h : i < a.size) (d : α) : load? a i = .ok (a.getD i d) := by
  unfold load?
  rw [Array.getD_eq_getD_getElem?, Array.getElem?_eq_getElem h]
  rfl

lemma load?_some {x : α} (h : a[i]? = some x) : load? a i = .ok x := by
  unfold load?
  rw [h]

lemma store?_ok (h : i < a.size) (x : α) : store? a i x = .ok (a.setIfInBounds i x) := if_pos h

lemma update?_ok (h : i < a.size) (f : α → α) : update? a i f = .ok (a.modify i f) := if_pos h

@[simp] lemma filled?_some (x : α) : filled? (some x) = .ok x := rfl

/-- A place at which something else than the default is found is there. -/
lemma lt_size_of_getD_ne {d : α} (h : a.getD i d ≠ d) : i < a.size := by
  by_contra hge
  rw [Array.getD_eq_getD_getElem?, Array.getElem?_eq_none (by omega)] at h
  exact h rfl

lemma ensure_ok {p : Prop} [Decidable p] (h : p) : ensure p = .ok () := if_pos h

/-- Conditions that must hold for all members of a list are found to hold, or some is not. -/
lemma forM_ensure (l : List α) (p : α → Prop) [DecidablePred p] :
    (l.forM (fun x => ensure (p x)) = .ok ⟨⟩ ∧ ∀ x ∈ l, p x) ∨
      (l.forM (fun x => ensure (p x)) = .error .outOfRange ∧ ¬ ∀ x ∈ l, p x) := by
  induction l with
  | nil => exact .inl ⟨rfl, nofun⟩
  | cons x rest ih =>
    have hcons : (x :: rest).forM (fun x => ensure (p x)) =
        (ensure (p x) >>= fun _ => rest.forM fun x => ensure (p x)) := rfl
    rw [hcons, List.forall_mem_cons]
    by_cases hx : p x
    · rw [ensure_ok hx, ok_bind]
      exact ih.imp (And.imp_right fun h => ⟨hx, h⟩) (And.imp_right fun h hall => h hall.2)
    · refine .inr ⟨?_, fun hall => hx hall.1⟩
      unfold ensure
      rw [if_neg hx]
      rfl

end Access

/-! ## Sets -/

namespace BitSet.Over

variable {n i : Nat} {s t : BitSet}

lemma insert?_ok (hs : s.Over n) (hi : i < n) : s.insert? i = .ok (!s.contains i, s.insert i) :=
  if_pos (hs.capacity ▸ hi)

lemma erase?_ok (hs : s.Over n) (hi : i < n) : s.erase? i = .ok (s.contains i, s.erase i) :=
  if_pos (hs.capacity ▸ hi)

lemma union?_ok (hs : s.Over n) (ht : t.Over n) :
    s.union? t = .ok (changes (· ||| ·) s t, s.union t) :=
  if_pos (hs.capacity.trans ht.capacity.symm)

lemma sdiff?_ok (hs : s.Over n) (ht : t.Over n) :
    s.sdiff? t = .ok (changes (· &&& ~~~·) s t, s.sdiff t) :=
  if_pos (hs.capacity.trans ht.capacity.symm)

end BitSet.Over

/-! ## Loops -/

section Loops

variable {α σ τ : Type}

/-- Repeats `step?` until it has nothing left to do; `n` rounds must be enough. -/
def repeatToEnd? (step? : τ → Except Error (Option τ)) : Nat → τ → Except Error τ
  | 0, _ => .error .endless
  | n + 1, s => do
    match ← step? s with
    | none => return s
    | some s' => repeatToEnd? step? n s'

/-- A loop of steps none of which is refused keeps company with the loop that runs, and ends when
that one ends. -/
lemma repeatToEnd?_ok {step : σ → Option σ} {step? : τ → Except Error (Option τ)}
    (R : σ → τ → Prop) (hnone : ∀ s c, R s c → step s = none → step? c = .ok none)
    (hsome : ∀ s c s', R s c → step s = some s' → ∃ c', step? c = .ok (some c') ∧ R s' c')
    {n : Nat} {s : σ} {c : τ} (h : R s c) (hdone : step (repeatUpTo step n s) = none) :
    ∃ c', repeatToEnd? step? (n + 1) c = .ok c' ∧ R (repeatUpTo step n s) c' := by
  induction n generalizing s c with
  | zero =>
    refine ⟨c, ?_, h⟩
    rw [repeatToEnd?, hnone s c h hdone]
    rfl
  | succ n ih =>
    rw [repeatUpTo] at hdone ⊢
    cases hstep : step s with
    | none =>
      refine ⟨c, ?_, h⟩
      rw [repeatToEnd?, hnone s c h hstep]
      rfl
    | some s' =>
      rw [hstep] at hdone
      obtain ⟨c', hc', h'⟩ := hsome s c s' h hstep
      obtain ⟨c'', hc'', h''⟩ := ih h' hdone
      refine ⟨c'', ?_, h''⟩
      rw [repeatToEnd?, hc', ok_bind]
      exact hc''

/-- The same for a loop over the same states. -/
lemma repeatToEnd?_eq {step : σ → Option σ} {step? : σ → Except Error (Option σ)} (I : σ → Prop)
    (heq : ∀ s, I s → step? s = .ok (step s)) (hkeep : ∀ s s', I s → step s = some s' → I s')
    {n : Nat} {s : σ} (h : I s) (hdone : step (repeatUpTo step n s) = none) :
    repeatToEnd? step? (n + 1) s = .ok (repeatUpTo step n s) := by
  have hsim : ∃ c, repeatToEnd? step? (n + 1) s = .ok c ∧
      c = repeatUpTo step n s ∧ I (repeatUpTo step n s) := by
    refine repeatToEnd?_ok (fun s c => c = s ∧ I s) ?_ ?_ ⟨rfl, h⟩ hdone
    · rintro s _ ⟨rfl, hs⟩ hnone
      rw [heq _ hs, hnone]
    · rintro s _ s' ⟨rfl, hs⟩ hsome
      exact ⟨s', by rw [heq _ hs, hsome], rfl, hkeep _ s' hs hsome⟩
  obtain ⟨c, hc, rfl, -⟩ := hsim
  exact hc

/-- Steps over a list none of which is refused keep company with those that run. -/
lemma foldlM_ok {f : σ → α → σ} {f? : τ → α → Except Error τ} (R : List α → σ → τ → Prop)
    (hstep : ∀ a rest s c, R (a :: rest) s c → ∃ c', f? c a = .ok c' ∧ R rest (f s a) c')
    {l : List α} {s : σ} {c : τ} (h : R l s c) :
    ∃ c', l.foldlM f? c = .ok c' ∧ R [] (l.foldl f s) c' := by
  induction l generalizing s c with
  | nil => exact ⟨c, rfl, h⟩
  | cons a rest ih =>
    obtain ⟨c', hc', h'⟩ := hstep a rest s c h
    rw [List.foldlM_cons, hc', List.foldl_cons]
    exact ih h'

/-- The same over the same states, with what is known of the last one. -/
lemma foldlM_eq_and {f : σ → α → σ} {f? : σ → α → Except Error σ} (I : List α → σ → Prop)
    (hstep : ∀ a rest s, I (a :: rest) s → f? s a = .ok (f s a) ∧ I rest (f s a))
    {l : List α} {s : σ} (h : I l s) :
    l.foldlM f? s = .ok (l.foldl f s) ∧ I [] (l.foldl f s) := by
  have hsim : ∃ c, l.foldlM f? s = .ok c ∧ c = l.foldl f s ∧ I [] (l.foldl f s) := by
    refine foldlM_ok (fun l s c => c = s ∧ I l s) ?_ ⟨rfl, h⟩
    rintro a rest s _ ⟨rfl, hs⟩
    obtain ⟨heq, hrest⟩ := hstep a rest _ hs
    exact ⟨_, heq, rfl, hrest⟩
  obtain ⟨c, hc, rfl, hend⟩ := hsim
  exact ⟨hc, hend⟩

lemma foldlM_eq {f : σ → α → σ} {f? : σ → α → Except Error σ} (I : List α → σ → Prop)
    (hstep : ∀ a rest s, I (a :: rest) s → f? s a = .ok (f s a) ∧ I rest (f s a))
    {l : List α} {s : σ} (h : I l s) : l.foldlM f? s = .ok (l.foldl f s) :=
  (foldlM_eq_and I hstep h).1

/-- Answers that are found for all members of a list are found for the list. -/
lemma mapM_ok {β : Type} {f : α → β} {f? : α → Except Error β} {l : List α}
    (h : ∀ a ∈ l, f? a = .ok (f a)) : l.mapM f? = .ok (l.map f) := by
  induction l with
  | nil => rfl
  | cons a rest ih =>
    rw [List.mapM_cons, h a List.mem_cons_self, ok_bind,
      ih fun b hb => h b (List.mem_cons_of_mem _ hb)]
    rfl

/-- If it is found of all members of a list whether they stay, those that do are found. -/
lemma filterM_ok {p : α → Bool} {p? : α → Except Error Bool} {l : List α}
    (h : ∀ a ∈ l, p? a = .ok (p a)) : l.filterM p? = .ok (l.filter p) := by
  have haux : ∀ (l acc : List α), (∀ a ∈ l, p? a = .ok (p a)) →
      l.filterAuxM p? acc = .ok ((l.filter p).reverse ++ acc) := by
    intro l
    induction l with
    | nil => exact fun _ _ => rfl
    | cons a rest ih =>
      intro acc h
      rw [List.filterAuxM, h a List.mem_cons_self, ok_bind,
        ih _ fun b hb => h b (List.mem_cons_of_mem _ hb), List.filter_cons]
      cases p a
      · rfl
      · simp
  unfold List.filterM
  rw [haux l [] h]
  simp

end Loops

/-! ## Work -/

namespace Work

variable {σ α β : Type}

/-- Begun in `s`, the work `x?`, which looks before it reaches, goes as `x` goes, and what that comes
to is as `Q` says. No look is refused, unless looks `may` be: then `x?` stops at the first one
that is. -/
structure Agrees (x? x : Work σ α) (s : σ) (Q : α → σ → Prop) (may : Prop := False) : Prop where
  run : x?.run s = x.run s ∨ may ∧ ∃ s', x?.run s = .error .outOfRange s'
  meets : x.Meets s Q (· ≠ .outOfRange)

namespace Agrees

variable {s : σ} {Q : α → σ → Prop} {may : Prop} {x? x : Work σ α}

lemma run_eq (h : Agrees x? x s Q may) (hmay : ¬ may) : x?.run s = x.run s :=
  h.run.resolve_right fun hstop => hmay hstop.1

lemma of_eq (hrun : x?.run s = x.run s) (h : x.Meets s Q (· ≠ .outOfRange)) :
    Agrees x? x s Q may := ⟨.inl hrun, h⟩

lemma of_meets (h : x.Meets s Q (· ≠ .outOfRange)) : Agrees x x s Q may := of_eq rfl h

lemma of_pure {a : α} (h : Q a s) : Agrees (pure a) (pure a) s Q may := of_meets (.of_pure h)

lemma bind {k? k : α → Work σ β} {R : β → σ → Prop} (hx : Agrees x? x s Q may)
    (hk : ∀ a s', Q a s' → Agrees (k? a) (k a) s' R may) :
    Agrees (x? >>= k?) (x >>= k) s R may := by
  refine ⟨?_, hx.meets.bind fun a s' h => (hk a s' h).meets⟩
  rw [EStateM.run_bind, EStateM.run_bind]
  rcases hx.run with heq | ⟨hmay, s', hstop⟩
  · rw [heq]
    cases hrun : x.run s with
    | ok a s' => exact (hk a s' (hx.meets.ok hrun)).run
    | error e s' => exact .inl rfl
  · rw [hstop]
    exact .inr ⟨hmay, s', rfl⟩

lemma get_bind {k? k : σ → Work σ α} (h : Agrees (k? s) (k s) s Q may) :
    Agrees (get >>= k?) (get >>= k) s Q may := ⟨h.run, .get_bind h.meets⟩

lemma modify_bind {g : σ → σ} {k? k : PUnit → Work σ α} (h : Agrees (k? ⟨⟩) (k ⟨⟩) (g s) Q may) :
    Agrees (modify g >>= k?) (modify g >>= k) s Q may := ⟨h.run, .modify_bind h.meets⟩

lemma ofExcept_bind {r? r : Except Error β} {b : β} {k? k : β → Work σ α} (hr? : r? = .ok b)
    (hr : r = .ok b) (h : Agrees (k? b) (k b) s Q may) :
    Agrees (ofExcept r? >>= k?) (ofExcept r >>= k) s Q may := by
  subst hr? hr
  exact h

lemma ofExcept_left {r? : Except Error β} {b : β} {k? : β → Work σ α} (hr? : r? = .ok b)
    (h : Agrees (k? b) x s Q may) : Agrees (ofExcept r? >>= k?) x s Q may := by
  subst hr?
  exact h

lemma result_ne (h : Agrees x? x s Q may) : x.result s ≠ .error .outOfRange := by
  unfold result
  cases hrun : x.run s with
  | ok a s' => exact fun he => nomatch he
  | error e s' => exact fun he => h.meets.error hrun (Except.error.inj he)

/-- A loop over a list hands on what holds before each of its rounds. -/
lemma forM {f? f : β → Work σ PUnit} (I : List β → σ → Prop)
    (hstep : ∀ b rest s, I (b :: rest) s → Agrees (f? b) (f b) s (fun _ s' => I rest s') may)
    {l : List β} (h : I l s) : Agrees (l.forM f?) (l.forM f) s (fun _ s' => I [] s') may := by
  induction l generalizing s with
  | nil => exact of_pure h
  | cons b rest ih => exact (hstep b rest s h).bind fun _ s' hs' => ih hs'

end Agrees

end Work

end SsaBackend
