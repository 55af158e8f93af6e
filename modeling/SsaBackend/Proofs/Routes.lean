import Mathlib.Tactic.Common

/-!
# Routes and dominance

A route is a walk from a start along the edges of a relation, kept as the list of the places
visited, latest first. A place dominates another if it lies on every route to it. Nothing
here is about one kind of graph: the places are nodes of a digraph, blocks of a function or
program points of a source text.

Main facts: routes can be cut at any place they visit (`Route.of_append`), a place that
dominates another dominates what leads to it (`Dominates.of_edge`), two places that the
start reaches never dominate each other (`Dominates.antisymm`), and of two places that dominate
a third one dominates the other (`Dominates.exists_nearer`).
-/

namespace SsaBackend

variable {α : Type} {edge : α → α → Prop} {start : α}

/-- The walks along `edge` from `start`, latest place first. -/
inductive Route (edge : α → α → Prop) (start : α) : List α → Prop
  | start : Route edge start [start]
  | step {a b : α} {l : List α} (walk : Route edge start (a :: l)) (last : edge a b) :
    Route edge start (b :: a :: l)

/-- Whether some route leads to a place. -/
def Reaches (edge : α → α → Prop) (start : α) (n : α) : Prop := ∃ l, Route edge start (n :: l)

/-- Whether every route to `n` passes `d`. -/
def Dominates (edge : α → α → Prop) (start : α) (d n : α) : Prop :=
  ∀ l, Route edge start (n :: l) → d ∈ n :: l

/-- Whether every route to `n` passes the other place `d`. -/
def StrictlyDominates (edge : α → α → Prop) (start : α) (d n : α) : Prop :=
  d ≠ n ∧ Dominates edge start d n

/-! ## Cutting routes -/

namespace Route

/-- What was walked before some visit is a route. -/
lemma of_append {u l : List α} {a : α} (h : Route edge start (u ++ a :: l)) :
    Route edge start (a :: l) := by
  induction u with
  | nil => exact h
  | cons b u ih =>
    cases u with
    | nil =>
      cases h with
      | step walk _ => exact walk
    | cons c u =>
      cases h with
      | step walk _ => exact ih walk

/-- A visited place has a route of its own, no longer than the whole one. -/
lemma to_mem {l : List α} {a : α} (h : Route edge start l) (ha : a ∈ l) :
    ∃ u l', l = u ++ a :: l' ∧ Route edge start (a :: l') := by
  obtain ⟨u, l', rfl⟩ := List.append_of_mem ha
  exact ⟨u, l', rfl, h.of_append⟩

/-- Every route begins at the start. -/
lemma start_mem {l : List α} (h : Route edge start l) : start ∈ l := by
  induction h with
  | start => exact List.mem_singleton_self _
  | step _ _ ih => exact List.mem_cons_of_mem _ ih

/-- Every place of a route is reached. -/
lemma reaches {l : List α} {a : α} (h : Route edge start l) (ha : a ∈ l) :
    Reaches edge start a := by
  obtain ⟨_, l', _, h'⟩ := h.to_mem ha
  exact ⟨l', h'⟩

end Route

/-- What was walked after some visit can follow on any other route to that place. -/
lemma Route.graft {u l l' : List α} {a : α} (h : Route edge start (u ++ a :: l))
    (h' : Route edge start (a :: l')) : Route edge start (u ++ a :: l') := by
  induction u with
  | nil => exact h'
  | cons b u ih =>
    cases u with
    | nil =>
      cases h with
      | step _ last => exact h'.step last
    | cons c u =>
      cases h with
      | step walk last => exact (ih walk).step last

/-- A property that every edge hands back, as long as it does not lead to `stop`, is handed back
along a route that has not passed `stop`. -/
lemma Route.hand_back {S : α → Prop} {stop : α}
    (hback : ∀ a b, S b → b ≠ stop → edge a b → Reaches edge start a → S a) {u l : List α} {a b : α}
    (h : Route edge start (b :: u ++ a :: l)) (hu : stop ∉ b :: u) (hb : S b) : S a := by
  induction u generalizing b with
  | nil =>
    cases h with
    | step walk last =>
      exact hback a b hb (fun he => hu (he ▸ List.mem_cons_self)) last ⟨_, walk⟩
  | cons c u ih =>
    cases h with
    | step walk last =>
      have hc : S c := hback c b hb (fun he => hu (he ▸ List.mem_cons_self)) last ⟨_, walk⟩
      exact ih walk (fun hmem => hu (List.mem_cons_of_mem _ hmem)) hc

/-- The start is reached. -/
lemma Reaches.init : Reaches edge start start := ⟨[], .start⟩

/-- What an edge leads to is reached if its source is. -/
lemma Reaches.step {a b : α} (h : Reaches edge start a) (hab : edge a b) :
    Reaches edge start b := by
  obtain ⟨l, hl⟩ := h
  exact ⟨a :: l, hl.step hab⟩

/-- A property of the start that every edge hands on holds of all that is reached. -/
lemma Reaches.induct {P : α → Prop} (h0 : P start)
    (hstep : ∀ a b, Reaches edge start a → P a → edge a b → P b) {n : α}
    (h : Reaches edge start n) : P n := by
  obtain ⟨l, hl⟩ := h
  have key : ∀ l : List α, Route edge start l → ∀ a, l.head? = some a → P a := by
    intro l hl
    induction hl with
    | start =>
      intro a ha
      simp only [List.head?_cons, Option.some.injEq] at ha
      exact ha ▸ h0
    | step walk last ih =>
      intro b hb
      simp only [List.head?_cons, Option.some.injEq] at hb
      exact hb ▸ hstep _ _ ⟨_, walk⟩ (ih _ rfl) last
  exact key _ hl n rfl

/-- A route to a place other than the start comes to it for a first time: before that it did not
pass it. -/
lemma Route.first_visit {n : α} {l : List α} (h : Route edge start (n :: l)) (hne : n ≠ start) :
    ∃ m l', edge m n ∧ Route edge start (m :: l') ∧ n ∉ m :: l' ∧ ∀ a ∈ m :: l', a ∈ l := by
  induction hk : l.length using Nat.strongRecOn generalizing l with
  | _ k ih =>
    cases h with
    | start => exact absurd rfl hne
    | @step m _ l walk last =>
      by_cases hn : n ∈ m :: l
      · -- the route passed the place before, and up to there it is shorter
        obtain ⟨u, l', he, hl'⟩ := walk.to_mem hn
        have hlen := congrArg List.length he
        simp only [List.length_cons, List.length_append] at hlen hk
        obtain ⟨m', l'', hedge, hroute, hnot, hsub⟩ := ih l'.length (by omega) hl' rfl
        refine ⟨m', l'', hedge, hroute, hnot, fun a ha => ?_⟩
        rw [he]
        exact List.mem_append_right _ (List.mem_cons_of_mem _ (hsub a ha))
      · exact ⟨m, l, last, walk, hn, fun a ha => ha⟩

/-- A place other than the start is reached for a first time: some route leads to it that did
not pass it before. -/
lemma Reaches.exists_first {n : α} (h : Reaches edge start n) (hne : n ≠ start) :
    ∃ m l, edge m n ∧ Route edge start (m :: l) ∧ n ∉ m :: l := by
  obtain ⟨l, hl⟩ := h
  obtain ⟨m, l', hedge, hroute, hnot, -⟩ := hl.first_visit hne
  exact ⟨m, l', hedge, hroute, hnot⟩

/-! ## Dominance -/

namespace Dominates

lemma refl (n : α) : Dominates edge start n n := fun _ _ => List.mem_cons_self

/-- The start dominates everything. -/
lemma of_start (n : α) : Dominates edge start start n := fun _ h => h.start_mem

lemma trans {a b c : α} (hab : Dominates edge start a b) (hbc : Dominates edge start b c) :
    Dominates edge start a c := by
  intro l hl
  obtain ⟨u, l', he, hb⟩ := hl.to_mem (hbc l hl)
  rw [he]
  exact List.mem_append_right _ (hab l' hb)

/-- What dominates a place, and is another, dominates everything that leads to it. -/
lemma of_edge {d m n : α} (h : Dominates edge start d n) (hne : d ≠ n) (hmn : edge m n) :
    Dominates edge start d m := by
  intro l hl
  have hmem := h (m :: l) (hl.step hmn)
  rcases List.mem_cons.1 hmem with hd | hd
  · exact absurd hd hne
  · exact hd

/-- What dominates the end of a route, and was not passed after some visit, dominates the place of
that visit. -/
lemma of_visit {d e n : α} {u l : List α} (h : Dominates edge start d n)
    (hr : Route edge start (u ++ e :: l)) (hn : (u ++ e :: l).head? = some n) (hu : d ∉ u) :
    Dominates edge start d e := by
  intro l' hl'
  have hroute := hr.graft hl'
  have hmem : d ∈ u ++ e :: l' := by
    cases u with
    | nil =>
      cases hn
      exact h _ hroute
    | cons b u =>
      cases hn
      exact h _ hroute
  exact (List.mem_append.1 hmem).resolve_left hu

/-- Of two places that dominate a third, reached one, the one that is met first on the way back
from there is dominated by the other. -/
lemma exists_nearer {d e n : α} (hd : Dominates edge start d n) (he : Dominates edge start e n)
    (hn : Reaches edge start n) :
    ∃ u l, (Route edge start (u ++ d :: l) ∧ (u ++ d :: l).head? = some n ∧ d ∉ u ∧ e ∉ u ∧
        Dominates edge start e d) ∨
      (Route edge start (u ++ e :: l) ∧ (u ++ e :: l).head? = some n ∧ d ∉ u ∧ e ∉ u ∧
        Dominates edge start d e) := by
  obtain ⟨r, hr⟩ := hn
  obtain ⟨u, l, hsplit, hdu⟩ := List.eq_append_cons_of_mem (hd r hr)
  have hhead : (u ++ d :: l).head? = some n := by rw [← hsplit, List.head?_cons]
  rw [hsplit] at hr
  by_cases heu : e ∈ u
  · obtain ⟨u', l', rfl, heu'⟩ := List.eq_append_cons_of_mem heu
    rw [List.append_assoc, List.cons_append] at hr hhead
    have hdu' : d ∉ u' := fun hmem => hdu (List.mem_append_left _ hmem)
    exact ⟨u', _, .inr ⟨hr, hhead, hdu', heu', hd.of_visit hr hhead hdu'⟩⟩
  · exact ⟨u, l, .inl ⟨hr, hhead, hdu, heu, he.of_visit hr hhead heu⟩⟩

/-- What dominates a place that is reached is reached. -/
lemma reaches {d n : α} (h : Dominates edge start d n) (hn : Reaches edge start n) :
    Reaches edge start d := by
  obtain ⟨l, hl⟩ := hn
  exact hl.reaches (h l hl)

/-- Only the start dominates the start. -/
lemma eq_start {d : α} (h : Dominates edge start d start) : d = start :=
  List.mem_singleton.1 (h [] .start)

/-- Two places that dominate each other are one, if a route leads there: otherwise the route
to one of them would hold ever shorter routes to the other. -/
lemma antisymm {a b : α} (hab : Dominates edge start a b) (hba : Dominates edge start b a)
    (ha : Reaches edge start a) : a = b := by
  by_contra hne
  have key : ∀ k, ∀ l : List α, l.length = k → ¬ Route edge start (a :: l) := by
    intro k
    induction k using Nat.strongRecOn with
    | _ k ih =>
      intro l hk hl
      obtain ⟨u, l', he, hb⟩ := hl.to_mem (hba l hl)
      obtain ⟨v, l'', he', ha'⟩ := hb.to_mem (hab l' hb)
      have h1 := congrArg List.length he
      have h2 := congrArg List.length he'
      have hv : v ≠ [] := by
        rintro rfl
        rw [List.nil_append] at he'
        exact hne (List.cons.inj he').1.symm
      have hpos : 0 < v.length := List.length_pos_iff.2 hv
      simp only [List.length_cons, List.length_append] at h1 h2
      exact ih l''.length (by omega) l'' rfl ha'
  obtain ⟨l, hl⟩ := ha
  exact key l.length l rfl hl

end Dominates

end SsaBackend
