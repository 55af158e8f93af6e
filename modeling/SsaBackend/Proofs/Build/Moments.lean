import SsaBackend.Proofs.Build.Program

/-!
# What names hold

A moment is the memory of a run of a program together with the contents that the variables had
when each block was last entered. `At w S π m` says that some run in the world `w` comes to the
point `π` at the moment `m`; it takes any branch, so that what holds at all such moments holds
along all paths.

An instruction of a function that is built from the program carries a label: it is the code of
a statement, or it merges a variable on entry to a block. A label has a home, the point where
its value comes to be, and the value stays until a run comes home again. `Naming.Holds` says
that a value is available at a point and has, at all its moments, the value of a quantity of
the program. The main facts are how this is handed from point to point (`Holds.arrive`), that
what holds the result of a statement does so wherever the statement dominates
(`Holds.of_dom`), and that a phi which merges one value only stands for it
(`Trivial.standsFor`).
-/

namespace SsaBackend

open Program

/-! ## Moments -/

/-- The memory of a run, and what the variables held when each block was last entered. -/
structure Moment where
  memory : Memory
  entered : BlockId → Variable → Int64

namespace Moment

/-- The content of a variable. -/
def content (x : Variable) (m : Moment) : Int64 := m.memory.vars x

/-- The value of a result. -/
def result (k : InstId) (m : Moment) : Int64 := m.memory.results k

/-- The value of an operand. -/
def operand (w : World) (v : Value) (m : Moment) : Int64 := v.eval w m.memory.results

/-- The moment at which a run begins. -/
def first (w : World) : Moment := ⟨blank w, fun _ _ => w.undef⟩

/-- The moment after block `b` was entered. -/
def enter (m : Moment) (b : BlockId) : Moment :=
  { m with entered := fun c => if c = b then m.memory.vars else m.entered c }

end Moment

/-- How a run goes from a moment at a point to the next. -/
inductive Moves (w : World) (S : Program) : Place → Moment → Place → Moment → Prop
  | stmt {b : BlockId} {j : Nat} {s : Stmt} {m : Moment} {seen seen' : List Effect} {mem : Memory}
      (hs : (S.stmts b)[j]? = some s) (he : s.exec w m.memory seen = some (mem, seen')) :
      Moves w S (b, j) m (b, j + 1) { m with memory := mem }
  | edge {b c : BlockId} {m : Moment} (h : S.Edge b c) : Moves w S (S.final b) m (c, 0) (m.enter c)

/-- The moments at which runs come to a point. -/
inductive At (w : World) (S : Program) : Place → Moment → Prop
  | first : At w S origin (.first w)
  | step {π π' : Place} {m m' : Moment} (h : At w S π m) (hm : Moves w S π m π' m') : At w S π' m'

section

variable {w : World} {S : Program} {π π' : Place} {m m' : Moment}

lemma Moves.step (h : Moves w S π m π' m') : S.Step π π' := by
  cases h with
  | stmt hs _ => exact .next (List.getElem?_eq_some_iff.1 hs).1
  | edge h => exact .jump h

lemma At.reached (h : At w S π m) : S.Reached π := by
  induction h with
  | first => exact .init
  | step _ hm ih => exact Reaches.step ih hm.step

/-- Only the point before leads to a point inside a block. -/
lemma Program.Step.before {b : BlockId} {j : Nat} (h : S.Step π (b, j + 1)) :
    π = (b, j) ∧ j < S.length b := by
  cases h with
  | next h => exact ⟨rfl, h⟩

/-- The ends of the predecessors lead to the beginning of a block. -/
lemma Program.Step.pred {b : BlockId} (h : S.Step π (b, 0)) : ∃ p, π = S.final p ∧ S.Edge p b := by
  cases h with
  | jump h => exact ⟨_, rfl, h⟩

/-- A run comes to a point inside a block by the statement before it. -/
lemma Moves.stmt_inv {b : BlockId} {j : Nat} (h : Moves w S (b, j) m (b, j + 1) m') :
    ∃ s seen seen', (S.stmts b)[j]? = some s ∧
      s.exec w m.memory seen = some (m'.memory, seen') ∧ m'.entered = m.entered := by
  cases h with
  | stmt hs he => exact ⟨_, _, _, hs, he, rfl⟩

/-- A run comes to the beginning of a block by entering it. -/
lemma Moves.edge_inv {b : BlockId} (h : Moves w S π m (b, 0) m') : m' = m.enter b := by
  cases h with
  | edge _ => rfl

end

/-! ## What statements change -/

/-- A statement changes the content of no variable but the one it assigns to. -/
lemma Stmt.exec_content {w : World} {s : Stmt} {mem mem' : Memory} {seen seen' : List Effect}
    {x : Variable} (h : s.exec w mem seen = some (mem', seen')) (hx : ∀ v, s ≠ .assign x v) :
    mem'.vars x = mem.vars x := by
  cases s with
  | assign y v =>
    cases h
    have hne : x ≠ y := by
      intro he
      exact hx v (by rw [he])
    simp [Memory.assign, hne]
  | read k y =>
    cases h
    rfl
  | compute k inst =>
    obtain ⟨r, -, hr⟩ := Option.map_eq_some_iff.1 h
    cases hr
    rfl

/-- A statement changes no result but the one it makes. -/
lemma Stmt.exec_result {w : World} {s : Stmt} {mem mem' : Memory} {seen seen' : List Effect}
    {k : InstId} (h : s.exec w mem seen = some (mem', seen')) (hk : s.result? ≠ some k) :
    mem'.results k = mem.results k := by
  cases s with
  | assign y v =>
    cases h
    rfl
  | read i y =>
    cases h
    exact Env.set_ne _ _ fun he => hk (by rw [he]; rfl)
  | compute i inst =>
    obtain ⟨r, -, hr⟩ := Option.map_eq_some_iff.1 h
    cases hr
    exact Env.set_ne _ _ fun he => hk (by rw [he]; rfl)

/-- A result is made anew only behind its statement. -/
lemma Moves.result {w : World} {S : Program} {π π' : Place} {m m' : Moment} {k : InstId}
    {u : BlockId} {i : Nat} (hS : S.Once) (hk : S.MadeAt k u i) (h : Moves w S π m π' m')
    (hne : π' ≠ (u, i + 1)) : m'.result k = m.result k := by
  cases h with
  | @stmt b j s _ _ _ _ hs he =>
    apply Stmt.exec_result he
    intro hr
    have := hS k b j u i ⟨s, hs, hr⟩ hk
    cases this
    exact hne rfl
  | edge _ => rfl

/-! ## Labels -/

/-- What an instruction stands for: the code of the statement at `(b, j)`, which makes the
result `k`, or the content of a variable on entry to a block. -/
inductive Label where
  | code (k : InstId) (b : BlockId) (j : Nat)
  | merge (b : BlockId) (x : Variable)

namespace Label

/-- The point where the value comes to be. -/
def home : Label → Place
  | code _ b j => (b, j + 1)
  | merge b _ => (b, 0)

/-- The value. -/
def value (m : Moment) : Label → Int64
  | code k _ _ => m.result k
  | merge b x => m.entered b x

/-- There is such a statement, or the block is one that is entered. -/
def Legal (S : Program) : Label → Prop
  | code k b j => ∃ inst, (S.stmts b)[j]? = some (.compute k inst)
  | merge b _ => b ≠ entry

/-- A value comes to be only at its home. -/
lemma value_moves {w : World} {S : Program} {l : Label} {π π' : Place} {m m' : Moment}
    (hS : S.Once) (hl : l.Legal S) (h : Moves w S π m π' m') (hne : π' ≠ l.home) :
    l.value m' = l.value m := by
  cases l with
  | code k b j =>
    obtain ⟨inst, hinst⟩ := hl
    exact h.result hS ⟨_, hinst, rfl⟩ hne
  | merge b x =>
    cases h with
    | stmt _ _ => rfl
    | @edge _ c _ h =>
      have hbc : b ≠ c := by
        intro he
        exact hne (by rw [he]; rfl)
      show (if b = c then _ else m.entered b) x = m.entered b x
      rw [if_neg hbc]

end Label

/-- The labels of instructions. -/
structure Naming (S : Program) where
  label : InstId → Option Label
  legal : ∀ i l, label i = some l → l.Legal S

namespace Naming

open Moment (content result operand)

variable {S : Program}

/-- No instruction has a label. -/
def empty : Naming S := ⟨fun _ => none, by intro i l h; cases h⟩

/-- Gives an instruction a label. -/
def set (N : Naming S) (i : InstId) (l : Label) (hl : l.Legal S) : Naming S where
  label j := if j = i then some l else N.label j
  legal := by
    intro j l' h
    split at h
    · cases h
      exact hl
    · exact N.legal j l' h

/-- All the labels are kept. -/
def Le (N N' : Naming S) : Prop := ∀ i l, N.label i = some l → N'.label i = some l

/-- The value of an operand of the function, by the label of the instruction it names. -/
def den (N : Naming S) (w : World) (m : Moment) : Value → Int64
  | .inst i => (N.label i).elim w.undef (·.value m)
  | v => v.eval w m.memory.results

/-- The instruction that the value names has its home above the point. -/
def Avail (N : Naming S) (v : Value) (π : Place) : Prop :=
  ∀ i, v = .inst i → ∃ l, N.label i = some l ∧ S.Dom l.home π

/-- The value is available at the point, and is there what the quantity `q` is. -/
structure Holds (N : Naming S) (w : World) (v : Value) (q : Moment → Int64) (π : Place) :
    Prop where
  avail : N.Avail v π
  value : ∀ m, At w S π m → N.den w m v = q m

/-! ## More labels -/

variable {N N' N'' : Naming S} {w : World} {v : Value} {q q' : Moment → Int64} {π π' : Place}

lemma Le.refl (N : Naming S) : N.Le N := fun _ _ h => h

lemma Le.trans (h : N.Le N') (h' : N'.Le N'') : N.Le N'' := fun i l hl => h' i l (h i l hl)

/-- What has no label later had none before. -/
lemma Le.label_none (h : N.Le N') {i : InstId} (hi : N'.label i = none) : N.label i = none := by
  cases hl : N.label i with
  | none => rfl
  | some l =>
    rw [h i l hl] at hi
    cases hi

lemma Le.set (N : Naming S) {i : InstId} {l : Label} (hl : l.Legal S) (hi : N.label i = none) :
    N.Le (N.set i l hl) := by
  intro j l' hj
  have hne : j ≠ i := by
    intro he
    rw [he, hi] at hj
    cases hj
  show (if j = i then _ else N.label j) = _
  rw [if_neg hne, hj]

@[simp] lemma label_set_self (N : Naming S) (i : InstId) (l : Label) (hl : l.Legal S) :
    (N.set i l hl).label i = some l := if_pos rfl

lemma label_set_ne (N : Naming S) {i j : InstId} {l : Label} (hl : l.Legal S) (h : j ≠ i) :
    (N.set i l hl).label j = N.label j := if_neg h

/-- The labels are those there were, and the new one. -/
lemma label_set_cases {i j : InstId} {l l' : Label} {hl : l.Legal S}
    (h : (N.set i l hl).label j = some l') : (j = i ∧ l' = l) ∨ N.label j = some l' := by
  by_cases hj : j = i
  · subst hj
    rw [label_set_self] at h
    exact .inl ⟨rfl, (Option.some.inj h).symm⟩
  · rw [label_set_ne N hl hj] at h
    exact .inr h

/-- What holds goes on holding when more instructions have labels. -/
lemma Holds.mono (h : N.Holds w v q π) (hle : N.Le N') : N'.Holds w v q π := by
  refine ⟨?_, ?_⟩
  · intro i hi
    obtain ⟨l, hl, hdom⟩ := h.avail i hi
    exact ⟨l, hle i l hl, hdom⟩
  · intro m hm
    rw [← h.value m hm]
    cases v with
    | inst i =>
      obtain ⟨l, hl, -⟩ := h.avail i rfl
      simp only [den, hl, hle i l hl]
    | const c | arg n | undef => rfl

/-! ## From point to point -/

/-- What a value is changes only when a run comes to the home of its label. -/
lemma den_moves {m m' : Moment} (hS : S.Once) (h : Moves w S π m π' m')
    (hne : ∀ i l, v = .inst i → N.label i = some l → π' ≠ l.home) :
    N.den w m' v = N.den w m v := by
  cases v with
  | inst i =>
    show (N.label i).elim _ _ = (N.label i).elim _ _
    cases hl : N.label i with
    | none => rfl
    | some l => exact l.value_moves hS (N.legal i l hl) h (hne i l rfl hl)
  | const c | arg n | undef => rfl

/-- A point other than the first is also reached from where it was not passed before. -/
lemma exists_pred_not_dom (h : S.Reached π) (hne : π ≠ origin) :
    ∃ ρ, S.Step ρ π ∧ ¬ S.Dom π ρ := by
  obtain ⟨ρ, l, hstep, hl, hnot⟩ := h.exists_first hne
  exact ⟨ρ, hstep, fun hdom => hnot (hdom l hl)⟩

/-- What holds at the only point before another holds there too, as long as the move between
them turns the one quantity into the other. -/
lemma Holds.arrive (hS : S.Once) (h : N.Holds w v q π) (hne : π' ≠ origin)
    (hsole : ∀ ρ, S.Step ρ π' → ρ = π)
    (hq : ∀ m m', Moves w S π m π' m' → q' m' = q m) : N.Holds w v q' π' := by
  refine ⟨?_, ?_⟩
  · intro i hi
    obtain ⟨l, hl, hdom⟩ := h.avail i hi
    refine ⟨l, hl, ?_⟩
    intro r hr
    cases hr with
    | start => exact absurd rfl hne
    | step walk last =>
      obtain rfl := hsole _ last
      exact List.mem_cons_of_mem _ (hdom _ walk)
  · intro m' hm'
    have hreached := hm'.reached
    cases hm' with
    | first => exact absurd rfl hne
    | step hat hmove =>
      obtain rfl := hsole _ hmove.step
      rw [hq _ _ hmove, ← h.value _ hat]
      apply den_moves hS hmove
      intro i l hi hl he
      -- the home of the value would be passed before it is reached for the first time
      obtain ⟨ρ, hstep, hnot⟩ := exists_pred_not_dom hreached hne
      obtain rfl := hsole _ hstep
      obtain ⟨l', hl', hdom⟩ := h.avail i hi
      rw [hl] at hl'
      cases hl'
      exact hnot (he ▸ hdom)

/-! ## Contents of variables -/

variable {b c p : BlockId} {x : Variable} {i : InstId} {j k : Nat}

/-- A content is carried over a statement that does not assign to the variable. -/
lemma Holds.content_next (hS : S.Once) (h : N.Holds w v (content x) (b, j))
    (hx : ∀ u, (S.stmts b)[j]? ≠ some (.assign x u)) : N.Holds w v (content x) (b, j + 1) := by
  apply h.arrive hS
  · intro he
    cases he
  · intro ρ hρ
    exact hρ.before.1
  · intro m m' hm
    obtain ⟨s, seen, seen', hs, he, -⟩ := hm.stmt_inv
    apply Stmt.exec_content he
    intro u hu
    exact hx u (by rw [hs, hu])

/-- A content on entry to a block is carried on while nothing is assigned to the variable. -/
lemma Holds.content_within (hS : S.Once) (h : N.Holds w v (content x) (b, 0)) (n : Nat)
    (hx : ∀ j < n, ∀ u, (S.stmts b)[j]? ≠ some (.assign x u)) :
    N.Holds w v (content x) (b, n) := by
  induction n with
  | zero => exact h
  | succ n ih =>
    have hn := ih fun j hj => hx j (by omega)
    exact hn.content_next hS (hx n (by omega))

/-- A content at the end of the only predecessor is carried into a block. -/
lemma Holds.content_enter (hS : S.Once) (h : N.Holds w v (content x) (S.final p))
    (hb : b ≠ entry) (hsole : ∀ q, S.Edge q b → q = p) : N.Holds w v (content x) (b, 0) := by
  apply h.arrive hS
  · intro he
    cases he
    exact hb rfl
  · intro ρ hρ
    obtain ⟨q, rfl, hq⟩ := hρ.pred
    rw [hsole q hq]
  · intro m m' hm
    rw [hm.edge_inv]
    rfl

/-- A merge holds the content of its variable on entry to its block. -/
lemma Holds.of_merge (hi : N.label i = some (.merge b x)) :
    N.Holds w (.inst i) (content x) (b, 0) := by
  refine ⟨?_, ?_⟩
  · intro i' he
    cases he
    exact ⟨_, hi, .refl _⟩
  · intro m hm
    show (N.label i).elim _ _ = _
    rw [hi]
    cases hm with
    | first => exact absurd rfl (N.legal i _ hi)
    | step _ hmove =>
      rw [hmove.edge_inv]
      simp [Label.value, Moment.enter, content]

/-- Where no block leads to, the variables still hold nothing. -/
lemma Holds.of_no_pred (h : ∀ p, ¬ S.Edge p b) : N.Holds w .undef (content x) (b, 0) := by
  refine ⟨?_, ?_⟩
  · intro i he
    cases he
  · intro m hm
    cases hm with
    | first => rfl
    | step _ hmove =>
      obtain ⟨p, -, hp⟩ := hmove.step.pred
      exact absurd hp (h p)

/-- An assignment puts what it assigns into the variable. -/
lemma Holds.assign (hS : S.Once) {u : Value} (h : N.Holds w v (operand w u) (b, j))
    (hs : (S.stmts b)[j]? = some (.assign x u)) : N.Holds w v (content x) (b, j + 1) := by
  apply h.arrive hS
  · intro he
    cases he
  · intro ρ hρ
    exact hρ.before.1
  · intro m m' hm
    obtain ⟨s, seen, seen', hs', he, -⟩ := hm.stmt_inv
    rw [hs] at hs'
    cases hs'
    obtain ⟨hmem, -⟩ := Prod.mk.inj (Option.some.inj he)
    simp [content, operand, ← hmem, Memory.assign]

/-- A read gives back what the variable holds. -/
lemma Holds.read (hS : S.Once) {k : InstId} (h : N.Holds w v (content x) (b, j))
    (hs : (S.stmts b)[j]? = some (.read k x)) : N.Holds w v (result k) (b, j + 1) := by
  apply h.arrive hS
  · intro he
    cases he
  · intro ρ hρ
    exact hρ.before.1
  · intro m m' hm
    obtain ⟨s, seen, seen', hs', he, -⟩ := hm.stmt_inv
    rw [hs] at hs'
    cases hs'
    obtain ⟨hmem, -⟩ := Prod.mk.inj (Option.some.inj he)
    simp [content, result, ← hmem]

/-! ## Results -/

/-- Code holds its result from where it stands. -/
lemma Holds.of_code {k : InstId} (hi : N.label i = some (.code k b j)) :
    N.Holds w (.inst i) (result k) (b, j + 1) := by
  refine ⟨?_, ?_⟩
  · intro i' he
    cases he
    exact ⟨_, hi, .refl _⟩
  · intro m _
    show (N.label i).elim _ _ = _
    rw [hi]
    rfl

/-- What holds a result behind the statement that makes it does so wherever that dominates: a
run that came home to the value without making the result again would have to pass the
statement in between. -/
lemma Holds.of_dom (hS : S.Once) {k : InstId} (hk : S.MadeAt k b j)
    (h : N.Holds w v (result k) (b, j + 1)) (hd : S.Dom (b, j + 1) π) :
    N.Holds w v (result k) π := by
  refine ⟨?_, ?_⟩
  · intro i hi
    obtain ⟨l, hl, hdom⟩ := h.avail i hi
    exact ⟨l, hl, hdom.trans hd⟩
  · intro m hm
    induction hm with
    | first => cases hd.eq_start
    | @step ρ π' m m' hat hmove ih =>
      by_cases hπ : π' = (b, j + 1)
      · subst hπ
        exact h.value _ (.step hat hmove)
      · have hprev := ih (hd.of_edge (Ne.symm hπ) hmove.step)
        rw [hmove.result hS hk hπ, ← hprev]
        apply den_moves hS hmove
        intro i l hi hl he
        obtain ⟨l', hl', hdom⟩ := h.avail i hi
        rw [hl] at hl'
        cases hl'
        -- two points that dominate each other are one
        have hreached : S.Reached (b, j + 1) := hd.reaches (At.step hat hmove).reached
        exact hπ (he.trans (hdom.antisymm (he ▸ hd) (hdom.reaches hreached)))

/-! ## Standing for another value -/

/-- Wherever the instruction `i` is available, so is `same`, and it has the same value. -/
def StandsFor (N : Naming S) (w : World) (i : InstId) (same : Value) : Prop :=
  ∀ π, N.Avail (.inst i) π →
    N.Avail same π ∧ ∀ m, At w S π m → N.den w m (.inst i) = N.den w m same

/-- A value may be put in the place of an instruction that stands for it. -/
lemma Holds.subst {same : Value} (h : N.Holds w v q π) (hi : N.StandsFor w i same) :
    N.Holds w (Value.subst (.inst i) same v) q π := by
  unfold Value.subst
  by_cases hv : v = .inst i
  · rw [if_pos hv]
    subst hv
    obtain ⟨havail, hvalue⟩ := hi π h.avail
    refine ⟨havail, ?_⟩
    intro m hm
    rw [← hvalue m hm]
    exact h.value m hm
  · rw [if_neg hv]
    exact h

section Trivial

variable {same : Value}

/-- The operands of a phi of block `b` for `x` that are not the phi itself are `same`. -/
structure Trivial (N : Naming S) (w : World) (i : InstId) (b : BlockId) (x : Variable)
    (same : Value) : Prop where
  label : N.label i = some (.merge b x)
  named : ∀ j, same = .inst j → ∃ l, N.label j = some l
  operand : ∀ p, S.Edge p b → ∃ v, (v = .inst i ∨ v = same) ∧ N.Holds w v (content x) (S.final p)

namespace Trivial

lemma ne_origin (h : N.Trivial w i b x same) : (b, 0) ≠ origin := by
  intro he
  cases he
  exact N.legal i _ h.label rfl

/-- A predecessor at which the phi itself is the operand is dominated by the block. -/
lemma pred (h : N.Trivial w i b x same) (hstep : S.Step π (b, 0)) :
    (S.Dom (b, 0) π ∧ N.Holds w (.inst i) (content x) π) ∨ N.Holds w same (content x) π := by
  obtain ⟨p, rfl, hp⟩ := hstep.pred
  obtain ⟨v, hv, hholds⟩ := h.operand p hp
  rcases hv with rfl | rfl
  · obtain ⟨l, hl, hdom⟩ := hholds.avail i rfl
    rw [h.label] at hl
    cases hl
    exact .inl ⟨hdom, hholds⟩
  · exact .inr hholds

/-- The home of the one value dominates the block: a way to the block on which the phi was
itself the operand passed the block before. -/
lemma home_dom (h : N.Trivial w i b x same) {j' : InstId} {l : Label} (hj : same = .inst j')
    (hl : N.label j' = some l) : S.Dom l.home (b, 0) := by
  intro r hr
  induction hn : r.length using Nat.strongRecOn generalizing r with
  | _ n ih =>
    cases hr with
    | start => exact absurd rfl h.ne_origin
    | @step ρ _ r walk last =>
      rcases h.pred last with ⟨hdom, -⟩ | hholds
      · obtain ⟨u, r', he, hr'⟩ := walk.to_mem (hdom r walk)
        have hlen := congrArg List.length he
        simp only [List.length_cons, List.length_append] at hlen hn
        have hmem := ih r'.length (by omega) r' hr' rfl
        rw [he]
        exact List.mem_cons_of_mem _ (List.mem_append_right _ hmem)
      · obtain ⟨l', hl', hdom⟩ := hholds.avail j' hj
        rw [hl] at hl'
        cases hl'
        exact List.mem_cons_of_mem _ (hdom r walk)

/-- The home of the one value is not at the entry to the block itself, if that is reached. -/
lemma home_ne (h : N.Trivial w i b x same) {j' : InstId} {l : Label} (hj : same = .inst j')
    (hl : N.label j' = some l) (hreached : S.Reached (b, 0)) : l.home ≠ (b, 0) := by
  intro he
  obtain ⟨ρ, hstep, hnot⟩ := exists_pred_not_dom hreached h.ne_origin
  rcases h.pred hstep with ⟨hdom, -⟩ | hholds
  · exact hnot hdom
  · obtain ⟨l', hl', hdom⟩ := hholds.avail j' hj
    rw [hl] at hl'
    cases hl'
    exact hnot (he ▸ hdom)

/-- The phi and the one value agree wherever the block dominates. -/
lemma den_eq (hS : S.Once) (h : N.Trivial w i b x same) {m : Moment} (hm : At w S π m)
    (hd : S.Dom (b, 0) π) : N.den w m (.inst i) = N.den w m same := by
  induction hm with
  | first => exact absurd hd.eq_start h.ne_origin
  | @step ρ π' m m' hat hmove ih =>
    have hreached : S.Reached (b, 0) := hd.reaches (At.step hat hmove).reached
    by_cases hπ : π' = (b, 0)
    · -- the block is entered: the phi takes the content, and the value keeps what it is
      subst hπ
      have hcontent : m.content x = N.den w m same := by
        rcases h.pred hmove.step with ⟨hdom, hholds⟩ | hholds
        · rw [← hholds.value m hat]
          exact ih hdom
        · rw [← hholds.value m hat]
      have hkept : N.den w m' same = N.den w m same := by
        apply den_moves hS hmove
        intro j' l hj hl he
        exact h.home_ne hj hl hreached he.symm
      have hphi := (Holds.of_merge (w := w) h.label).value m' (.step hat hmove)
      rw [hkept, ← hcontent, hphi, hmove.edge_inv]
      rfl
    · -- elsewhere both keep what they are
      have hprev := ih (hd.of_edge (Ne.symm hπ) hmove.step)
      have hphi : N.den w m' (.inst i) = N.den w m (.inst i) := by
        apply den_moves hS hmove
        intro j' l hj hl he
        cases hj
        rw [h.label] at hl
        cases hl
        exact hπ he
      have hkept : N.den w m' same = N.den w m same := by
        apply den_moves hS hmove
        intro j' l hj hl he
        have hdom := h.home_dom hj hl
        exact h.home_ne hj hl hreached (hdom.antisymm (he ▸ hd) (hdom.reaches hreached))
      rw [hphi, hkept, hprev]

/-- A phi that merges one value only stands for it. -/
lemma standsFor (hS : S.Once) (h : N.Trivial w i b x same) : N.StandsFor w i same := by
  intro π havail
  obtain ⟨l, hl, hdom⟩ := havail i rfl
  rw [h.label] at hl
  cases hl
  refine ⟨?_, fun m hm => h.den_eq hS hm hdom⟩
  intro j' hj
  obtain ⟨l, hl⟩ := h.named j' hj
  exact ⟨l, hl, (h.home_dom hj hl).trans hdom⟩

end Trivial

end Trivial

end Naming

end SsaBackend
