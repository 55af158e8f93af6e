import SsaBackend.NatMap
import SsaBackend.Proofs.Execution
import SsaBackend.Proofs.Routes

/-!
# Programs over variables

What a front end means by the calls it makes: for every block a list of statements that assign
to variables, read them and compute results, and then a terminator. Results are numbered, and
an operand `%k` stands for the result with the number `k`. A program runs like a function does,
but its state is the content of the variables beside the results; a variable that was never
assigned has the content `undef`.

A program point is a place between two statements. `Program.Step` leads from point to point,
and `Program.Scoped` asks that a result is only used where the statement that makes it dominates
(`Program.InScope.dominates`).
-/

namespace SsaBackend

/-! ## Statements -/

/-- A statement of a program. -/
inductive Stmt where
  | assign (x : Variable) (v : Value)
  | read (k : InstId) (x : Variable)
  | compute (k : InstId) (inst : Inst)
  deriving DecidableEq, Repr

namespace Stmt

/-- The result that the statement makes. -/
def result? : Stmt → Option InstId
  | assign _ _ => none
  | read k _ | compute k _ => some k

/-- The operands. -/
def operands : Stmt → List Value
  | assign _ v => [v]
  | read _ _ => []
  | compute _ inst => inst.operands

end Stmt

/-- The contents of the variables and the results made so far. -/
structure Memory where
  vars : Variable → Int64
  results : Env

/-- The memory in which `x` has the content `v`. -/
def Memory.assign (m : Memory) (x : Variable) (v : Int64) : Memory :=
  { m with vars := fun y => if y = x then v else m.vars y }

/-- What a statement does to the memory and to the effects, unless it traps. -/
def Stmt.exec (w : World) (m : Memory) (seen : List Effect) :
    Stmt → Option (Memory × List Effect)
  | assign x v => some (m.assign x (v.eval w m.results), seen)
  | read k x => some ({ m with results := m.results.set k (m.vars x) }, seen)
  | compute k inst =>
    (inst.exec w m.results seen).map fun r => ({ m with results := m.results.set k r.1 }, r.2)

/-! ## Programs -/

/-- What a program says about a block. -/
structure Passage where
  stmts : List Stmt := []
  terminator : Option Terminator := none
  deriving DecidableEq, Repr

/-- A program over variables: a passage for each block. -/
structure Program where
  passages : NatMap Passage := .empty
  deriving DecidableEq, Repr

namespace Program

/-- The block at which a program begins. -/
def entry : BlockId := ⟨0⟩

/-- The passage of a block, empty if nothing was said about it. -/
def passage (P : Program) (b : BlockId) : Passage := (P.passages.get? b.index).getD {}

/-- The statements of a block. -/
def stmts (P : Program) (b : BlockId) : List Stmt := (P.passage b).stmts

/-- The number of statements of a block. -/
def length (P : Program) (b : BlockId) : Nat := (P.stmts b).length

/-- How a block ends, if it does. -/
def terminator? (P : Program) (b : BlockId) : Option Terminator := (P.passage b).terminator

/-- Puts a statement at the end of a block. -/
def add (P : Program) (b : BlockId) (s : Stmt) : Program :=
  ⟨P.passages.insert b.index { P.passage b with stmts := P.stmts b ++ [s] }⟩

/-- Ends a block. -/
def close (P : Program) (b : BlockId) (t : Terminator) : Program :=
  ⟨P.passages.insert b.index { P.passage b with terminator := some t }⟩

/-! ## Running a program -/

/-- Runs one statement. -/
def execStmt (w : World) (s : Memory × List Effect) (stmt : Stmt) :
    Except Halt (Memory × List Effect) :=
  match stmt.exec w s.1 s.2 with
  | none => .error (.trapped, s.2)
  | some s => .ok s

/-- Runs a block. -/
def enter (w : World) (P : Program) (b : BlockId) (m : Memory) (seen : List Effect) :
    Stage Memory :=
  match (P.stmts b).foldlM (execStmt w) (m, seen) with
  | .error (ending, seen) => .done ending seen
  | .ok (m, seen) =>
    match P.terminator? b with
    | none => .done .stuck seen
    | some t => t.leave w m.results m seen

/-- The memory at the beginning. -/
def blank (w : World) : Memory := ⟨fun _ => w.undef, fun _ => w.undef⟩

/-- The stage of a run after a number of blocks. -/
def run (w : World) (P : Program) (n : Nat) : Stage Memory :=
  Stage.after (P.enter w) (.entering entry (blank w) []) n

/-! ## Points -/

/-- Whether control may go from a block to another. -/
def Edge (P : Program) (b c : BlockId) : Prop :=
  ∃ t, P.terminator? b = some t ∧ c ∈ t.successors

/-- A place in a block, given by the number of statements before it. -/
abbrev Place := BlockId × Nat

/-- The point at which a program begins. -/
def origin : Place := (entry, 0)

/-- The point behind the last statement of a block. -/
def final (P : Program) (b : BlockId) : Place := (b, P.length b)

/-- The ways control may go from point to point. -/
inductive Step (P : Program) : Place → Place → Prop
  | next {b : BlockId} {j : Nat} (h : j < P.length b) : Step P (b, j) (b, j + 1)
  | jump {b c : BlockId} (h : P.Edge b c) : Step P (P.final b) (c, 0)

/-- Whether every way to `π` passes `d`. -/
abbrev Dom (P : Program) (d π : Place) : Prop := Dominates P.Step origin d π

/-- Whether some way leads to `π`. -/
abbrev Reached (P : Program) (π : Place) : Prop := Reaches P.Step origin π

/-- The statement that makes the result `k` stands at `(u, i)`. -/
def MadeAt (P : Program) (k : InstId) (u : BlockId) (i : Nat) : Prop :=
  ∃ s, (P.stmts u)[i]? = some s ∧ s.result? = some k

/-- The result `k` is made earlier in the block of `π`, or in another block that dominates
it. -/
def InScope (P : Program) (k : InstId) (π : Place) : Prop :=
  ∃ u i, P.MadeAt k u i ∧ ((u = π.1 ∧ i < π.2) ∨ (u ≠ π.1 ∧ Dominates P.Edge entry u π.1))

/-- The result `k` is an operand of the statement at `π`, or of the terminator if `π` is at the
end of its block. -/
def Uses (P : Program) (k : InstId) (π : Place) : Prop :=
  (∃ s, (P.stmts π.1)[π.2]? = some s ∧ Value.inst k ∈ s.operands) ∨
    ∃ t, P.terminator? π.1 = some t ∧ π = P.final π.1 ∧ Value.inst k ∈ t.operands

/-- Results are only used where they are in scope. -/
def Scoped (P : Program) : Prop := ∀ k π, P.Uses k π → P.InScope k π

/-- No two statements make the same result. -/
def Once (P : Program) : Prop :=
  ∀ k u i u' i', P.MadeAt k u i → P.MadeAt k u' i' → (u, i) = (u', i')

/-! ## Looking up what was written -/

@[simp] lemma passage_add (P : Program) (b c : BlockId) (s : Stmt) :
    (P.add b s).passage c =
      if c = b then { P.passage b with stmts := P.stmts b ++ [s] } else P.passage c := by
  unfold add passage
  rw [NatMap.get?_insert]
  by_cases hc : c = b
  · simp [hc]
  · rw [if_neg hc, if_neg fun h => hc (BlockId.index_inj.1 h)]

@[simp] lemma passage_close (P : Program) (b c : BlockId) (t : Terminator) :
    (P.close b t).passage c =
      if c = b then { P.passage b with terminator := some t } else P.passage c := by
  unfold close passage
  rw [NatMap.get?_insert]
  by_cases hc : c = b
  · simp [hc]
  · rw [if_neg hc, if_neg fun h => hc (BlockId.index_inj.1 h)]

lemma stmts_add (P : Program) (b c : BlockId) (s : Stmt) :
    (P.add b s).stmts c = if c = b then P.stmts b ++ [s] else P.stmts c := by
  unfold stmts
  rw [passage_add]
  split <;> rfl

@[simp] lemma terminator?_add (P : Program) (b c : BlockId) (s : Stmt) :
    (P.add b s).terminator? c = P.terminator? c := by
  unfold terminator?
  rw [passage_add]
  split
  · rename_i hc
    rw [hc]
  · rfl

@[simp] lemma edge_add (P : Program) (b : BlockId) (s : Stmt) {p c : BlockId} :
    (P.add b s).Edge p c ↔ P.Edge p c := by
  unfold Edge
  rw [terminator?_add]

/-- A statement is told at the end of its block. -/
lemma stmt_add_self (P : Program) (b : BlockId) (s : Stmt) :
    ((P.add b s).stmts b)[P.length b]? = some s := by
  rw [stmts_add, if_pos rfl]
  exact List.getElem?_concat_length ..

/-- What was told before a statement stays in its place. -/
lemma stmt_add {P : Program} {b c : BlockId} {s s' : Stmt} {j : Nat}
    (h : (P.stmts c)[j]? = some s') : ((P.add b s).stmts c)[j]? = some s' := by
  rw [stmts_add]
  split
  · rename_i hc
    subst hc
    rw [List.getElem?_append_left (List.getElem?_eq_some_iff.1 h).1, h]
  · exact h

lemma length_le_add (P : Program) (b c : BlockId) (s : Stmt) :
    P.length c ≤ (P.add b s).length c := by
  unfold length
  rw [stmts_add]
  split
  · rename_i hc
    rw [hc, List.length_append]
    exact Nat.le_add_right ..
  · exact Nat.le_refl _

@[simp] lemma final_add_self (P : Program) (b : BlockId) (s : Stmt) :
    (P.add b s).final b = (b, P.length b + 1) := by
  simp [final, length, stmts_add]

lemma final_add_ne (P : Program) {b c : BlockId} (s : Stmt) (h : c ≠ b) :
    (P.add b s).final c = P.final c := by
  simp [final, length, stmts_add, h]

@[simp] lemma stmts_close (P : Program) (b c : BlockId) (t : Terminator) :
    (P.close b t).stmts c = P.stmts c := by
  unfold stmts
  rw [passage_close]
  split
  · rename_i hc
    rw [hc]
  · rfl

lemma terminator?_close (P : Program) (b c : BlockId) (t : Terminator) :
    (P.close b t).terminator? c = if c = b then some t else P.terminator? c := by
  unfold terminator?
  rw [passage_close]
  split <;> rfl

@[simp] lemma final_close (P : Program) (b c : BlockId) (t : Terminator) :
    (P.close b t).final c = P.final c := by
  simp [final, length]

/-- Ending a block adds the edges to the targets. -/
lemma edge_close {P : Program} {b : BlockId} {t : Terminator} (h : P.terminator? b = none)
    {p c : BlockId} : (P.close b t).Edge p c ↔ P.Edge p c ∨ (p = b ∧ c ∈ t.successors) := by
  unfold Edge
  rw [terminator?_close]
  by_cases hp : p = b
  · subst hp
    simp [h]
  · simp [hp]

/-- The statements are those there were, and the new one at the end of its block. -/
lemma of_stmt_add {P : Program} {b c : BlockId} {s s' : Stmt} {j : Nat}
    (h : ((P.add b s).stmts c)[j]? = some s') :
    (P.stmts c)[j]? = some s' ∨ ((c, j) = P.final b ∧ s' = s) := by
  rw [stmts_add] at h
  split at h
  · rename_i hc
    subst hc
    rcases Nat.lt_trichotomy j (P.stmts c).length with hj | hj | hj
    · rw [List.getElem?_append_left hj] at h
      exact .inl h
    · subst hj
      rw [List.getElem?_concat_length] at h
      cases h
      exact .inr ⟨rfl, rfl⟩
    · rw [List.getElem?_eq_none (by rw [List.length_append, List.length_singleton]; omega)] at h
      cases h
  · exact .inl h

/-- The results that are made are those made before, and that of the new statement. -/
lemma madeAt_add {P : Program} {b : BlockId} {s : Stmt} {k : InstId} {u : BlockId} {i : Nat}
    (h : (P.add b s).MadeAt k u i) :
    P.MadeAt k u i ∨ ((u, i) = P.final b ∧ s.result? = some k) := by
  obtain ⟨s', hs', hk⟩ := h
  rcases of_stmt_add hs' with hs' | ⟨he, rfl⟩
  · exact .inl ⟨s', hs', hk⟩
  · exact .inr ⟨he, hk⟩

/-- A statement is told of an open block, and its operands are used there. -/
lemma uses_add {P : Program} {b : BlockId} {s : Stmt} (hnone : P.terminator? b = none) {k : InstId}
    {π : Place} (h : (P.add b s).Uses k π) :
    P.Uses k π ∨ (π = P.final b ∧ Value.inst k ∈ s.operands) := by
  rcases h with ⟨s', hs', hk⟩ | ⟨t, ht, hfinal, hk⟩
  · rcases of_stmt_add hs' with hs' | ⟨he, rfl⟩
    · exact .inl (.inl ⟨s', hs', hk⟩)
    · exact .inr ⟨he, hk⟩
  · rw [terminator?_add] at ht
    have hne : π.1 ≠ b := by
      intro hc
      rw [hc, hnone] at ht
      cases ht
    rw [final_add_ne P s hne] at hfinal
    exact .inl (.inr ⟨t, ht, hfinal, hk⟩)

/-- The end of a block uses the operands of its terminator. -/
lemma uses_close {P : Program} {b : BlockId} {t : Terminator} {k : InstId} {π : Place}
    (h : (P.close b t).Uses k π) : P.Uses k π ∨ (π = P.final b ∧ Value.inst k ∈ t.operands) := by
  rcases h with ⟨s, hs, hk⟩ | ⟨t', ht', hfinal, hk⟩
  · rw [stmts_close] at hs
    exact .inl (.inl ⟨s, hs, hk⟩)
  · rw [terminator?_close] at ht'
    rw [final_close] at hfinal
    split at ht'
    · rename_i hc
      cases ht'
      exact .inr ⟨hc ▸ hfinal, hk⟩
    · exact .inl (.inr ⟨t', ht', hfinal, hk⟩)

/-! ## Dominance of points -/

/-- A way to a point goes through whole blocks, and through the part before the point of the
last one. -/
lemma blocks_of_route {P : Program} {l : List Place} (h : Route P.Step origin l) :
    ∀ b j l', l = (b, j) :: l' → ∃ r, Route P.Edge entry (b :: r) ∧
      (∀ i ≤ j, (b, i) ∈ l) ∧ ∀ c ∈ r, ∀ i ≤ P.length c, (c, i) ∈ l := by
  induction h with
  | start =>
    intro b j l' he
    cases he
    refine ⟨[], .start, ?_, ?_⟩
    · intro i hi
      obtain rfl : i = 0 := by omega
      exact List.mem_singleton_self _
    · intro c hc
      cases hc
  | step walk last ih =>
    intro b j l' he
    cases he
    cases last with
    | @next _ j' hlt =>
      obtain ⟨r, hr, hpart, hwhole⟩ := ih _ _ _ rfl
      refine ⟨r, hr, ?_, fun c hc i hi => List.mem_cons_of_mem _ (hwhole c hc i hi)⟩
      intro i hi
      rcases Nat.lt_or_ge i (j' + 1) with h | h
      · exact List.mem_cons_of_mem _ (hpart i (by omega))
      · obtain rfl : i = j' + 1 := by omega
        exact List.mem_cons_self
    | jump hedge =>
      obtain ⟨r, hr, hpart, hwhole⟩ := ih _ _ _ rfl
      refine ⟨_ :: r, .step hr hedge, ?_, ?_⟩
      · intro i hi
        obtain rfl : i = 0 := by omega
        exact List.mem_cons_self
      · intro c hc i hi
        apply List.mem_cons_of_mem
        rcases List.mem_cons.1 hc with rfl | hc
        · exact hpart i hi
        · exact hwhole c hc i hi

/-- Where a result is in scope, the point behind its statement dominates. -/
lemma InScope.dominates {P : Program} {k : InstId} {π : Place} (h : P.InScope k π) :
    ∃ u i, P.MadeAt k u i ∧ P.Dom (u, i + 1) π := by
  obtain ⟨u, i, hmade, hscope⟩ := h
  refine ⟨u, i, hmade, ?_⟩
  intro l hl
  obtain ⟨r, hr, hpart, hwhole⟩ := blocks_of_route hl π.1 π.2 l rfl
  rcases hscope with ⟨rfl, hi⟩ | ⟨hne, hdom⟩
  · exact hpart (i + 1) hi
  · have hu : u ∈ r := by
      rcases List.mem_cons.1 (hdom r hr) with he | hu
      · exact absurd he hne
      · exact hu
    obtain ⟨s, hs, -⟩ := hmade
    exact hwhole u hu (i + 1) (List.getElem?_eq_some_iff.1 hs).1

end Program

end SsaBackend
