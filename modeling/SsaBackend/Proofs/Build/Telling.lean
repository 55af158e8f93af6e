import SsaBackend.Proofs.Build.Reading

/-!
# Telling more of a program

Each call that ends well tells one more statement, or how a block ends. The function and the
bindings that rendered the program before render the longer one: an instruction is appended
as the code of a computation, a variable is bound to what was assigned to it, and the
terminator of a block is that of the program.
-/

namespace SsaBackend

open Program
open Moment (content result operand)

variable {S : Program} {w : World} {P : Program} {N : Naming S} {b : BlockId} {x : Variable}
  {v : Value} {st : Stmt}

/-! ## Functions -/

lemma Naming.Codes.tell {i : InstId} {c : BlockId} {inst : Inst} (h : N.Codes w P i c inst) :
    N.Codes w (P.add b st) i c inst := by
  obtain ⟨k, j, told, g, hl, hs, he, hops⟩ := h
  exact ⟨k, j, told, g, hl, stmt_add hs, he, hops⟩

namespace Func.Renders

variable {G : List InstId} {f g : Func}

/-- A statement that computes nothing needs no code. -/
lemma tell (h : f.Renders w P N G) (hst : codesFrom b (P.length b) [st] = []) :
    f.Renders w (P.add b st) N G := by
  refine { h with told := ?_, code := ?_, body := ?_, ends := ?_, preds := ?_, sources := ?_ }
  · intro i k c j hl
    exact Nat.lt_of_lt_of_le (h.told i k c j hl) (length_le_add P b c st)
  · intro i p hp hphi
    exact (h.code i p hp hphi).tell
  · intro c cc hc
    rw [h.body c cc hc, stmts_add]
    split
    · rename_i hcb
      subst hcb
      rw [codesFrom_append, Nat.zero_add]
      show _ = (_ ++ codesFrom c (P.length c) [st]).map some
      rw [hst, List.append_nil]
    · rfl
  · intro c cc hc
    rw [terminator?_add]
    exact h.ends c cc hc
  · intro c p
    rw [edge_add]
    exact h.preds c p
  · intro c p hp
    exact h.sources c p ((edge_add P b st).1 hp)

/-- The code of a computation is appended to its block. -/
lemma emit (h : f.Renders w P N G) {k : InstId} {told new : Inst} {fill : Value → Value}
    (hlegal : (Label.code k b (P.length b)).Legal S) (happ : Appended f g b new)
    (hnew : new = told.mapOperands fill) (hphi : told.isPhi = false)
    (hops : ∀ v ∈ told.operands, N.Holds w (fill v) (operand w v) (P.final b)) :
    g.Renders w (P.add b (.compute k told)) (N.set f.nextInst (.code k b (P.length b)) hlegal)
      G := by
  have hle : N.Le (N.set f.nextInst (.code k b (P.length b)) hlegal) :=
    .set N hlegal h.label_nextInst
  have hnewPhi : new.isPhi = false := by rw [hnew, Inst.isPhi_mapOperands, hphi]
  have hself := stmt_add_self P b (.compute k told)
  -- no other instruction is the code of this statement
  have hfirst : ∀ i k', N.label i ≠ some (.code k' b (P.length b)) := by
    intro i k' hl
    exact Nat.lt_irrefl _ (h.told i k' b _ hl)
  have hphis : ∀ j c node, g.inst? j = some ⟨.phi node, c⟩ → f.inst? j = some ⟨.phi node, c⟩ := by
    intro j c node hj
    rcases happ.of_inst hj with ⟨-, he⟩ | hj
    · cases he
      cases hnewPhi
    · exact hj
  constructor
  case named => exact fun j l hl => h.named_appended happ hl
  case told =>
    intro i k' c j hl
    rcases Naming.label_set_cases hl with ⟨-, he⟩ | hl
    · cases he
      exact (List.getElem?_eq_some_iff.1 hself).1
    · exact Nat.lt_of_lt_of_le (h.told i k' c j hl) (length_le_add P b c _)
  case once =>
    -- the new label is the only one for the statement at the end
    intro i i' k' c j hi hi'
    rcases Naming.label_set_cases hi with ⟨rfl, he⟩ | hi
    · rcases Naming.label_set_cases hi' with ⟨rfl, -⟩ | hi'
      · rfl
      · cases he
        exact absurd hi' (hfirst i' k)
    · rcases Naming.label_set_cases hi' with ⟨rfl, he⟩ | hi'
      · cases he
        exact absurd hi (hfirst i k)
      · exact h.once i i' k' c j hi hi'
  case code =>
    intro j p hp hnot
    rcases happ.of_inst hp with ⟨rfl, rfl⟩ | hp
    · refine ⟨k, P.length b, told, fill, Naming.label_set_self .., hself, hnew, ?_⟩
      intro v hv
      exact (hops v hv).mono hle
    · exact ((h.code j p hp hnot).mono hle).tell
  case phi =>
    intro j c node hj
    exact (h.phi j c node (hphis j c node hj)).mono hle
  case complete =>
    intro j c node hj
    exact h.complete j c node (hphis j c node hj)
  case listed => exact fun j c node hj => h.listed_appended happ (hphis j c node hj)
  case unfolded => exact fun j hj => h.unfolded_appended happ hj
  case body =>
    -- the code of the new statement stands behind that of the others
    intro c cc hc
    obtain ⟨old, hold, rfl⟩ := happ.of_block hc
    have hbody := hle.map_label (h.body c old hold)
    rw [stmts_add, hnewPhi]
    by_cases hcb : c = b
    · subst hcb
      rw [if_pos rfl, if_pos rfl, codesFrom_append, Nat.zero_add, List.map_append, ← hbody]
      show (old.body ++ [f.nextInst]).map _ = _
      rw [List.map_append]
      simp [codesFrom, Program.length]
    · rw [if_neg hcb, if_neg (Ne.symm hcb)]
      exact hbody
  case ends =>
    intro c cc hc
    rw [terminator?_add]
    exact h.ends_appended happ hle hc
  case preds =>
    intro c p
    rw [edge_add]
    exact h.preds_appended happ c p
  case sources => exact fun c p hp => h.sources_appended happ ((edge_add P b _).1 hp)

/-- A block is completed with the terminator that was told. -/
lemma leave (h : f.Renders w P N G) {t : Terminator} {fill : Value → Value}
    (hterm : Terminated f g b (t.mapOperands fill)) (hnone : P.terminator? b = none)
    (hops : ∀ v ∈ t.operands, N.Holds w (fill v) (operand w v) (S.final b)) :
    g.Renders w (P.close b t) N G := by
  have hinst := hterm.inst?
  constructor
  case named =>
    intro i l hl
    rw [hterm.capacity]
    exact h.named i l hl
  case told =>
    intro i k c j hl
    have := h.told i k c j hl
    unfold Program.length at *
    rwa [stmts_close]
  case once => exact h.once
  case code =>
    intro i p hp hphi
    rw [hinst] at hp
    obtain ⟨k, j, told, g', hl, hs, he, hops⟩ := h.code i p hp hphi
    exact ⟨k, j, told, g', hl, by rw [stmts_close]; exact hs, he, hops⟩
  case phi =>
    intro i c node hi
    exact h.phi i c node (hinst i ▸ hi)
  case complete =>
    intro i c node hi
    exact h.complete i c node (hinst i ▸ hi)
  case listed =>
    intro i c node hi
    obtain ⟨cc, hcc, hmem⟩ := h.listed i c node (hinst i ▸ hi)
    rw [hterm.block, hcc]
    exact ⟨_, rfl, hmem⟩
  case unfolded =>
    intro i hi
    rw [hinst]
    exact h.unfolded i hi
  case body =>
    intro c cc hc
    obtain ⟨old, hold, rfl⟩ := hterm.of_block hc
    rw [stmts_close]
    exact h.body c old hold
  case ends =>
    intro c cc hc
    obtain ⟨old, hold, rfl⟩ := hterm.of_block hc
    rw [terminator?_close]
    -- only the block that is completed has a new terminator
    by_cases hcb : c = b
    · subst hcb
      simp only [if_true]
      refine ⟨fill, rfl, ?_⟩
      intro t' ht'
      cases ht'
      exact hops
    · simp only [if_neg hcb]
      exact h.ends c old hold
  case preds =>
    intro c p
    rw [edge_close hnone, ← h.preds c p, hterm.mem_preds_iff, Terminator.successors_mapOperands]
  case sources =>
    intro c p hp
    rw [hterm.hasBlock_eq]
    rcases (edge_close hnone).1 hp with hp | ⟨rfl, -⟩
    · exact h.sources c p hp
    · exact hterm.hasBlock

/-- A new block is empty, and nothing was told of it. -/
lemma addBlock (h : f.Renders w P N G) (hnew : P.passage f.nextBlock = {}) :
    f.addBlock.Renders w P N G := by
  have hstmts : P.stmts f.nextBlock = [] := by
    unfold Program.stmts
    rw [hnew]
  have hterm : P.terminator? f.nextBlock = none := by
    unfold Program.terminator?
    rw [hnew]
  refine ⟨h.named, h.told, h.once, h.code, h.phi, h.complete, ?_, h.unfolded, ?_, ?_, ?_, ?_⟩
  · intro i c node hi
    obtain ⟨cc, hcc, hmem⟩ := h.listed i c node hi
    exact ⟨cc, block_addBlock hcc, hmem⟩
  · intro c cc hc
    rw [block?_addBlock] at hc
    split at hc
    · rename_i he
      cases hc
      rw [he, hstmts]
      rfl
    · exact h.body c cc hc
  · intro c cc hc
    rw [block?_addBlock] at hc
    split at hc
    · rename_i he
      cases hc
      rw [he, hterm]
      exact ⟨id, rfl, fun t ht => by cases ht⟩
    · exact h.ends c cc hc
  · intro c p
    rw [preds_addBlock]
    exact h.preds c p
  · exact fun c p hp => hasBlock_addBlock (h.sources c p hp)

end Func.Renders

/-! ## Bindings -/

namespace Bindings.Agrees

variable {s : Bindings}

/-- What is bound goes on holding the content behind a statement that assigns to another
variable. -/
lemma bound_tell (h : s.Agrees w P N) (hS : S.Once) (hs : (S.stmts b)[P.length b]? = some st)
    {c : BlockId} (hv : s.value? x c = some v) (hst : c = b → ∀ u, st ≠ .assign x u) :
    N.Holds w v (content x) ((P.add b st).final c) := by
  have hnow := h.bound x c v hv
  by_cases hc : c = b
  · subst hc
    rw [final_add_self]
    apply hnow.content_next hS
    intro u hu
    rw [hs] at hu
    exact hst rfl u (Option.some.inj hu)
  · rw [final_add_ne P st hc]
    exact hnow

/-- A statement that assigns to no variable leaves the bindings as they are. -/
lemma tell (h : s.Agrees w P N) (hS : S.Once) (hs : (S.stmts b)[P.length b]? = some st)
    (hst : ∀ x u, st ≠ .assign x u) : s.Agrees w (P.add b st) N := by
  refine { h with bound := ?_, unbound := ?_, closed := ?_ }
  · intro x c v hv
    exact h.bound_tell hS hs hv fun _ => hst x
  · intro x c hx u hu
    rw [stmts_add] at hu
    split at hu
    · rename_i hc
      rcases List.mem_append.1 hu with hu | hu
      · exact h.unbound x c hx u (hc ▸ hu)
      · exact hst x u (List.mem_singleton.1 hu).symm
    · exact h.unbound x c hx u hu
  · intro c hc p hp
    exact (edge_add P b st).2 (h.closed c hc p hp)

/-- An assignment binds its variable. -/
lemma define (h : s.Agrees w P N) (hS : S.Once) {told : Value}
    (hs : (S.stmts b)[P.length b]? = some (.assign x told))
    (hv : N.Holds w v (operand w told) (P.final b)) :
    (s.bind x b v).Agrees w (P.add b (.assign x told)) N := by
  refine { h with bound := ?_, unbound := ?_, closed := ?_ }
  · intro y c u hu
    rw [value?_bind] at hu
    split at hu
    · rename_i he
      obtain ⟨rfl, rfl⟩ := he
      cases hu
      rw [final_add_self]
      exact hv.assign hS hs
    · rename_i hne
      apply h.bound_tell hS hs hu
      intro hc u' he
      cases he
      exact hne ⟨rfl, hc⟩
  · intro y c hy u hu
    rw [value?_bind] at hy
    split at hy
    · cases hy
    · rename_i hne
      rw [stmts_add] at hu
      split at hu
      · rename_i hc
        rcases List.mem_append.1 hu with hu | hu
        · exact h.unbound y c hy u (hc ▸ hu)
        · cases List.mem_singleton.1 hu
          exact hne ⟨rfl, hc⟩
      · exact h.unbound y c hy u hu
  · intro c hc p hp
    exact (edge_add P b _).2 (h.closed c hc p hp)

/-- The end of a block leaves the bindings as they are. -/
lemma leave (h : s.Agrees w P N) {t : Terminator} (hnone : P.terminator? b = none) :
    s.Agrees w (P.close b t) N := by
  refine { h with bound := ?_, unbound := ?_, closed := ?_ }
  · intro x c v hv
    rw [final_close]
    exact h.bound x c v hv
  · intro x c hx u
    rw [stmts_close]
    exact h.unbound x c hx u
  · intro c hc p hp
    exact (edge_close hnone).2 (.inl (h.closed c hc p hp))

end Bindings.Agrees

end SsaBackend
