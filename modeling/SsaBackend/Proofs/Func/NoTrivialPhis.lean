import Mathlib.Data.List.Nodup
import SsaBackend.Proofs.Func.Folding

/-!
# Folding goes on until no trivial phi is left

Folding looks at the phis on a list. Every replacement takes an instruction away and puts fewer
phis on the list than there are places, so the bound on the number of steps is never felt
(`Func.foldEnd_work`). A phi that is not on the list is not trivial, for the phis whose operands
a replacement changes are put there; so when the list is empty no phi that may be folded is
trivial (`Func.foldTrivialPhis_settles`). A phi that was not on the list at first and is what it was
may be trivial still, so it is the operands too that tell whether a phi is watched
(`Func.PhiFold.Watching`).
-/

namespace SsaBackend

/-- Replacing a value that does not flow into a phi leaves it as it is. -/
lemma Phi.mapValues_subst {node : Phi} {old new : Value} (h : old ∉ node.values) :
    node.mapValues (Value.subst old new) = node :=
  Phi.mapValues_eq_self fun v hv => if_neg fun (he : v = old) => h (he ▸ hv)

namespace Func

/-! ## What a replacement takes away -/

lemma nodup_instIds (f : Func) : f.instIds.Nodup := by
  refine (List.Nodup.map ?_ List.nodup_range).filter _
  intro a b h
  exact InstId.mk.inj h

lemma mem_instIds {f : Func} {i : InstId} : i ∈ f.instIds ↔ ∃ p, f.inst? i = some p := by
  unfold instIds
  rw [List.mem_filter, Option.isSome_iff_exists, and_iff_right_iff_imp]
  rintro ⟨p, hp⟩
  exact List.mem_map.2 ⟨i.index, List.mem_range.2 (lt_instCapacity hp), rfl⟩

lemma instCount_le_instCapacity (f : Func) : f.instCount ≤ f.instCapacity := by
  have hle := List.length_filter_le (fun i => (f.inst? i).isSome)
    ((List.range f.instCapacity).map InstId.mk)
  rwa [List.length_map, List.length_range] at hle

section Replacing

variable {f : Func} {i : InstId}

lemma inst?_replaced (f : Func) (i : InstId) (v : Value) (j : InstId) :
    ((f.replaceUses i v).removeInst i).inst? j = if j = i then none else (f.inst? j).map fun p =>
      { p with inst := p.inst.mapOperands (Value.subst (.inst i) v) } := by
  rw [inst?_removeInst]
  split
  · rfl
  · exact inst?_mapOperands f _ j

/-- The instructions left by a replacement were there, and are not the one replaced. -/
lemma mem_instIds_replaced {v : Value} {j : InstId}
    (h : j ∈ ((f.replaceUses i v).removeInst i).instIds) : j ∈ f.instIds.erase i := by
  obtain ⟨q, hq⟩ := mem_instIds.1 h
  rw [inst?_replaced] at hq
  split at hq
  · cases hq
  · rename_i hne
    obtain ⟨p, hp, -⟩ := Option.map_eq_some_iff.1 hq
    exact (List.mem_erase_of_ne hne).2 (mem_instIds.2 ⟨p, hp⟩)

lemma instCount_replaced_le (f : Func) (i : InstId) (v : Value) :
    ((f.replaceUses i v).removeInst i).instCount ≤ f.instCount :=
  (List.subperm_of_subset (nodup_instIds _)
    fun _ hj => List.mem_of_mem_erase (mem_instIds_replaced hj)).length_le

/-- Other instructions than one that is there are fewer than all. -/
lemma length_lt_instCount {p : PlacedInst} (hi : f.inst? i = some p) {l : List InstId}
    (hnodup : l.Nodup) (hl : l ⊆ f.instIds.erase i) : l.length < f.instCount := by
  have hle := (List.subperm_of_subset hnodup hl).length_le
  have hlen := List.length_erase_of_mem (mem_instIds.2 ⟨p, hi⟩)
  have hpos := List.length_pos_of_mem (mem_instIds.2 ⟨p, hi⟩)
  show l.length < f.instIds.length
  omega

lemma instCount_replaced (v : Value) {p : PlacedInst} (hi : f.inst? i = some p) :
    ((f.replaceUses i v).removeInst i).instCount < f.instCount :=
  length_lt_instCount hi (nodup_instIds _) fun _ => mem_instIds_replaced

@[simp] lemma instCapacity_replaced (f : Func) (i : InstId) (v : Value) :
    ((f.replaceUses i v).removeInst i).instCapacity = f.instCapacity := by
  rw [instCapacity_removeInst]
  exact instCapacity_mapOperands ..

/-- The phis left by a replacement are those there were. -/
lemma mem_phiIds_replaced {v : Value} {j : InstId}
    (h : j ∈ ((f.replaceUses i v).removeInst i).phiIds) : j ∈ f.phiIds := by
  have hmapped : ∀ b bb', (f.replaceUses i v).block? b = some bb' →
      ∃ bb, f.block? b = some bb ∧ bb'.phis = bb.phis := by
    intro b bb' hb'
    rw [replaceUses, block?_mapOperands] at hb'
    obtain ⟨bb, hb, rfl⟩ := Option.map_eq_some_iff.1 hb'
    exact ⟨bb, hb, rfl⟩
  obtain ⟨b, bb', hb', hj⟩ := mem_phiIds.1 h
  have hlisted : ∃ bb₀, (f.replaceUses i v).block? b = some bb₀ ∧ j ∈ bb₀.phis := by
    cases hi : (f.replaceUses i v).inst? i with
    | none =>
      rw [removeInst, hi] at hb'
      exact ⟨bb', hb', hj⟩
    | some p =>
      rw [block?_removeInst hi] at hb'
      split at hb'
      · obtain ⟨bb₀, hb₀, rfl⟩ := Option.map_eq_some_iff.1 hb'
        exact ⟨bb₀, hb₀, (List.mem_filter.1 hj).1⟩
      · exact ⟨bb', hb', hj⟩
  obtain ⟨bb₀, hb₀, hj⟩ := hlisted
  obtain ⟨bb, hb, hphis⟩ := hmapped b bb₀ hb₀
  exact mem_phiIds.2 ⟨b, bb, hb, hphis ▸ hj⟩

lemma phi?_replaced {v : Value} {j : InstId} {node' : Phi}
    (h : ((f.replaceUses i v).removeInst i).phi? j = some node') :
    j ≠ i ∧ ∃ node, f.phi? j = some node ∧ node' = node.mapValues (Value.subst (.inst i) v) := by
  obtain ⟨q, hq, hphi⟩ := Option.bind_eq_some_iff.1 h
  rw [inst?_replaced] at hq
  split at hq
  · cases hq
  · rename_i hne
    obtain ⟨p, hp, rfl⟩ := Option.map_eq_some_iff.1 hq
    rw [Inst.phi?_mapOperands] at hphi
    obtain ⟨node, hnode, rfl⟩ := Option.map_eq_some_iff.1 hphi
    refine ⟨hne, node, ?_, rfl⟩
    unfold phi?
    rw [hp, Option.bind_some, hnode]

lemma terminator?_removeInst (f : Func) (i : InstId) (b : BlockId) :
    (f.removeInst i).terminator? b = f.terminator? b := by
  cases hi : f.inst? i with
  | none => rw [removeInst_of_missing hi]
  | some p =>
    refine (terminator?_eq_of_map (map_of_ite (block?_removeInst hi b)) fun bb => ?_).trans
      Option.map_id'
    split <;> exact Option.map_id'.symm

/-- Ways out of blocks change no more than their operands do. -/
lemma terminator?_replaced (f : Func) (i : InstId) (v : Value) (b : BlockId) :
    ((f.replaceUses i v).removeInst i).terminator? b =
      (f.terminator? b).map (·.mapOperands (Value.subst (.inst i) v)) := by
  rw [terminator?_removeInst]
  exact terminator?_eq_of_map (block?_mapOperands ..) fun _ => rfl

lemma mem_phiUsers {j : InstId} : j ∈ f.phiUsers i ↔
    j ∈ f.phiIds ∧ j ≠ i ∧ ∃ node, f.phi? j = some node ∧ Value.inst i ∈ node.values := by
  unfold phiUsers
  rw [List.mem_filter, Bool.and_eq_true, decide_eq_true_eq]
  cases f.phi? j with
  | none => simp
  | some node => simp

end Replacing

namespace PhiFold

variable {s s' : PhiFold} {mayFold : InstId → Bool}

/-! ## The list -/

/-- What putting phis on the list does to it: those that do not wait there already are added,
each once. -/
lemma foldl_enqueue_new (l : List InstId) (s : PhiFold) :
    ∃ new, (l.foldl enqueue s).work = s.work ++ new ∧ new.Nodup ∧
      (∀ i ∈ new, i ∈ l ∧ i ∉ s.queued) ∧ (∀ i ∈ l, i ∈ s.queued ∨ i ∈ new) ∧
      ∀ i, i ∈ (l.foldl enqueue s).queued ↔ i ∈ s.queued ∨ i ∈ new := by
  induction l generalizing s with
  | nil => exact ⟨[], by simp⟩
  | cons j rest ih =>
    obtain ⟨new, hwork, hnodup, hnew, hall, hqueued⟩ := ih (s.enqueue j)
    rw [List.foldl_cons]
    by_cases hj : j ∈ s.queued
    · have he : s.enqueue j = s := by
        unfold enqueue
        rw [if_pos hj]
      rw [he] at hwork hnew hall hqueued ⊢
      refine ⟨new, hwork, hnodup, ?_, ?_, hqueued⟩
      · intro i hi
        exact ⟨List.mem_cons_of_mem _ (hnew i hi).1, (hnew i hi).2⟩
      · intro i hi
        rcases List.mem_cons.1 hi with rfl | hi
        · exact .inl hj
        · exact hall i hi
    · have he : s.enqueue j = { s with work := s.work ++ [j], queued := j :: s.queued } := by
        unfold enqueue
        rw [if_neg hj]
      rw [he] at hwork hnew hall hqueued ⊢
      dsimp only at hwork hnew hall hqueued
      -- nothing is put on the list that waits there already, `j` included
      have hjnew : j ∉ new := fun hmem => (hnew j hmem).2 List.mem_cons_self
      refine ⟨j :: new, ?_, List.nodup_cons.2 ⟨hjnew, hnodup⟩, ?_, ?_, ?_⟩
      · rw [hwork, List.append_assoc]
        rfl
      · intro i hi
        rcases List.mem_cons.1 hi with rfl | hi
        · exact ⟨List.mem_cons_self, hj⟩
        · obtain ⟨hil, hiq⟩ := hnew i hi
          exact ⟨List.mem_cons_of_mem _ hil, fun h => hiq (List.mem_cons_of_mem _ h)⟩
      · intro i hi
        rcases List.mem_cons.1 hi with rfl | hi
        · exact .inr List.mem_cons_self
        · rcases hall i hi with h | h
          · rcases List.mem_cons.1 h with rfl | h
            · exact .inr List.mem_cons_self
            · exact .inl h
          · exact .inr (List.mem_cons_of_mem _ h)
      · intro i
        rw [hqueued, List.mem_cons, List.mem_cons]
        tauto

/-- What replacing a phi does: the phis that used it are put on the list. -/
lemma replace_new (s : PhiFold) (i : InstId) (same : Value) :
    (s.replace i same).func = (s.func.replaceUses i same).removeInst i ∧
      ∃ new, (s.replace i same).work = s.work ++ new ∧ new.Nodup ∧
        (∀ j ∈ new, j ∈ s.func.phiUsers i) ∧ (∀ j ∈ s.func.phiUsers i, j ∈ s.queued ∨ j ∈ new) ∧
        ∀ j, j ∈ (s.replace i same).queued → j ∈ s.queued ∨ j ∈ new := by
  obtain ⟨new, hwork, hnodup, hnew, hall, hqueued⟩ := foldl_enqueue_new (s.func.phiUsers i)
    { s with
      func := (s.func.replaceUses i same).removeInst i
      replaced := s.replaced ++ [⟨i, same⟩] }
  exact ⟨(foldl_enqueue _ _).1, new, hwork, hnodup, fun j hj => (hnew j hj).1, hall,
    fun j => (hqueued j).1⟩

/-! ## The end -/

/-- What is left to do: looking at the phis on the list, and for every instruction that could
still be replaced, looking at as many as there are places. -/
def toDo (s : PhiFold) : Nat := s.work.length + s.func.instCount * s.func.instCapacity

lemma toDo_step (h : s.step mayFold = some s') : s'.toDo < s.toDo := by
  obtain ⟨i, rest, hwork, ⟨rfl, -⟩ | ⟨same, node, -, hnode, -, rfl⟩⟩ := step_inv h
  · unfold toDo
    rw [hwork, List.length_cons]
    show rest.length + s.func.instCount * s.func.instCapacity < _
    omega
  · obtain ⟨b, hi⟩ := phi?_some hnode
    obtain ⟨hfunc, new, hwork', hnodup, hmem, -, -⟩ := replace_new (s.taken i rest) i same
    -- the phis that are added are other instructions
    have hlt : new.length < s.func.instCount := by
      refine length_lt_instCount hi hnodup fun j hj => ?_
      obtain ⟨-, hne, node, hnode, -⟩ := mem_phiUsers.1 (hmem j hj)
      obtain ⟨c, hc⟩ := phi?_some hnode
      exact (List.mem_erase_of_ne hne).2 (mem_instIds.2 ⟨_, hc⟩)
    have hcount := instCount_replaced same hi
    have hcap := instCount_le_instCapacity s.func
    have hmul : (((s.func.replaceUses i same).removeInst i).instCount + 1) * s.func.instCapacity ≤
        s.func.instCount * s.func.instCapacity := Nat.mul_le_mul_right _ hcount
    rw [Nat.succ_mul] at hmul
    have hlen : ((s.taken i rest).replace i same).work.length = rest.length + new.length := by
      rw [hwork']
      exact List.length_append
    have hfunc' : ((s.taken i rest).replace i same).func =
        (s.func.replaceUses i same).removeInst i := hfunc
    unfold toDo
    rw [hwork, hlen, hfunc', instCapacity_replaced, List.length_cons]
    omega

/-- Phis that are watched, with the operands that they have, and are not on the list are not
trivial. -/
structure Watching (watched : InstId → Phi → Prop) (s : PhiFold) : Prop where
  queued : ∀ i ∈ s.queued, i ∈ s.work
  settled : ∀ i ∈ s.func.phiIds, i ∉ s.work → ∀ node, s.func.phi? i = some node →
    watched i node → node.trivial? i = none

variable {watched : InstId → Phi → Prop}

/-- What still waits when the first phi is taken from the list is on the rest of it. -/
lemma Watching.mem_rest (hs : Watching watched s) {i : InstId} {rest : List InstId}
    (hwork : s.work = i :: rest) {j : InstId} (hj : j ∈ (s.taken i rest).queued) : j ∈ rest := by
  obtain ⟨hj, hne⟩ := List.mem_filter.1 hj
  have hmem := hs.queued j hj
  rw [hwork] at hmem
  exact (List.mem_cons.1 hmem).resolve_left (by simpa using hne)

lemma Watching.step (hmay : ∀ i node, watched i node → mayFold i = true) (hs : Watching watched s)
    (h : s.step mayFold = some s') : Watching watched s' := by
  obtain ⟨i, rest, hwork, ⟨rfl, hpassed⟩ | ⟨same, node, -, -, -, rfl⟩⟩ := step_inv h
  · refine ⟨fun j hj => hs.mem_rest hwork hj, ?_⟩
    intro j hj hnot node hnode hwatched
    by_cases hji : j = i
    · subst hji
      exact hpassed (hmay j node hwatched) node hnode
    · refine hs.settled j hj ?_ node hnode hwatched
      rw [hwork, List.mem_cons, not_or]
      exact ⟨hji, hnot⟩
  · obtain ⟨hfunc, new, hwork', -, -, hall, hqueued⟩ := replace_new (s.taken i rest) i same
    refine ⟨?_, ?_⟩
    · intro j hj
      rw [hwork', List.mem_append]
      exact (hqueued j hj).imp_left (hs.mem_rest hwork)
    · intro j hj hnot node' hnode' hwatched
      rw [hfunc] at hj hnode'
      rw [hwork', List.mem_append, not_or] at hnot
      obtain ⟨hji, node, hnode, rfl⟩ := phi?_replaced hnode'
      have hlisted := mem_phiIds_replaced hj
      -- a phi that used the one replaced is on the list now
      have hunused : Value.inst i ∉ node.values := by
        intro hmem
        rcases hall j (mem_phiUsers.2 ⟨hlisted, hji, node, hnode, hmem⟩) with h | h
        · exact hnot.1 (hs.mem_rest hwork h)
        · exact hnot.2 h
      rw [Phi.mapValues_subst hunused] at hwatched ⊢
      refine hs.settled j hlisted ?_ node hnode hwatched
      rw [hwork, List.mem_cons, not_or]
      exact ⟨hji, hnot.1⟩

end PhiFold

/-! ## Folding as a whole -/

/-- The state in which folding stops. -/
def foldEnd (f : Func) (candidates : List InstId) (mayFold : InstId → Bool) : PhiFold :=
  repeatUpTo (PhiFold.step mayFold) (f.phiFoldBound candidates) ⟨f, candidates, candidates, []⟩

/-- Folding is what the loop is left with at its end. -/
lemma foldTrivialPhis_eq (f : Func) (candidates : List InstId) (mayFold : InstId → Bool) :
    f.foldTrivialPhis candidates mayFold =
      ((f.foldEnd candidates mayFold).func, (f.foldEnd candidates mayFold).replaced) := rfl

/-- No step is left at the end. -/
lemma step_foldEnd (f : Func) (candidates : List InstId) (mayFold : InstId → Bool) :
    PhiFold.step mayFold (f.foldEnd candidates mayFold) = none := by
  refine repeatUpTo_done (fun _ => True) PhiFold.toDo (fun _ _ _ _ => trivial)
    (fun _ _ _ h => PhiFold.toDo_step h) _ _ trivial ?_
  have hmul := Nat.mul_le_mul_right f.instCapacity f.instCount_le_instCapacity
  show candidates.length + f.instCount * f.instCapacity ≤ f.phiFoldBound candidates
  unfold phiFoldBound
  omega

/-- Folding stops when there is nothing left to look at. -/
lemma foldEnd_work (f : Func) (candidates : List InstId) (mayFold : InstId → Bool) :
    (f.foldEnd candidates mayFold).work = [] := by
  have hend := step_foldEnd f candidates mayFold
  unfold PhiFold.step at hend
  split at hend
  · assumption
  · dsimp only at hend
    split at hend
    · split at hend <;> cases hend
    · cases hend

/-- Where no phi that may be folded is trivial, none is folded. -/
lemma foldTrivialPhis_of_settled {f : Func} {candidates : List InstId} {mayFold : InstId → Bool}
    (h : ∀ i ∈ candidates, mayFold i = true →
      ∀ node, f.phi? i = some node → node.trivial? i = none) :
    f.foldTrivialPhis candidates mayFold = (f, []) := by
  let Kept (s : PhiFold) : Prop := s.func = f ∧ s.replaced = [] ∧ ∀ i ∈ s.work, i ∈ candidates
  have hstep : ∀ s s', Kept s → PhiFold.step mayFold s = some s' → Kept s' := by
    rintro s s' ⟨hfunc, hreplaced, hwork⟩ hstep
    obtain ⟨i, rest, hw, ⟨rfl, -⟩ | ⟨same, node, hmay, hnode, ht, -⟩⟩ := PhiFold.step_inv hstep
    · exact ⟨hfunc, hreplaced, fun j hj => hwork j (hw ▸ List.mem_cons_of_mem _ hj)⟩
    · rw [h i (hwork i (hw ▸ List.mem_cons_self)) hmay node (hfunc ▸ hnode)] at ht
      cases ht
  have hend := repeatUpTo_induct Kept hstep (f.phiFoldBound candidates)
    ⟨f, candidates, candidates, []⟩ ⟨rfl, rfl, fun i hi => hi⟩
  exact Prod.ext hend.1 hend.2.1

/-- The loop that folds comes to rest. -/
lemma rests_foldEnd (f : Func) (candidates : List InstId) (mayFold : InstId → Bool) :
    Rests (PhiFold.step mayFold) ⟨f, candidates, candidates, []⟩ (f.foldEnd candidates mayFold) :=
  rests_repeatUpTo (step_foldEnd f candidates mayFold)

/-- If the watched phis that are not looked at from the start are not trivial, no watched phi is
trivial at the end. -/
lemma foldTrivialPhis_settles_watched {f : Func} {candidates : List InstId}
    {mayFold : InstId → Bool} (watched : InstId → Phi → Prop)
    (hmay : ∀ i node, watched i node → mayFold i = true)
    (h : ∀ i ∈ f.phiIds, i ∉ candidates → ∀ node, f.phi? i = some node → watched i node →
      node.trivial? i = none) :
    let g := (f.foldTrivialPhis candidates mayFold).1
    ∀ i ∈ g.phiIds, ∀ node, g.phi? i = some node → watched i node → node.trivial? i = none := by
  have hend : PhiFold.Watching watched (f.foldEnd candidates mayFold) :=
    repeatUpTo_induct (PhiFold.Watching watched) (fun _ _ hs hstep => hs.step hmay hstep) _ _
      ⟨fun _ hi => hi, h⟩
  rw [foldTrivialPhis_eq]
  intro g i hi node hnode hwatched
  refine hend.settled i hi ?_ node hnode hwatched
  rw [foldEnd_work]
  exact List.not_mem_nil

/-- If the phis that are not looked at from the start are not trivial, no phi that may be folded
is trivial at the end. -/
theorem foldTrivialPhis_settles {f : Func} {candidates : List InstId} {mayFold : InstId → Bool}
    (h : ∀ i ∈ f.phiIds, mayFold i = true → i ∉ candidates →
      ∀ node, f.phi? i = some node → node.trivial? i = none) :
    let g := (f.foldTrivialPhis candidates mayFold).1
    ∀ i ∈ g.phiIds, mayFold i = true → ∀ node, g.phi? i = some node → node.trivial? i = none := by
  intro g i hi hmay node hnode
  exact foldTrivialPhis_settles_watched (fun i _ => mayFold i = true) (fun _ _ hi => hi)
    (fun i hi hnot node hnode hmay => h i hi hmay hnot node hnode) i hi node hnode hmay

end Func

end SsaBackend
