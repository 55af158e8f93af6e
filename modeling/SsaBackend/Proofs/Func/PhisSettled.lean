import SsaBackend.Proofs.Func.Resolved
import SsaBackend.Proofs.Pass.Arena

/-!
# Folding settles phis and leaves nothing dangling

Folding looks at phis on a list, in whatever order, and puts on it again those that used a phi which
it replaced. Where the tables of the function agree, a phi that is there is listed by a block, so all
users are found. A phi that was passed over stays as it was until it is on the list again; so at the
end every phi that was a candidate, or whose operands changed, is not trivial unless it may not be
folded (`Arena.not_trivial_of_folded`).

## Main statements

* `foldTrivialPhis_exhausts`: folding comes to rest. It replaces no phi twice, the replacements lead
  to values that stay, nothing names a phi that is gone, and what could have become trivial is not.
-/

namespace SsaBackend

namespace Func

open Replacement

/-- What is left of `f` when trivial phis were folded, starting from candidates, among those that may
be folded, and the replacements that were made. -/
structure FoldedOut (f : Func) (candidates : List InstId) (mayFold : InstId → Bool) (g : Func)
    (rs : List Replacement) : Prop where
  /-- No phi is replaced twice. -/
  once : (rs.map (·.phi)).Nodup
  allowed : ∀ r ∈ rs, mayFold r.phi = true
  /-- Replaced are the phis that are gone. -/
  replaced : ∀ i, (∃ r ∈ rs, r.phi = i) ↔ (∃ node, f.phi? i = some node) ∧ g.inst? i = none
  /-- Whoever follows replacements comes to rest, at a value that was not replaced. -/
  ends : ∀ v, Rests (next? rs) v (resolve rs v) ∧ ∀ r ∈ rs, resolve rs v ≠ .inst r.phi
  /-- What flowed into a phi that was replaced leads where the phi leads. -/
  merged : ∀ r ∈ rs, ∃ node, f.phi? r.phi = some node ∧
    ∀ v ∈ node.values, resolve rs v = resolve rs (.inst r.phi)
  /-- The other instructions are what they were, with their operands followed to their ends. -/
  kept : ∀ i, (∀ r ∈ rs, r.phi ≠ i) → g.inst? i = (f.inst? i).map fun p =>
    { p with inst := p.inst.mapOperands (resolve rs) }
  /-- A phi that was replaced is named no more. -/
  unused : ∀ r ∈ rs, (∀ i q, g.inst? i = some q → Value.inst r.phi ∉ q.inst.operands) ∧
    ∀ b t, g.terminator? b = some t → Value.inst r.phi ∉ t.operands
  /-- Candidates that may be folded and are left are not trivial. -/
  settled : ∀ i ∈ candidates, mayFold i = true → ∀ node, g.phi? i = some node →
    node.trivial? i = none
  /-- Nor are phis whose operands have changed. -/
  changed : ∀ i, mayFold i = true → ∀ old new, f.phi? i = some old → g.phi? i = some new →
    new ≠ old → new.trivial? i = none
  /-- If all phis were candidates and may be folded, no phi is trivial. -/
  noneTrivial : (∀ i node, f.phi? i = some node → i ∈ candidates) → (∀ i, mayFold i = true) →
    ∀ i node, g.phi? i = some node → node.trivial? i = none

variable {f : Func} {i : InstId} {candidates : List InstId} {mayFold : InstId → Bool}

/-- Candidates, and phis that were changed on the way, are not trivial in the end. -/
lemma Arena.not_trivial_of_folded (hf : f.Arena) {node : Phi}
    (hi : (f.foldTrivialPhis candidates mayFold).1.phi? i = some node) (hmay : mayFold i = true)
    (hseen : i ∈ candidates ∨ f.phi? i ≠ some node) : node.trivial? i = none := by
  have hg := (hf.descends.foldTrivialPhis candidates mayFold).arena
  refine foldTrivialPhis_settles_watched
    (fun j node => mayFold j = true ∧ (j ∈ candidates ∨ f.phi? j ≠ some node))
    (fun _ _ h => h.1) (fun j _ hnot node' hnode' hwatched => ?_) i (hg.mem_phiIds hi) node hi
    ⟨hmay, hseen⟩
  -- at the start nothing has changed, and candidates are on the list
  exact absurd hnode' (hwatched.2.resolve_left hnot)

/-- Folding trivial phis is complete and leaves nothing dangling. -/
theorem foldTrivialPhis_exhausts (hf : f.Arena) (candidates : List InstId)
    (mayFold : InstId → Bool) :
    (∃ s : PhiFold, Rests (PhiFold.step mayFold) ⟨f, candidates, candidates, []⟩ s ∧
      f.foldTrivialPhis candidates mayFold = (s.func, s.replaced)) ∧
    FoldedOut f candidates mayFold (f.foldTrivialPhis candidates mayFold).1
      (f.foldTrivialPhis candidates mayFold).2 := by
  refine ⟨⟨_, rests_foldEnd f candidates mayFold, foldTrivialPhis_eq f candidates mayFold⟩, ?_⟩
  have hlists := hf.listsPlaced
  obtain ⟨hfolded, hallowed⟩ := foldTrivialPhis_folded f candidates mayFold
  obtain ⟨hchained, -⟩ := hfolded.chained hlists
  have hsettled : ∀ i ∈ candidates, mayFold i = true → ∀ node,
      (f.foldTrivialPhis candidates mayFold).1.phi? i = some node → node.trivial? i = none :=
    fun i hi hmay node hnode => hf.not_trivial_of_folded hnode hmay (.inl hi)
  refine ⟨?_, hallowed, hfolded.replaced_iff hlists, fun v => ?_, hfolded.resolve_value hlists,
    fun i hnot => ?_, fun r => hfolded.unused hlists, hsettled, ?_, ?_⟩
  · exact List.pairwise_map.2 (hchained.forward.imp fun h => Ne.symm h.1)
  · exact ⟨rests_repeatUpTo (hchained.next?_resolve v), hchained.resolve_ne v⟩
  · rw [hfolded.inst?_eq hlists, if_neg fun ⟨r, hr, he⟩ => hnot r hr he]
  · intro i hmay old new hold hnew hne
    refine hf.not_trivial_of_folded hnew hmay (.inr fun he => hne ?_)
    exact (Option.some.inj (hold.symm.trans he)).symm
  · intro hall hmay i node hnode
    obtain ⟨old, hold, -⟩ := hfolded.phi_inv hlists hnode
    exact hsettled i (hall i old hold) (hmay i) node hnode

/-- A loop whose phis pass a value on to each other, from the header to the latch and back. -/
def relay : Func := Edit.applyAll (.new "relay" 1)
  [.addBlock, .addBlock, .addBlock,
    .appendPhi ⟨1⟩ [⟨⟨0⟩, .arg 0⟩, ⟨⟨2⟩, .inst ⟨0⟩⟩],
    .appendPhi ⟨1⟩ [⟨⟨0⟩, .inst ⟨0⟩⟩, ⟨⟨2⟩, .inst ⟨2⟩⟩],
    .appendPhi ⟨2⟩ [⟨⟨1⟩, .inst ⟨1⟩⟩],
    .appendPhi ⟨1⟩ [⟨⟨0⟩, .inst ⟨1⟩⟩, ⟨⟨2⟩, .inst ⟨3⟩⟩],
    .appendPhi ⟨1⟩ [⟨⟨0⟩, .inst ⟨0⟩⟩, ⟨⟨2⟩, .int 7⟩],
    .appendInst ⟨2⟩ (.binary .add (.inst ⟨3⟩) (.inst ⟨4⟩)) rfl,
    .setTerminator ⟨0⟩ (.jump ⟨1⟩),
    .setTerminator ⟨1⟩ (.branch (.arg 0) ⟨2⟩ ⟨3⟩),
    .setTerminator ⟨2⟩ (.jump ⟨1⟩),
    .setTerminator ⟨3⟩ (.ret (some (.inst ⟨2⟩)))]

lemma relay_arena : relay.Arena := (Edit.descends_applyAll (arena_new "relay" 1).descends _).arena

/-- Among the candidates one is named twice and one is no phi, and one phi may not be folded. The phi
of the latch gives way to one of the header that is replaced next; that one turned trivial on the
way, and the phi that may not be folded did too and stays. -/
theorem relay_exhausted :
    relay.Arena ∧
      ((∃ s : PhiFold, Rests (PhiFold.step (· != ⟨3⟩))
          ⟨relay, [⟨2⟩, ⟨5⟩, ⟨0⟩, ⟨2⟩], [⟨2⟩, ⟨5⟩, ⟨0⟩, ⟨2⟩], []⟩ s ∧
        relay.foldTrivialPhis [⟨2⟩, ⟨5⟩, ⟨0⟩, ⟨2⟩] (· != ⟨3⟩) = (s.func, s.replaced)) ∧
      FoldedOut relay [⟨2⟩, ⟨5⟩, ⟨0⟩, ⟨2⟩] (· != ⟨3⟩)
        (relay.foldTrivialPhis [⟨2⟩, ⟨5⟩, ⟨0⟩, ⟨2⟩] (· != ⟨3⟩)).1
        (relay.foldTrivialPhis [⟨2⟩, ⟨5⟩, ⟨0⟩, ⟨2⟩] (· != ⟨3⟩)).2) ∧
      (relay.foldTrivialPhis [⟨2⟩, ⟨5⟩, ⟨0⟩, ⟨2⟩] (· != ⟨3⟩)).2 =
        [⟨⟨2⟩, .inst ⟨1⟩⟩, ⟨⟨0⟩, .arg 0⟩, ⟨⟨1⟩, .arg 0⟩] ∧
      (relay.foldTrivialPhis [⟨2⟩, ⟨5⟩, ⟨0⟩, ⟨2⟩] (· != ⟨3⟩)).1.phi? ⟨3⟩ =
        some ⟨[⟨⟨0⟩, .arg 0⟩, ⟨⟨2⟩, .inst ⟨3⟩⟩]⟩ :=
  ⟨relay_arena, foldTrivialPhis_exhausts relay_arena _ _, by decide +kernel, by decide +kernel⟩

end Func

end SsaBackend
