import SsaBackend.Pass.Hoist
import SsaBackend.Proofs.Hoist.Simulation
import SsaBackend.Proofs.Loop.Natural
import SsaBackend.Proofs.Pass.Session

/-!
# Hoisting preserves meaning

The pass moves one instruction after another, and each of the moves is safe: the preheader lies
above the block, and an operand from outside the loop lies above the preheader. What has to
hold for the next move is `Hoisted`: the function is in strict form, has the edges it had and
means what it meant. It is handed from instruction to instruction (`Hoisted.hoistInst`), from
block to block and from loop to loop, and `hoisting_preserves_meaning` reads it at the end.
-/

namespace SsaBackend

open Func

namespace Hoist

/-! ## One loop -/

/-- The function `f` came from `f₀` by safe moves. -/
structure Hoisted (f₀ f : Func) : Prop where
  strict : f.Strict
  cfg : f.cfg = f₀.cfg
  reached : ∀ b bb, f.block? b = some bb → f.Reached b
  same : f₀.SameMeaning f

/-- The loop `l` of `f₀` and its preheader, with what the checks of `f₀` say. -/
structure Around (f₀ : Func) (l : Loop) (pre : BlockId) : Prop where
  verified : f₀.Verified
  entry : f₀.preds f₀.entry = []
  natural : l.Natural f₀
  preheader : l.HasPreheader f₀ pre

variable {f₀ : Func} {l : Loop} {pre b : BlockId}

/-- The walk down the dominator tree stays in the loop. -/
lemma mem_blocksOf {dom : DomTree} (hl : l.header ∈ l.body) (hb : b ∈ blocksOf dom l) :
    b ∈ l.body := by
  unfold blocksOf at hb
  obtain ⟨n, hn, rfl⟩ := List.mem_map.1 hb
  unfold DomTree.preorderFrom at hn
  split at hn
  · -- whatever waits or was passed is in the loop
    have hstep : ∀ s s' : DomTree.Descent,
        ((∀ n ∈ s.stack, (⟨n⟩ : BlockId) ∈ l.body) ∧ ∀ n ∈ s.passed, (⟨n⟩ : BlockId) ∈ l.body) →
        DomTree.Descent.step dom (fun n => l.contains ⟨n⟩) s = some s' →
        (∀ n ∈ s'.stack, (⟨n⟩ : BlockId) ∈ l.body) ∧ ∀ n ∈ s'.passed, (⟨n⟩ : BlockId) ∈ l.body := by
      intro s s' hs hstep
      unfold DomTree.Descent.step at hstep
      split at hstep
      · cases hstep
      · rename_i m rest hstack
        cases hstep
        rw [hstack] at hs
        refine ⟨?_, ?_⟩
        · intro k hk
          rcases List.mem_append.1 hk with hk | hk
          · have := (List.mem_filter.1 hk).2
            simpa [Loop.contains] using this
          · exact hs.1 k (List.mem_cons_of_mem _ hk)
        · intro k hk
          rcases List.mem_cons.1 hk with he | hk
          · exact he ▸ hs.1 m (List.mem_cons_self ..)
          · exact hs.2 k hk
    refine (repeatUpTo_induct _ hstep _ _ ⟨?_, by simp⟩).2 n (List.mem_reverse.1 hn)
    intro n hn
    rw [List.mem_singleton.1 hn]
    exact hl
  · cases hn

/-- An operand from outside the loop is computed in a block above that is not in the loop. -/
lemma operand_above {f : Func} (hf : Hoisted f₀ f) {bb : Block} {i j : InstId} {p : PlacedInst}
    (hbb : f.block? p.block = some bb) (hi : i ∈ bb.body) (hp : f.inst? i = some p)
    (hb : p.block ∈ l.body) (hops : ∀ v ∈ p.inst.operands, fromOutside f l v = true)
    (hj : Value.inst j ∈ p.inst.operands) :
    ∃ d, f.Dom d p.block ∧ d ∉ l.body ∧ f.Lists d j := by
  obtain ⟨q, hq, hout⟩ : ∃ q, f.inst? j = some q ∧ q.block ∉ l.body := by
    have := hops (.inst j) hj
    unfold fromOutside at this
    cases hq : f.inst? j with
    | none => simp [hq] at this
    | some q =>
      refine ⟨q, rfl, ?_⟩
      simpa [hq, Loop.contains] using this
  have hblock : ∀ c, f.Lists c j → c = q.block := by
    intro c hc
    obtain ⟨q', hq', hc'⟩ := hf.strict.block_of_lists hc
    rw [hq] at hq'
    cases hq'
    exact hc'.symm
  obtain ⟨before, after, hsplit⟩ := List.append_of_mem hi
  rcases hf.strict.inBody p.block bb hbb before i after hsplit p hp j hj with
    hmem | ⟨d, -, hd, hlist⟩
  · -- the operand would be computed in this block, and so in the loop
    rw [hblock _ (lists_before hbb hsplit hmem)] at hb
    exact absurd hb hout
  · rw [← hblock d hlist] at hout
    exact ⟨d, hd, hout, hlist⟩

/-- An invariant instruction of a block of the loop may move to the preheader. -/
lemma hoisting_of_invariant {f : Func} (hf : Hoisted f₀ f) (ha : Around f₀ l pre)
    (hb : b ∈ l.body) {bb : Block} (hbb : f.block? b = some bb) {i : InstId} (hi : i ∈ bb.body)
    (hinv : isInvariant f l i = true) :
    ∃ p, p.block = b ∧ f.Hoisting i p pre := by
  obtain ⟨p, hp, hblock, -⟩ := hf.strict.body b bb hbb i hi
  subst hblock
  unfold isInvariant at hinv
  rw [hp, Option.any_some, Bool.and_eq_true, Bool.and_eq_true, List.all_eq_true] at hinv
  obtain ⟨⟨hh, hs⟩, hops⟩ := hinv
  have hdom : ∀ d c, f.Dom d c ↔ f₀.Dom d c := by
    intro d c
    unfold Func.Dom
    rw [hf.cfg]
  have hreach : f₀.Reached p.block := by
    have := hf.reached p.block bb hbb
    unfold Func.Reached at this
    rw [hf.cfg] at this
    exact this
  refine ⟨p, rfl, hf.strict, hp, ⟨bb, hbb, hi⟩, hh, hs, ?_, hf.reached p.block bb hbb, ?_, ?_, ?_⟩
  · -- the preheader has a successor, so it is there
    have hedge : l.header ∈ f.succs pre := by
      rw [← edge_iff, hf.cfg, edge_iff, ha.preheader.2]
      exact List.mem_singleton.2 rfl
    exact exists_block_of_succ hedge
  · exact (hdom pre p.block).2
      (ha.natural.dom_of_mem ha.verified ha.preheader ha.entry hb)
  · intro he
    exact (Loop.Natural.preheader_pred ha.preheader).2 (he ▸ hb)
  · intro j hj
    obtain ⟨d, hd, hout, hlist⟩ := operand_above hf hbb hi hp hb hops hj
    refine ⟨d, (hdom d pre).2 ?_, hlist⟩
    exact ha.natural.dom_preheader ha.verified ha.preheader ha.entry hb hreach hout
      ((hdom d p.block).1 hd)

/-- A safe move keeps everything the next one needs. -/
lemma Hoisted.moved {f g : Func} (hf : Hoisted f₀ f) {i : InstId} {p : PlacedInst}
    (hsafe : f.Hoisting i p pre) (hm : f.Moved g i p pre) : Hoisted f₀ g := by
  have hcfg := Hoisting.cfg_eq hm
  refine ⟨hsafe.strict_moved hm, hcfg.trans hf.cfg, ?_, hf.same.trans (hsafe.sameMeaning hm)⟩
  intro c bb' hb'
  obtain ⟨bb, hb, -⟩ := Hoisting.block_inv hm hb'
  unfold Func.Reached
  rw [hcfg]
  exact hf.reached c bb hb

/-- One instruction is dealt with; the others of its block stay there. -/
lemma Hoisted.hoistInst {s s' : Session} {count count' : Nat} {i : InstId}
    (hf : Hoisted f₀ s.func) (ha : Around f₀ l pre) (hb : b ∈ l.body) {bb : Block}
    (hbb : s.func.block? b = some bb) (hi : i ∈ bb.body)
    (hrun : (Hoist.hoistInst l pre b count i).run s = .ok count' s') :
    Hoisted f₀ s'.func ∧ ∃ bb', s'.func.block? b = some bb' ∧
      ∀ k ∈ bb.body, k ≠ i → k ∈ bb'.body := by
  unfold Hoist.hoistInst at hrun
  rw [Work.get_bind_ok] at hrun
  cases hinv : isInvariant s.func l i with
  | false =>
    simp only [hinv] at hrun
    cases hrun
    exact ⟨hf, bb, hbb, fun k hk _ => hk⟩
  | true =>
    simp only [hinv] at hrun
    obtain ⟨moved, hmove, hrun⟩ := Work.ofExcept_bind_ok.1 hrun
    cases hrun
    obtain ⟨p, hm⟩ := moveInst_ok hmove
    obtain ⟨q, hqb, hsafe⟩ := hoisting_of_invariant hf ha hb hbb hi hinv
    have hpq : q = p := by
      have h1 := hm.was
      rw [hsafe.inst] at h1
      cases h1
      rfl
    subst hpq
    refine ⟨hf.moved hsafe hm, _, by rw [show Func.block? _ b = _ from hm.block b, hbb]; rfl, ?_⟩
    intro k hk hki
    apply List.mem_append_left
    split
    · exact List.mem_filter.2 ⟨hk, by simpa using hki⟩
    · exact hk

/-- One block is dealt with. -/
lemma Hoisted.hoistBlock {s s' : Session} {count count' : Nat} (hf : Hoisted f₀ s.func)
    (ha : Around f₀ l pre) (hb : b ∈ l.body)
    (hrun : (Hoist.hoistBlock l pre count b).run s = .ok count' s') : Hoisted f₀ s'.func := by
  unfold Hoist.hoistBlock at hrun
  rw [Work.get_bind_ok] at hrun
  cases hbb : s.func.block? b with
  | none =>
    simp only [hbb] at hrun
    cases hrun
    exact hf
  | some bb =>
    simp only [hbb, Option.elim_some] at hrun
    -- the instructions that are still to come are still in the block
    have hloop := Work.foldlM_induct (f := Hoist.hoistInst l pre b)
      (fun rest s => Hoisted f₀ s.func ∧ rest.Nodup ∧
        ∃ bb, s.func.block? b = some bb ∧ ∀ i ∈ rest, i ∈ bb.body)
      ?_ bb.body count count' s s' ?_ hrun
    · exact hloop.1
    · intro c i rest s₁ c' s₂ hs hstep
      obtain ⟨hf₁, hnodup, bb₁, hbb₁, hin⟩ := hs
      obtain ⟨hi, hrest⟩ := List.nodup_cons.1 hnodup
      obtain ⟨hf₂, bb₂, hbb₂, hkeep⟩ :=
        hf₁.hoistInst ha hb hbb₁ (hin i (List.mem_cons_self ..)) hstep
      refine ⟨hf₂, hrest, bb₂, hbb₂, ?_⟩
      intro k hk
      exact hkeep k (hin k (List.mem_cons_of_mem _ hk)) (fun he => hi (he ▸ hk))
    · exact ⟨hf, hf.strict.once b bb hbb, bb, hbb, fun i hi => hi⟩

/-! ## All loops -/

/-- One loop is dealt with. -/
lemma Hoisted.hoistLoop {s s' : Session} {dom : DomTree} {count count' : Nat}
    (hf : Hoisted f₀ s.func) (hv : f₀.Verified) (hentry : f₀.preds f₀.entry = [])
    (hl : l.Natural f₀) (hpre : ∀ pre, l.preheader = some pre → l.HasPreheader f₀ pre)
    (hrun : (Hoist.hoistLoop dom count l).run s = .ok count' s') : Hoisted f₀ s'.func := by
  unfold Hoist.hoistLoop at hrun
  split at hrun
  · cases hrun
  · rename_i pre hp
    have ha : Around f₀ l pre := ⟨hv, hentry, hl, hpre pre hp⟩
    have hloop := Work.foldlM_induct (f := Hoist.hoistBlock l pre)
      (fun rest s => Hoisted f₀ s.func ∧ ∀ b ∈ rest, b ∈ l.body) ?_ _ count count' s s' ?_ hrun
    · exact hloop.1
    · intro c b rest s₁ c' s₂ hs hstep
      refine ⟨hs.1.hoistBlock ha (hs.2 b (List.mem_cons_self ..)) hstep, ?_⟩
      intro k hk
      exact hs.2 k (List.mem_cons_of_mem _ hk)
    · exact ⟨hf, fun b hb => mem_blocksOf hl.header_mem hb⟩

/-- Hoisting loop-invariant code preserves the meaning of a function that passes the checks,
all of whose blocks are reached, whose entry has no predecessors and in which every use is
dominated by its definition. -/
theorem hoisting_preserves_meaning {s s' : Session} {changed : Bool}
    (hverify : s.func.verify = .ok ())
    (hreached : ∀ b bb, s.func.block? b = some bb → s.func.Reached b)
    (hentry : s.func.preds s.func.entry = []) (huses : s.func.UsesDominated)
    (hcache : s.cache.FreshFor s.func) (hrun : Hoist.run.run s = .ok changed s') :
    s.func.SameMeaning s'.func := by
  have hv := verified_of_verify hverify
  unfold Hoist.run at hrun
  obtain ⟨_, s₁, hcompute, hrun⟩ := Work.bind_ok.1 hrun
  -- the analyses are those of the function as it is
  have hs₁ : s₁.func = s.func ∧ s₁.cache.FreshFor s.func := by
    unfold Session.compute at hcompute
    rw [Work.get_bind_ok] at hcompute
    obtain ⟨c, hc, hcompute⟩ := Work.ofExcept_bind_ok.1 hcompute
    cases hcompute
    exact ⟨rfl, hcache.compute hc⟩
  obtain ⟨hfunc, hfresh⟩ := hs₁
  rw [Work.get_bind_ok] at hrun
  obtain ⟨dom, -, hrun⟩ := Work.ofExcept_bind_ok.1 hrun
  obtain ⟨lf, hlf, hrun⟩ := Work.ofExcept_bind_ok.1 hrun
  obtain ⟨count, s₂, hfold, htail⟩ := Work.bind_ok.1 hrun
  rw [hfunc] at hlf
  obtain ⟨t, ht, rfl⟩ := hfresh.getLoops hlf
  have hend : s'.func = s₂.func := by
    split at htail
    · cases htail
      rfl
    · cases htail
      rfl
  rw [show s.func.dominators = _ from hv.consistent.dominators_eq] at ht
  cases ht
  -- one loop after another
  have hloops := Work.foldlM_induct (f := Hoist.hoistLoop dom)
    (fun rest s₁ => Hoisted s.func s₁.func ∧
      ∀ l ∈ rest, l ∈ (s.func.loopForest s.func.cfg.domTree).innermostFirst) ?_ _ 0 count _ s₂ ?_
    hfold
  · rw [hend]
    exact hloops.1.same
  · intro c l rest s₁ c' s₂ hs hstep
    obtain ⟨hnat, hpre⟩ :=
      natural_of_mem_innermostFirst hv hreached (hs.2 l (List.mem_cons_self ..))
    refine ⟨hs.1.hoistLoop hv hentry hnat hpre hstep, ?_⟩
    intro k hk
    exact hs.2 k (List.mem_cons_of_mem _ hk)
  · refine ⟨?_, fun l hl => hl⟩
    rw [hfunc]
    exact ⟨hv.strict huses, rfl, hreached, SameMeaning.refl _⟩

/-! ## A loop that adds up a product -/

/-- A loop that adds the same product in every round. -/
def accumulate : Func where
  name := "accumulate"
  numArgs := 2
  blocks := #[
    some { terminator := some (.jump ⟨1⟩) },
    some { phis := [⟨0⟩], body := [⟨1⟩, ⟨2⟩, ⟨3⟩], preds := [⟨0⟩, ⟨1⟩],
           terminator := some (.branch (.inst ⟨3⟩) ⟨1⟩ ⟨2⟩) },
    some { terminator := some (.ret (some (.inst ⟨2⟩))), preds := [⟨1⟩] }]
  insts := #[
    some ⟨.phi ⟨[⟨⟨0⟩, .int 0⟩, ⟨⟨1⟩, .inst ⟨2⟩⟩]⟩, ⟨1⟩⟩,
    some ⟨.binary .mul (.arg 0) (.arg 1), ⟨1⟩⟩,
    some ⟨.binary .add (.inst ⟨0⟩) (.inst ⟨1⟩), ⟨1⟩⟩,
    some ⟨.compare .slt (.inst ⟨2⟩) (.arg 0), ⟨1⟩⟩]

lemma accumulate_verified : accumulate.verify = .ok () := by decide +kernel

lemma accumulate_dom {d b : Nat} (h : accumulate.cfg.domTree.dominates d b = true) :
    accumulate.Reached ⟨d⟩ ∧ accumulate.Reached ⟨b⟩ ∧ accumulate.Dom ⟨d⟩ ⟨b⟩ :=
  (Digraph.domTree_dominates (verified_of_verify accumulate_verified).consistent d b).1 h

lemma accumulate_reached : ∀ b bb, accumulate.block? b = some bb → accumulate.Reached b := by
  intro b bb hb
  rcases b with ⟨_ | _ | _ | n⟩
  · exact (accumulate_dom (d := 0) (by decide +kernel)).2.1
  · exact (accumulate_dom (d := 0) (by decide +kernel)).2.1
  · exact (accumulate_dom (d := 0) (by decide +kernel)).2.1
  · cases hb

lemma accumulate_uses : accumulate.UsesDominated := by
  refine ⟨?_, ?_, ?_, ?_⟩
  · intro b bb hb
    rcases b with ⟨_ | _ | _ | n⟩
    · cases hb; decide
    · cases hb; decide
    · cases hb; decide
    · cases hb
  · intro b bb hb before i after hsplit p hp j hj
    rcases b with ⟨_ | _ | _ | n⟩
    · cases hb; cases before <;> cases hsplit
    · -- what is used in the loop is made above, by the phi or earlier in the loop
      cases hb
      left
      rcases before with _ | ⟨_, _ | ⟨_, _ | ⟨_, l⟩⟩⟩
      · cases hsplit; cases hp; simp [Inst.operands] at hj
      · cases hsplit
        cases hp
        simp only [Inst.operands, List.mem_cons, Value.inst.injEq, List.not_mem_nil, or_false] at hj
        rcases hj with rfl | rfl <;> simp
      · cases hsplit; cases hp; simp [Inst.operands] at hj; simp [hj]
      · cases l <;> cases hsplit
    · cases hb; cases before <;> cases hsplit
    · cases hb
  · intro b bb hb t ht j hj
    rcases b with ⟨_ | _ | _ | n⟩
    · cases hb; cases ht; cases hj
    · cases hb
      cases ht
      left
      simp only [Terminator.operands, List.mem_singleton, Value.inst.injEq] at hj
      simp [hj, Block.insts]
    · -- the sum that is returned is made in the loop, which lies above
      cases hb
      cases ht
      simp only [Terminator.operands, Option.toList_some, List.mem_singleton,
        Value.inst.injEq] at hj
      subst hj
      exact .inr ⟨⟨1⟩, by decide, (accumulate_dom (by decide +kernel)).2.2, _, rfl, by decide⟩
    · cases hb
  · intro b bb hb i hi node hnode p pp hp hedge j hj
    rcases b with ⟨_ | _ | _ | n⟩
    · cases hb; cases hi
    · cases hb
      rw [List.mem_singleton.1 hi] at hnode
      cases hnode
      rcases p with ⟨_ | _ | _ | n⟩
      · cases hj
      · cases hp; cases hj; left; decide
      · cases hj
      · cases hp
    · cases hb; cases hi
    · cases hb

/-- The product is computed once, before the loop, and nothing else changes. -/
theorem hoisting_accumulate : ∃ s', Hoist.run.run ⟨accumulate, .empty, #[]⟩ = .ok true s' ∧
    (s'.func.block? ⟨0⟩).map (·.body) = some [⟨1⟩] ∧ accumulate.SameMeaning s'.func := by
  have hchanged : Hoist.run.result ⟨accumulate, .empty, #[]⟩ = .ok true := by decide +kernel
  have hbody : ((Hoist.run.state ⟨accumulate, .empty, #[]⟩).func.block? ⟨0⟩).map (·.body) =
      some [⟨1⟩] := by decide +kernel
  unfold Work.result at hchanged
  unfold Work.state at hbody
  cases hrun : Hoist.run.run ⟨accumulate, .empty, #[]⟩ with
  | error e s' =>
    rw [hrun] at hchanged
    cases hchanged
  | ok changed s' =>
    rw [hrun] at hchanged hbody
    cases hchanged
    refine ⟨s', rfl, hbody, ?_⟩
    exact hoisting_preserves_meaning (s := ⟨accumulate, .empty, #[]⟩) accumulate_verified
      accumulate_reached (by decide) accumulate_uses (Cache.FreshFor.empty _) hrun

end Hoist

end SsaBackend
