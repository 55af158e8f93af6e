import SsaBackend.Proofs.Hoist.Clean
import SsaBackend.Proofs.Loop.Descent

/-!
# What hoisting counts

Hoisting answers whether it moved anything. If it did not, the function is what it was, every loop
has a preheader and nothing in a loop is invariant in it, for all blocks of the loop were looked
at (`Hoist.run_counts`); and of such a function it answers that it moved nothing
(`Hoist.run_of_settled`).

If something moved, it cannot have moved back. A preheader is in fewer loops than the blocks of
its loop (`Loop.Family.depth_preheader`), so no move takes an instruction deeper into the loops,
and the first one takes it out of one.
-/

namespace SsaBackend

open Func

/-! ## Preheaders lie less deep -/

namespace Loop

variable {f : Func} {l m : Loop} {pre : BlockId}

/-- A loop around the preheader has the header in it, which is where the preheader leads. -/
lemma Whole.header_mem_of_preheader (hm : m.Whole f) (hsuccs : f.succs pre = [l.header])
    (hpre : pre ∈ m.body) (hne : m.header ≠ l.header) (hself : pre ≠ l.header) :
    l.header ∈ m.body := by
  have hnext : ∀ c, c ∈ f.succs pre → c = l.header := by
    intro c hc
    rw [hsuccs] at hc
    exact List.mem_singleton.1 hc
  rcases (hm.body pre).1 hpre with rfl | ⟨hreach, n, hn, hout, hpath⟩
  · -- the way from the preheader to a latch begins with the step to the header
    obtain ⟨n, hn⟩ := List.exists_mem_of_ne_nil _ hm.latched
    obtain ⟨hedge, ⟨r, hr⟩, hdom⟩ := hm.toExact.latches n hn
    have hnm : n ≠ m.header := by
      rintro rfl
      exact hself (hnext _ hedge)
    have hnbody : n ∈ m.body := (hm.body n).2 (.inr ⟨⟨r, hr⟩, n, hn, hnm, .refl⟩)
    obtain ⟨u, r', hsplit, hu⟩ := List.eq_append_cons_of_mem (hdom r hr)
    rcases List.eq_nil_or_concat u with rfl | ⟨u, x, rfl⟩
    · exact absurd (BlockId.index_inj.1 (List.cons.inj hsplit).1) hnm
    · rw [List.concat_eq_append, List.append_assoc, List.singleton_append] at hsplit
      rw [hsplit] at hr
      have hx : (⟨x⟩ : BlockId) = l.header := by
        cases hr.of_append with
        | step _ last => exact hnext _ (edge_iff.1 last)
      rw [← hx]
      refine hm.mem_of_visit hnbody hr ?_ fun hmem => hu ?_
      · rw [← hsplit]
        rfl
      · rw [List.concat_eq_append]
        exact List.mem_append_left _ hmem
  · cases hpath using Relation.ReflTransGen.head_induction_on with
    | refl => exact absurd (hnext _ (hm.toExact.latches _ hn).1) hne
    | @head a c hstep hrest =>
      have hc := hnext c hstep.1
      rw [← hc]
      exact (hm.body c).2 (.inr ⟨hreach.step (edge_iff.2 hstep.1), n, hn, hstep.2, hrest⟩)

/-- The preheader of a loop is in fewer loops than a block of the loop. -/
lemma Family.depth_preheader {loops : List Loop} (h : Family f loops) (hl : l ∈ loops)
    (hpre : l.HasPreheader f pre) {b : BlockId} (hb : b ∈ l.body) :
    loops.countP (·.contains pre) < loops.countP (·.contains b) := by
  obtain ⟨-, hout⟩ := Natural.preheader_pred hpre
  have hcontains : ∀ (m : Loop) (c : BlockId), m.contains c = true ↔ c ∈ m.body :=
    fun m c => List.contains_iff_mem
  have hself : pre ≠ l.header := fun he => hout (he ▸ (h.whole l hl).header_mem)
  have hcount : loops.countP (·.contains b) =
      loops.countP (fun m => m.contains b && decide (m ≠ l)) + 1 := by
    refine countP_eq_succ h.nodup hl ((hcontains l b).2 hb) (by simp) fun m _ hne => ?_
    simp [hne]
  have hle : loops.countP (·.contains pre) ≤
      loops.countP (fun m => m.contains b && decide (m ≠ l)) := by
    refine List.countP_mono_left fun m hm hmpre => ?_
    rw [hcontains] at hmpre
    have hml : m ≠ l := fun he => hout (he ▸ hmpre)
    have hheaders : m.header ≠ l.header := fun he => hml (h.eq_of_header hm hl he)
    have hmem := (h.whole m hm).header_mem_of_preheader hpre.2 hmpre hheaders hself
    have hin := (h.whole l hl).inside_of_header_mem (h.whole m hm) (Ne.symm hheaders) hmem
    rw [Bool.and_eq_true, hcontains, decide_eq_true_eq]
    exact ⟨hin.1 hb, hml⟩
  omega

end Loop

/-! ## Counting moves -/

/-- Instructions in the body of a block belong to the block. -/
def Func.BodiesPlaced (f : Func) : Prop :=
  ∀ b bb, f.block? b = some bb → ∀ i ∈ bb.body, ∃ p, f.inst? i = some p ∧ p.block = b

/-- Moving an instruction to another block makes it belong there. -/
lemma Func.BodiesPlaced.moved {f g : Func} {i : InstId} {p : PlacedInst} {pre : BlockId}
    (h : f.BodiesPlaced) (hm : Moved f g i p pre) : g.BodiesPlaced := by
  intro b bb' hb' k hk
  obtain ⟨bb, hb, -, -, hbody⟩ := Hoisting.block_inv hm hb'
  rw [hm.inst]
  by_cases hki : k = i
  · refine ⟨{ p with block := pre }, if_pos hki, ?_⟩
    by_contra hne
    rw [hbody, if_neg (Ne.symm hne), List.append_nil] at hk
    split at hk
    · simp [hki] at hk
    · rename_i hbp
      obtain ⟨q, hq, hqb⟩ := h b bb hb k hk
      rw [hki, hm.was] at hq
      cases hq
      exact hbp hqb.symm
  · rw [if_neg hki]
    refine h b bb hb k ?_
    rw [hbody] at hk
    rcases List.mem_append.1 hk with hk | hk
    · split at hk
      · exact (List.mem_filter.1 hk).1
      · exact hk
    · split at hk
      · exact absurd (List.mem_singleton.1 hk) hki
      · cases hk

/-- A loop that counts: if it counts nothing, each of its rounds counted nothing. -/
lemma Work.Ends.foldlM_count {σ α : Type} {f : Nat → α → Work σ Nat} {R : σ → Prop}
    (I : Nat → σ → Prop) (Idle : α → Prop) {l : List α}
    (hstep : ∀ x ∈ l, ∀ n s, I n s →
      (f n x).Ends s (fun n' s' => I n' s' ∧ (n' = 0 → n = 0 ∧ Idle x)) R)
    {n : Nat} {s : σ} (h : I n s) :
    (l.foldlM f n).Ends s (fun n' s' => I n' s' ∧ (n' = 0 → n = 0 ∧ ∀ x ∈ l, Idle x)) R := by
  induction l generalizing n s with
  | nil => exact Work.Ends.of_pure ⟨h, fun hn => ⟨hn, fun x hx => absurd hx List.not_mem_nil⟩⟩
  | cons x rest ih =>
    rw [List.foldlM_cons]
    refine (hstep x List.mem_cons_self n s h).bind fun n₁ s₁ ⟨h₁, hidle⟩ => ?_
    refine (ih (fun y hy => hstep y (List.mem_cons_of_mem x hy)) h₁).mono
      (fun n' s' ⟨h', hrest⟩ => ⟨h', fun hn => ?_⟩) fun _ h => h
    obtain ⟨hn₁, hall⟩ := hrest hn
    refine ⟨(hidle hn₁).1, fun y hy => ?_⟩
    rcases List.mem_cons.1 hy with rfl | hy
    · exact (hidle hn₁).2
    · exact hall y hy

namespace Hoist

variable {f₀ : Func} {depth : BlockId → Nat} {n : Nat} {s : Session} {l : Loop} {pre b : BlockId}

/-- No instruction lies deeper than it did, and some instruction less deep if any was moved. -/
structure Risen (depth : BlockId → Nat) (f₀ : Func) (n : Nat) (f : Func) : Prop where
  placed : f.BodiesPlaced
  rises : ∀ i p, f₀.inst? i = some p → ∃ q, f.inst? i = some q ∧ depth q.block ≤ depth p.block
  strictly : 0 < n → ∃ i p q, f₀.inst? i = some p ∧ f.inst? i = some q ∧
    depth q.block < depth p.block

/-- Hoisting came from `f₀` to where it is by `n` moves. -/
structure Counted (depth : BlockId → Nat) (f₀ : Func) (n : Nat) (s : Session) : Prop where
  none : n = 0 → s.func = f₀
  risen : f₀.BodiesPlaced → Risen depth f₀ n s.func

/-- The instruction would not go deeper if it were moved to `pre`, and less deep if it is the
first that is moved. -/
def WouldRise (depth : BlockId → Nat) (pre : BlockId) (n : Nat) (f : Func) (i : InstId) : Prop :=
  ∃ p, f.inst? i = some p ∧ depth pre ≤ depth p.block ∧ (n = 0 → depth pre < depth p.block)

lemma WouldRise.moved {f g : Func} {i k : InstId} {p : PlacedInst}
    (h : WouldRise depth pre n f k) (hm : Moved f g i p pre) :
    WouldRise depth pre (n + 1) g k := by
  unfold WouldRise
  rw [hm.inst]
  by_cases hki : k = i
  · exact ⟨_, if_pos hki, Nat.le_refl _, fun hn => absurd hn (Nat.succ_ne_zero n)⟩
  · obtain ⟨q, hq, hle, -⟩ := h
    exact ⟨q, (if_neg hki).trans hq, hle, fun hn => absurd hn (Nat.succ_ne_zero n)⟩

lemma Counted.moved {g : Func} {i : InstId} {p : PlacedInst} (h : Counted depth f₀ n s)
    (hm : Moved s.func g i p pre) (hi : f₀.BodiesPlaced → WouldRise depth pre n s.func i)
    {journal : Journal} : Counted depth f₀ (n + 1) { s with func := g, journal } := by
  refine ⟨fun hn => absurd hn (Nat.succ_ne_zero n), fun hplaced => ?_⟩
  obtain ⟨hbodies, hrises, hstrictly⟩ := h.risen hplaced
  obtain ⟨q, hq, hle, hlt⟩ := hi hplaced
  rw [hm.was] at hq
  cases hq
  -- wherever an instruction was before the move, it is there or less deep afterwards
  have hmove : ∀ k q, s.func.inst? k = some q →
      ∃ q', g.inst? k = some q' ∧ depth q'.block ≤ depth q.block := by
    intro k q hk
    rw [hm.inst]
    by_cases hki : k = i
    · rw [hki, hm.was] at hk
      cases hk
      exact ⟨_, if_pos hki, hle⟩
    · exact ⟨q, (if_neg hki).trans hk, Nat.le_refl _⟩
  refine ⟨hbodies.moved hm, fun k r hr => ?_, fun _ => ?_⟩
  · obtain ⟨q, hq, hqr⟩ := hrises k r hr
    obtain ⟨q', hq', hqq⟩ := hmove k q hq
    exact ⟨q', hq', Nat.le_trans hqq hqr⟩
  · rcases Nat.eq_zero_or_pos n with hn | hn
    · refine ⟨i, p, { p with block := pre }, ?_, by rw [hm.inst, if_pos rfl], hlt hn⟩
      rw [← h.none hn]
      exact hm.was
    · obtain ⟨k, r, q, hr, hq, hqr⟩ := hstrictly hn
      obtain ⟨q', hq', hqq⟩ := hmove k q hq
      exact ⟨k, r, q', hr, hq', Nat.lt_of_le_of_lt hqq hqr⟩

lemma hoistInst_counts {insts : List InstId} {i : InstId} (h : Counted depth f₀ n s)
    (hrise : f₀.BodiesPlaced → ∀ k ∈ insts, WouldRise depth pre n s.func k) (hi : i ∈ insts) :
    (hoistInst l pre b n i).Ends s
      (fun n' s' => (Counted depth f₀ n' s' ∧
        (f₀.BodiesPlaced → ∀ k ∈ insts, WouldRise depth pre n' s'.func k)) ∧
        (n' = 0 → n = 0 ∧ isInvariant f₀ l i = false)) fun _ => True := by
  unfold hoistInst
  refine Work.Ends.get_bind ?_
  dsimp only
  split
  · refine Work.Ends.ofExcept_bind (fun g hmove => ?_) trivial
    obtain ⟨p, hm⟩ := moveInst_ok hmove
    refine Work.Ends.modify_bind (Work.Ends.modify_bind (Work.Ends.of_pure ⟨⟨?_, ?_⟩, ?_⟩))
    · exact h.moved hm fun hplaced => hrise hplaced i hi
    · exact fun hplaced k hk => (hrise hplaced k hk).moved hm
    · exact fun hn => absurd hn (Nat.succ_ne_zero n)
  · rename_i hnot
    refine Work.Ends.of_pure ⟨⟨h, hrise⟩, fun hn => ⟨hn, ?_⟩⟩
    rw [← h.none hn]
    exact Bool.eq_false_iff.2 hnot

/-- Nothing in the block is invariant in the loop. -/
def NothingIn (f : Func) (l : Loop) (b : BlockId) : Prop :=
  ∀ bb, f.block? b = some bb → ∀ i ∈ bb.body, isInvariant f l i = false

lemma hoistBlock_counts (h : Counted depth f₀ n s) (hdepth : depth pre < depth b) :
    (hoistBlock l pre n b).Ends s (fun n' s' => Counted depth f₀ n' s' ∧
      (n' = 0 → n = 0 ∧ NothingIn f₀ l b)) fun _ => True := by
  unfold hoistBlock
  refine Work.Ends.get_bind ?_
  have hrise : f₀.BodiesPlaced → ∀ k ∈ (s.func.block? b).elim [] (·.body),
      WouldRise depth pre n s.func k := by
    intro hplaced k hk
    cases hb : s.func.block? b with
    | none =>
      rw [hb] at hk
      cases hk
    | some bb =>
      rw [hb] at hk
      obtain ⟨p, hp, hpb⟩ := (h.risen hplaced).placed b bb hb k hk
      exact ⟨p, hp, hpb ▸ Nat.le_of_lt hdepth, fun _ => hpb ▸ hdepth⟩
  refine (Work.Ends.foldlM_count (fun n' s' => Counted depth f₀ n' s' ∧ (f₀.BodiesPlaced →
      ∀ k ∈ (s.func.block? b).elim [] (·.body), WouldRise depth pre n' s'.func k))
    (fun i => isInvariant f₀ l i = false)
    (fun i hi n' s' hs' => hoistInst_counts hs'.1 hs'.2 hi) ⟨h, hrise⟩).mono
    (fun n' s' ⟨hs', hidle⟩ => ⟨hs'.1, fun hn => ?_⟩) fun _ h => h
  obtain ⟨hn₀, hall⟩ := hidle hn
  refine ⟨hn₀, fun bb hb i hi => hall i ?_⟩
  rw [← h.none hn₀] at hb
  rw [hb]
  exact hi

/-- Every loop has a preheader, and nothing in a loop is invariant in it. -/
def Settled (f : Func) : Prop :=
  ∀ l ∈ (f.loopForest f.cfg.domTree).loops, l.preheader.isSome = true ∧
    ∀ b ∈ l.body, NothingIn f l b

/-- The pass answers whether it moved anything; if it did, the function is another one. -/
lemma run_counts (hf : s.func.EdgesAgree) (hfresh : s.cache.FreshFor s.func) :
    Hoist.run.Ends s (fun changed s' =>
      (changed = false → s'.func = s.func ∧ Settled s.func) ∧
      (changed = true → s.func.BodiesPlaced → s'.func ≠ s.func)) fun _ => True := by
  obtain ⟨hfam, -, -⟩ := family_loopForest hf
  refine run_ends_of_loops hf.consistent hfresh
    (P := fun changed g _ => (changed = false → g = s.func ∧ Settled s.func) ∧
      (changed = true → s.func.BodiesPlaced → g ≠ s.func)) fun s₁ hfunc _ => ?_
  let depth (b : BlockId) : Nat :=
    (s.func.loopForest s.func.cfg.domTree).loops.countP (·.contains b)
  have hstart : Counted depth s.func 0 s₁ := by
    refine ⟨fun _ => hfunc, fun hplaced => ?_⟩
    rw [hfunc]
    exact ⟨hplaced, fun i p hp => ⟨p, hp, Nat.le_refl _⟩, fun h => absurd h (Nat.lt_irrefl 0)⟩
  refine (Work.Ends.foldlM_count (Counted depth s.func) (fun l => l.preheader.isSome = true ∧
    ∀ b ∈ l.body, NothingIn s.func l b) (fun l hl n s' hs' => ?_) hstart).mono ?_ fun _ h => h
  · rw [mem_innermostFirst] at hl
    have hwhole := hfam.whole l hl
    unfold hoistLoop
    split
    · exact Work.Ends.of_throw trivial
    · rename_i pre hpre
      have hhas : l.HasPreheader s.func pre :=
        Loop.findPreheader_spec (hwhole.preheader.symm.trans hpre)
      refine (Work.Ends.foldlM_count (Counted depth s.func) (NothingIn s.func l)
        (fun b hb n s' hs' => hoistBlock_counts hs' ?_) hs').mono
        (fun n' s' ⟨hs', hidle⟩ => ⟨hs', fun hn => ?_⟩) fun _ h => h
      · exact hfam.depth_preheader hl hhas ((mem_blocksOf_iff hf hwhole).1 hb)
      · obtain ⟨hn₀, hall⟩ := hidle hn
        refine ⟨hn₀, by rw [hpre]; rfl, fun b hb => hall b ((mem_blocksOf_iff hf hwhole).2 hb)⟩
  · rintro n s₂ ⟨hs₂, hidle⟩
    refine ⟨fun hn => ?_, fun hn hplaced he => ?_⟩
    · have hn₀ : n = 0 := by
        have := of_decide_eq_false hn
        omega
      exact ⟨hs₂.none hn₀, fun l hl => (hidle hn₀).2 l (mem_innermostFirst.2 hl)⟩
    · obtain ⟨i, p, q, hp, hq, hlt⟩ := (hs₂.risen hplaced).strictly (of_decide_eq_true hn)
      rw [he, hp] at hq
      cases hq
      exact absurd hlt (Nat.lt_irrefl _)

/-- Where every loop has a preheader and nothing is invariant, the pass moves nothing. -/
lemma run_of_settled (hf : s.func.EdgesAgree) (hfresh : s.cache.FreshFor s.func)
    (h : Settled s.func) :
    Hoist.run.Meets s (fun changed s' => changed = false ∧ s'.func = s.func ∧
      s'.cache.FreshFor s'.func) fun _ => False := by
  obtain ⟨hfam, -, -⟩ := family_loopForest hf
  refine run_meets hf.consistent hfresh
    (P := fun changed g cache => changed = false ∧ g = s.func ∧ cache.FreshFor g)
    fun s₁ hfunc hfresh₁ => ?_
  -- nothing was moved and the session is as it was, after each loop, block and instruction
  refine (Work.Meets.foldlM (fun rest n s' => (n = 0 ∧ s' = s₁) ∧
      ∀ l ∈ rest, l ∈ (s.func.loopForest s.func.cfg.domTree).loops) ?_ _ 0
      ⟨⟨rfl, rfl⟩, fun l hl => mem_innermostFirst.1 hl⟩).mono ?_ fun _ h => h
  · rintro n l rest s' ⟨⟨rfl, rfl⟩, hrest⟩
    have hl := hrest l List.mem_cons_self
    obtain ⟨hpre, hnothing⟩ := h l hl
    have htail : ∀ m ∈ rest, m ∈ (s.func.loopForest s.func.cfg.domTree).loops :=
      fun m hm => hrest m (List.mem_cons_of_mem _ hm)
    unfold hoistLoop
    split
    · rename_i hnone
      rw [hnone] at hpre
      cases hpre
    · rename_i pre _
      refine (Work.Meets.foldlM (fun rest n s'' => (n = 0 ∧ s'' = s') ∧ ∀ b ∈ rest, b ∈ l.body)
        ?_ _ 0 ⟨⟨rfl, rfl⟩, fun b hb => mem_blocksOf (hfam.whole l hl).header_mem hb⟩).mono
        (fun _ _ h => ⟨h.1, htail⟩) fun _ h => h
      rintro n b bs s'' ⟨⟨rfl, rfl⟩, hbs⟩
      unfold hoistBlock
      refine Work.Meets.get_bind ?_
      have hidle : ∀ i ∈ (s''.func.block? b).elim [] (·.body),
          isInvariant s''.func l i = false := by
        intro i hi
        rw [hfunc] at hi ⊢
        cases hb : s.func.block? b with
        | none =>
          rw [hb] at hi
          cases hi
        | some bb =>
          rw [hb] at hi
          exact hnothing b (hbs b List.mem_cons_self) bb hb i hi
      refine (Work.Meets.foldlM (fun rest n s₃ => (n = 0 ∧ s₃ = s'') ∧
        ∀ i ∈ rest, isInvariant s''.func l i = false) ?_ _ 0 ⟨⟨rfl, rfl⟩, hidle⟩).mono
        (fun _ _ h => ⟨h.1, fun c hc => hbs c (List.mem_cons_of_mem _ hc)⟩) fun _ h => h
      rintro n i is s₃ ⟨⟨rfl, rfl⟩, his⟩
      unfold hoistInst
      refine Work.Meets.get_bind ?_
      dsimp only
      rw [his i List.mem_cons_self]
      exact Work.Meets.of_pure ⟨⟨rfl, rfl⟩, fun k hk => his k (List.mem_cons_of_mem _ hk)⟩
  · rintro n s₂ ⟨⟨rfl, rfl⟩, -⟩
    exact ⟨rfl, hfunc, hfunc ▸ hfresh₁⟩

end Hoist

end SsaBackend
