import SsaBackend.Proofs.Hoist.Settled
import SsaBackend.Proofs.Pass.Strictness

/-!
# Hoisting leaves nothing behind

One sweep is enough. When the blocks of a loop are visited along the dominator tree, what was
looked at does not become invariant later: a move changes whether an operand comes from outside
only for those who use the instruction that moved, and these lie below it or come after it
(`Hoist.Sweeping.moved`). A loop that was dealt with before stays as it was: a preheader that is
visited later is not in it, and no block of it has an invariant instruction to give, because what
is invariant in a loop is so in every loop inside of it.

## Main statements

* `Hoist.run_sweeps`: when the pass ends well, nothing in a loop is invariant in it, and only
  the places of instructions have changed.
* `Hoist.hoisting_complete`: the same with invariance spelt out, and with the second run, which
  moves nothing.
-/

namespace SsaBackend

open Func

namespace Hoist

variable {f₀ f g : Func} {l m : Loop} {pre b c : BlockId} {i k : InstId} {p : PlacedInst}
  {depth : BlockId → Nat}

/-! ## What a move changes for others -/

/-- A move changes whether another instruction is invariant in a loop only if it takes an operand
of it into the loop or out of it. -/
lemma isInvariant_moved (hm : Moved f g i p pre) (hk : k ≠ i)
    (huse : ∀ q, f.inst? k = some q → Value.inst i ∈ q.inst.operands →
      (p.block ∈ m.body ↔ pre ∈ m.body)) : isInvariant g m k = isInvariant f m k := by
  unfold isInvariant
  rw [Hoisting.inst_ne hm hk]
  cases hq : f.inst? k with
  | none => rfl
  | some q =>
    have hop : ∀ v ∈ q.inst.operands, fromOutside g m v = fromOutside f m v := by
      intro v hv
      cases v with
      | inst j =>
        show (g.inst? j).any _ = (f.inst? j).any _
        by_cases hj : j = i
        · subst hj
          have hiff := huse q hq hv
          rw [hm.inst, if_pos rfl, hm.was, Option.any_some, Option.any_some]
          unfold Loop.contains
          simp only [List.contains_eq_mem, hiff]
        · rw [Hoisting.inst_ne hm hj]
      | const | arg | undef => rfl
    have hall : q.inst.operands.all (fromOutside g m) = q.inst.operands.all (fromOutside f m) := by
      rw [Bool.eq_iff_iff, List.all_eq_true, List.all_eq_true]
      exact forall₂_congr fun v hv => by rw [hop v hv]
    rw [Option.any_some, Option.any_some, hall]

/-- What is invariant in a loop is so in every loop inside of it. -/
lemma isInvariant_of_subset (hsub : m.body ⊆ l.body) (h : isInvariant f l i = true) :
    isInvariant f m i = true := by
  unfold isInvariant at h ⊢
  cases hp : f.inst? i with
  | none =>
    rw [hp] at h
    cases h
  | some p =>
    rw [hp, Option.any_some, Bool.and_eq_true, List.all_eq_true] at h
    rw [Option.any_some, Bool.and_eq_true, List.all_eq_true]
    refine ⟨h.1, fun v hv => ?_⟩
    have hv := h.2 v hv
    unfold fromOutside Loop.contains at hv ⊢
    cases v with
    | inst j =>
      cases hq : f.inst? j with
      | none => simp [hq] at hv
      | some q =>
        simp only [hq, Option.any_some, Bool.not_eq_true', List.contains_eq_mem,
          decide_eq_false_iff_not] at hv ⊢
        exact fun hmem => hv (hsub hmem)
    | const | arg | undef => rfl

/-- Nothing in the loop is invariant in it. -/
def Quiet (f : Func) (l : Loop) : Prop := ∀ b ∈ l.body, NothingIn f l b

/-- A quiet loop gives up no instruction that is invariant in a loop around it. -/
lemma Quiet.not_mem (h : Quiet f m) (hsub : b ∈ m.body → m.body ⊆ l.body) {bb : Block}
    (hbb : f.block? b = some bb) (hi : i ∈ bb.body) (hinv : isInvariant f l i = true) :
    b ∉ m.body := by
  intro hmem
  have := h b hmem bb hbb i hi
  rw [isInvariant_of_subset (hsub hmem) hinv] at this
  cases this

/-- In a block other than the target, a move leaves no instructions but those that were there. -/
lemma mem_body_of_moved (hsafe : f.Hoisting i p pre) (hm : Moved f g i p pre) {bb' : Block}
    (hbb' : g.block? c = some bb') (hc : c ≠ pre) (hk : k ∈ bb'.body) :
    ∃ bb, f.block? c = some bb ∧ k ∈ bb.body ∧ k ≠ i := by
  obtain ⟨bb, hbb, -, -, hbody⟩ := Hoisting.block_inv hm hbb'
  rw [hbody, if_neg hc, List.append_nil] at hk
  refine ⟨bb, hbb, ?_, fun he => hsafe.not_mem_rest hbb (he ▸ hk)⟩
  split at hk
  · exact (List.mem_filter.1 hk).1
  · exact hk

/-- If nothing in a block was invariant in a loop, and no operand of an instruction of the block
goes into the loop or out of it, nothing in the block is afterwards. -/
lemma NothingIn.moved (h : NothingIn f m c) (hsafe : f.Hoisting i p pre)
    (hm : Moved f g i p pre) (hc : c ≠ pre)
    (huse : ∀ cc, f.block? c = some cc → ∀ k ∈ cc.body, ∀ q, f.inst? k = some q →
      Value.inst i ∈ q.inst.operands → (p.block ∈ m.body ↔ pre ∈ m.body)) : NothingIn g m c := by
  intro bb' hbb' k hk
  obtain ⟨bb, hbb, hmem, hki⟩ := mem_body_of_moved hsafe hm hbb' hc hk
  rw [isInvariant_moved hm hki (huse bb hbb k hmem)]
  exact h bb hbb k hmem

/-- A move from outside a loop to a place outside of it leaves the loop quiet. -/
lemma Quiet.moved (h : Quiet f m) (hsafe : f.Hoisting i p pre) (hm : Moved f g i p pre)
    (hpre : pre ∉ m.body) (hb : p.block ∉ m.body) : Quiet g m := by
  intro c hc
  refine (h c hc).moved hsafe hm (fun he => hpre (he ▸ hc)) fun _ _ _ _ _ _ _ => ?_
  exact iff_of_false hb hpre

/-! ## Who uses the instruction that moves -/

/-- No block uses the instruction but its own and those below it. -/
lemma not_operand_aside (hsafe : f.Hoisting i p pre) (hc : c ≠ p.block)
    (hdom : ¬ f.Dom p.block c) {cc : Block} (hcc : f.block? c = some cc) (hk : k ∈ cc.body)
    {q : PlacedInst} (hq : f.inst? k = some q) : Value.inst i ∉ q.inst.operands := by
  intro hop
  obtain ⟨before, after, hsplit⟩ := List.append_of_mem hk
  rcases hsafe.strict.inBody c cc hcc before k after hsplit q hq i hop with
    hmem | ⟨d, -, hd, hlist⟩
  · exact hc (hsafe.block_eq (lists_before hcc hsplit hmem))
  · exact hdom (hsafe.block_eq hlist ▸ hd)

/-- No instruction before it in its block uses it. -/
lemma not_operand_before (hsafe : f.Hoisting i p pre) {bb : Block}
    (hbb : f.block? p.block = some bb) {kept rest : List InstId}
    (hbody : bb.body = kept ++ i :: rest) (hk : k ∈ kept) {q : PlacedInst}
    (hq : f.inst? k = some q) : Value.inst i ∉ q.inst.operands := by
  intro hop
  have hnodup := hsafe.strict.once _ bb hbb
  obtain ⟨u, v, rfl⟩ := List.append_of_mem hk
  rw [hbody, List.append_assoc, List.cons_append] at hnodup
  rw [List.append_assoc, List.cons_append] at hbody
  rcases hsafe.strict.inBody _ bb hbb u k _ hbody q hq i hop with hmem | ⟨d, hne, -, hlist⟩
  · rcases List.mem_append.1 hmem with hmem | hmem
    · exact hsafe.not_phi hbb hmem
    · refine (List.nodup_append.1 hnodup).2.2 i hmem i ?_ rfl
      simp
  · exact hne (hsafe.block_eq hlist)

/-! ## What moves leave as it is -/

/-- Only the places of instructions have changed, and in a block those that stayed come first and
in the order they had. -/
structure Rearranged (f g : Func) : Prop where
  insts : ∀ i, (g.inst? i).map (·.inst) = (f.inst? i).map (·.inst)
  frames : ∀ b, (g.block? b).map (fun bb => (bb.phis, bb.preds, bb.terminator)) =
    (f.block? b).map (fun bb => (bb.phis, bb.preds, bb.terminator))
  edges : ∀ b, g.succs b = f.succs b ∧ g.preds b = f.preds b
  order : ∀ b bb bb', f.block? b = some bb → g.block? b = some bb' →
    ∃ stayed arrived, bb'.body = stayed ++ arrived ∧ stayed.Sublist bb.body ∧
      ∀ k ∈ arrived, k ∉ bb.body

/-- The function came from `f₀` by moves that each took an instruction less deep. -/
structure Raised (depth : BlockId → Nat) (f₀ f : Func) : Prop where
  insts : ∀ i, (f.inst? i).map (·.inst) = (f₀.inst? i).map (·.inst)
  frames : ∀ b, (f.block? b).map (fun bb => (bb.phis, bb.preds, bb.terminator)) =
    (f₀.block? b).map (fun bb => (bb.phis, bb.preds, bb.terminator))
  rises : ∀ i q, f.inst? i = some q → ∃ p, f₀.inst? i = some p ∧ depth q.block ≤ depth p.block
  order : ∀ b bb bb', f₀.block? b = some bb → f.block? b = some bb' →
    ∃ stayed arrived, bb'.body = stayed ++ arrived ∧ stayed.Sublist bb.body ∧
      ∀ k ∈ arrived, ∃ p, f₀.inst? k = some p ∧ depth b < depth p.block

lemma Raised.refl (depth : BlockId → Nat) (f : Func) : Raised depth f f := by
  refine ⟨fun _ => rfl, fun _ => rfl, fun _ q hq => ⟨q, hq, Nat.le_refl _⟩, ?_⟩
  intro b bb bb' hbb hbb'
  rw [hbb] at hbb'
  cases hbb'
  exact ⟨bb.body, [], (List.append_nil _).symm, .refl _, fun k hk => absurd hk List.not_mem_nil⟩

lemma Raised.moved (h : Raised depth f₀ f) (hm : Moved f g i p pre)
    (hdepth : depth pre < depth p.block) : Raised depth f₀ g := by
  obtain ⟨p₀, hp₀, hle⟩ := h.rises i p hm.was
  refine ⟨fun j => ?_, fun c => ?_, fun j q hq => ?_, fun c bb₀ bb' hbb₀ hbb' => ?_⟩
  · rw [← h.insts j, hm.inst]
    split
    · rename_i hj
      rw [hj, hm.was]
      rfl
    · rfl
  · rw [← h.frames c, hm.block, Option.map_map]
    rfl
  · rw [hm.inst] at hq
    split at hq
    · rename_i hj
      cases hq
      exact ⟨p₀, hj ▸ hp₀, Nat.le_of_lt (Nat.lt_of_lt_of_le hdepth hle)⟩
    · exact h.rises j q hq
  · obtain ⟨bb, hbb, -, -, hbody⟩ := Hoisting.block_inv hm hbb'
    obtain ⟨stayed, arrived, hsplit, hsub, harrived⟩ := h.order c bb₀ bb hbb₀ hbb
    -- the block that is left loses the instruction, the preheader gets it at its end
    let left (l : List InstId) : List InstId := if c = p.block then l.filter (· ≠ i) else l
    have hleft : ∀ l, (left l).Sublist l := by
      intro l
      show (if c = p.block then l.filter (· ≠ i) else l).Sublist l
      split
      · exact List.filter_sublist
      · exact .refl _
    refine ⟨left stayed, left arrived ++ (if c = pre then [i] else []), ?_,
      (hleft stayed).trans hsub, fun k hk => ?_⟩
    · rw [hbody, hsplit, ← List.append_assoc]
      congr 1
      show (if c = p.block then (stayed ++ arrived).filter (· ≠ i) else stayed ++ arrived) =
        (if c = p.block then stayed.filter (· ≠ i) else stayed) ++
          (if c = p.block then arrived.filter (· ≠ i) else arrived)
      split
      · exact List.filter_append ..
      · rfl
    · rcases List.mem_append.1 hk with hk | hk
      · exact harrived k ((hleft arrived).subset hk)
      · split at hk
        · rename_i hc
          rw [List.mem_singleton.1 hk, hc]
          exact ⟨p₀, hp₀, Nat.lt_of_lt_of_le hdepth hle⟩
        · cases hk

/-- An instruction that rose is not back in its block. -/
lemma Raised.rearranged (h : Raised depth f₀ f) (hplaced : f₀.BodiesPlaced)
    (hshape : SameShape f₀ f) : Rearranged f₀ f := by
  refine ⟨h.insts, h.frames, fun b => ⟨hshape.succs b, hshape.preds b⟩, ?_⟩
  intro b bb bb' hbb hbb'
  obtain ⟨stayed, arrived, hsplit, hsub, harrived⟩ := h.order b bb bb' hbb hbb'
  refine ⟨stayed, arrived, hsplit, hsub, fun k hk hmem => ?_⟩
  obtain ⟨p, hp, hlt⟩ := harrived k hk
  obtain ⟨q, hq, hqb⟩ := hplaced b bb hbb k hmem
  rw [hp] at hq
  cases hq
  rw [hqb] at hlt
  exact absurd hlt (Nat.lt_irrefl _)

/-! ## One loop after another -/

/-- Hoisting from `f₀` has dealt with the loops `done`, and in the loop `l` with the blocks
`visited`. -/
structure Sweeping (depth : BlockId → Nat) (f₀ : Func) (done : List Loop) (l : Loop)
    (visited : List BlockId) (f : Func) : Prop where
  hoisted : Hoisted f₀ f
  shape : SameShape f₀ f
  raised : Raised depth f₀ f
  done : ∀ m ∈ done, Quiet f m
  visited : ∀ c ∈ visited, NothingIn f l c

/-- The preheader `pre` of `l` is in none of the loops `done`, and one of these that has a block
of `l` is inside `l`. It lies less deep than the blocks of the loop. -/
structure Ahead (depth : BlockId → Nat) (done : List Loop) (l : Loop) (pre : BlockId) : Prop where
  outside : ∀ m ∈ done, pre ∉ m.body
  around : ∀ m ∈ done, ∀ b ∈ l.body, b ∈ m.body → m.body ⊆ l.body
  deep : ∀ b ∈ l.body, depth pre < depth b

variable {done : List Loop} {visited : List BlockId}

/-- A move out of a block keeps what was done, if no visited block lies below. -/
lemma Sweeping.moved (h : Sweeping depth f₀ done l visited f) (hahead : Ahead depth done l pre)
    (ha : Around f₀ l pre) (hb : p.block ∈ l.body) (hvisited : ∀ c ∈ visited,
      c ∈ l.body ∧ c ≠ p.block ∧ ¬ f₀.Dom p.block c)
    (hsafe : f.Hoisting i p pre) (hm : Moved f g i p pre) (hinv : isInvariant f l i = true) :
    Sweeping depth f₀ done l visited g := by
  obtain ⟨bb, hbb, hi⟩ := hsafe.listed
  refine ⟨h.hoisted.moved hsafe hm, h.shape.trans (Hoisting.sameShape hm),
    h.raised.moved hm (hahead.deep _ hb), fun m hmem => ?_, fun c hc => ?_⟩
  · have hquiet := h.done m hmem
    exact hquiet.moved hsafe hm (hahead.outside m hmem)
      (hquiet.not_mem (hahead.around m hmem _ hb) hbb hi hinv)
  · obtain ⟨hcl, hne, hdom⟩ := hvisited c hc
    have hcpre : c ≠ pre := fun he => (Loop.Natural.preheader_pred ha.preheader).2 (he ▸ hcl)
    refine (h.visited c hc).moved hsafe hm hcpre fun cc hcc k hk q hq hop => ?_
    refine absurd hop (not_operand_aside hsafe hne (fun hd => hdom ?_) hcc hk hq)
    unfold Func.Dom at hd ⊢
    rwa [h.hoisted.cfg] at hd

variable {s : Session} {n : Nat}

lemma hoistInst_sweeps {kept rest : List InstId} {bb : Block}
    (h : Sweeping depth f₀ done l visited s.func) (hahead : Ahead depth done l pre)
    (ha : Around f₀ l pre) (hb : b ∈ l.body)
    (hvisited : ∀ c ∈ visited, c ∈ l.body ∧ c ≠ b ∧ ¬ f₀.Dom b c)
    (hbb : s.func.block? b = some bb) (hbody : bb.body = kept ++ i :: rest)
    (hkept : ∀ k ∈ kept, isInvariant s.func l k = false) :
    (hoistInst l pre b n i).Ends s (fun _ s' => Sweeping depth f₀ done l visited s'.func ∧
      ∃ bb' kept', s'.func.block? b = some bb' ∧ bb'.body = kept' ++ rest ∧
        ∀ k ∈ kept', isInvariant s'.func l k = false) fun _ => True := by
  have hi : i ∈ bb.body := by
    rw [hbody]
    simp
  unfold hoistInst
  refine Work.Ends.get_bind ?_
  dsimp only
  split
  · rename_i hinv
    obtain ⟨p, rfl, hsafe⟩ := hoisting_of_invariant h.hoisted ha hb hbb hi hinv
    refine Work.Ends.ofExcept_bind (fun g hmove => ?_) trivial
    obtain ⟨q, hm⟩ := moveInst_ok hmove
    have hpq := hm.was
    rw [hsafe.inst] at hpq
    cases hpq
    -- the block has lost the instruction, and what comes before it does not use it
    have hnodup := hsafe.strict.once _ bb hbb
    rw [hbody] at hnodup
    obtain ⟨hout, -⟩ := List.nodup_cons.1 (List.nodup_middle.1 hnodup)
    obtain ⟨hkeptOut, hrestOut⟩ := not_or.1 (fun hor => hout (List.mem_append.2 hor))
    have hblock := hm.block p.block
    rw [hbb, Option.map_some, if_pos rfl, if_neg (Ne.symm hsafe.apart), List.append_nil, hbody,
      List.filter_append, List.filter_cons_of_neg (by simp)] at hblock
    refine Work.Ends.modify_bind (Work.Ends.modify_bind (Work.Ends.of_pure
      ⟨h.moved hahead ha hb hvisited hsafe hm hinv, _, kept, hblock, ?_, fun k hk => ?_⟩))
    · rw [List.filter_eq_self.2, List.filter_eq_self.2]
      · exact fun k hk => by simpa using ne_of_mem_of_not_mem hk hrestOut
      · exact fun k hk => by simpa using ne_of_mem_of_not_mem hk hkeptOut
    · show isInvariant g l k = false
      rw [isInvariant_moved hm (fun he => hkeptOut (he ▸ hk)) fun q hq hop =>
        absurd hop (not_operand_before hsafe hbb hbody hk hq)]
      exact hkept k hk
  · rename_i hinv
    refine Work.Ends.of_pure ⟨h, bb, kept ++ [i], hbb, ?_, fun k hk => ?_⟩
    · rw [hbody, List.append_assoc]
      rfl
    · rcases List.mem_append.1 hk with hk | hk
      · exact hkept k hk
      · rw [List.mem_singleton.1 hk]
        exact Bool.eq_false_iff.2 hinv

lemma hoistBlock_sweeps (h : Sweeping depth f₀ done l visited s.func)
    (hahead : Ahead depth done l pre) (ha : Around f₀ l pre) (hb : b ∈ l.body)
    (hvisited : ∀ c ∈ visited, c ∈ l.body ∧ c ≠ b ∧ ¬ f₀.Dom b c) :
    (hoistBlock l pre n b).Ends s
      (fun _ s' => Sweeping depth f₀ done l (visited ++ [b]) s'.func) fun _ => True := by
  have hgrow : ∀ g, Sweeping depth f₀ done l visited g → NothingIn g l b →
      Sweeping depth f₀ done l (visited ++ [b]) g := by
    refine fun g hg hnothing => { hg with visited := fun c hc => ?_ }
    rcases List.mem_append.1 hc with hc | hc
    · exact hg.visited c hc
    · rw [List.mem_singleton.1 hc]
      exact hnothing
  unfold hoistBlock
  refine Work.Ends.get_bind ?_
  cases hbb : s.func.block? b with
  | none =>
    refine Work.Ends.of_pure (hgrow _ h fun bb hb => ?_)
    rw [hbb] at hb
    cases hb
  | some bb =>
    dsimp only [Option.elim_some]
    refine (Work.Ends.foldlM (fun rest _ s' => Sweeping depth f₀ done l visited s'.func ∧
      ∃ bb' kept, s'.func.block? b = some bb' ∧ bb'.body = kept ++ rest ∧
        ∀ k ∈ kept, isInvariant s'.func l k = false) ?_ bb.body n
      ⟨h, bb, [], hbb, rfl, fun k hk => absurd hk List.not_mem_nil⟩).mono ?_ fun _ h => h
    · rintro _ i rest s' ⟨hs', bb', kept, hbb', hbody, hkept⟩
      exact hoistInst_sweeps hs' hahead ha hb hvisited hbb' hbody hkept
    · rintro _ s' ⟨hs', bb', kept, hbb', hbody, hkept⟩
      refine hgrow _ hs' fun bb₁ hbb₁ k hk => ?_
      rw [hbb'] at hbb₁
      cases hbb₁
      rw [hbody, List.append_nil] at hk
      exact hkept k hk

/-- Down the dominator tree, a block is visited before those it dominates. -/
lemma visited_before {l : Loop} (hf : f.EdgesAgree) (hl : l.Whole f) {later : List BlockId}
    (h : blocksOf f.cfg.domTree l = visited ++ b :: later) :
    ∀ c ∈ visited, c ∈ l.body ∧ c ≠ b ∧ ¬ f.Dom b c := by
  intro c hc
  have hmem : ∀ d ∈ visited ++ b :: later, d ∈ l.body := by
    intro d hd
    rw [← h] at hd
    exact (mem_blocksOf_iff hf hl).1 hd
  have hnodup : (visited ++ b :: later).Nodup := by
    rw [← h]
    refine (DomTree.preorderFrom_descends hf.consistent _ _).1.map fun x y he => ?_
    exact congrArg BlockId.index he
  have hout : b ∉ visited := by
    intro hbv
    exact (List.nodup_append.1 hnodup).2.2 b hbv b List.mem_cons_self rfl
  refine ⟨hmem c (List.mem_append_left _ hc), fun he => hout (he ▸ hc), fun hdom => ?_⟩
  obtain ⟨u, v, rfl⟩ := List.append_of_mem hc
  -- in the walk over indices `b` would have come before `c`
  have hindex : ∀ is : List Nat, (is.map BlockId.mk).map (·.index) = is := by
    intro is
    rw [List.map_map]
    exact List.map_id' is
  have hwalk := congrArg (List.map (·.index)) h
  unfold blocksOf at hwalk
  rw [hindex, List.append_assoc, List.map_append, List.cons_append, List.map_cons] at hwalk
  have hearlier := DomTree.mem_earlier_of_dom hf.consistent hwalk
    (hl.above (hmem b (List.mem_append_right _ List.mem_cons_self))) hdom
    fun he => hout (BlockId.index_inj.1 he ▸ hc)
  obtain ⟨d, hd, he⟩ := List.mem_map.1 hearlier
  exact hout (BlockId.index_inj.1 he ▸ List.mem_append_left _ hd)

/-- The preheader of a loop lies ahead of the loops that are not less deep. -/
lemma ahead_of_family {loops : List Loop} (hfam : Loop.Family f₀ loops)
    (haround : ∀ l ∈ loops, l.depth = Loop.Family.around loops l) (hl : l ∈ loops)
    (hpre : l.HasPreheader f₀ pre)
    (hdone : ∀ m ∈ done, m ∈ loops ∧ m ≠ l ∧ l.depth ≤ m.depth) :
    Ahead (fun b => loops.countP (·.contains b)) done l pre := by
  -- a loop that was dealt with is not around this one
  have hnot : ∀ m ∈ done, ¬ l.Inside m := by
    intro m hmem hin
    obtain ⟨hm, -, hle⟩ := hdone m hmem
    have := hfam.around_lt hm hin
    rw [haround l hl, haround m hm] at hle
    omega
  have hself : pre ≠ l.header := by
    intro he
    exact (Loop.Natural.preheader_pred hpre).2 (he ▸ (hfam.whole l hl).header_mem)
  refine ⟨fun m hmem hin => ?_, fun m hmem b hbl hbm => ?_,
    fun b hb => hfam.depth_preheader hl hpre hb⟩
  · obtain ⟨hm, hne, -⟩ := hdone m hmem
    have hheaders : m.header ≠ l.header := fun he => hne (hfam.eq_of_header hm hl he)
    have hheader := (hfam.whole m hm).header_mem_of_preheader hpre.2 hin hheaders hself
    exact hnot m hmem
      ((hfam.whole l hl).inside_of_header_mem (hfam.whole m hm) (Ne.symm hheaders) hheader)
  · obtain ⟨hm, hne, -⟩ := hdone m hmem
    rcases hfam.nested hm hl hbm hbl with he | hin | hin
    · exact absurd he hne
    · exact hin.1
    · exact absurd hin (hnot m hmem)

lemma hoistLoop_sweeps {l₀ : Loop} (hf : f₀.EdgesAgree) (hl : l.Whole f₀)
    (h : Sweeping depth f₀ done l₀ [] s.func)
    (hpre : ∀ pre, l.preheader = some pre → Around f₀ l pre ∧ Ahead depth done l pre) :
    (hoistLoop f₀.cfg.domTree n l).Ends s (fun _ s' => l.preheader.isSome = true ∧
      Sweeping depth f₀ (done ++ [l]) l [] s'.func) fun _ => True := by
  unfold hoistLoop
  split
  · exact Work.Ends.of_throw trivial
  · rename_i pre hsome
    obtain ⟨ha, hahead⟩ := hpre pre hsome
    have hstart : Sweeping depth f₀ done l [] s.func :=
      { h with visited := fun c hc => absurd hc List.not_mem_nil }
    refine (Work.Ends.foldlM (fun bs _ s' => ∃ visited,
      blocksOf f₀.cfg.domTree l = visited ++ bs ∧ Sweeping depth f₀ done l visited s'.func) ?_
      (blocksOf f₀.cfg.domTree l) n ⟨[], (List.nil_append _).symm, hstart⟩).mono ?_ fun _ h => h
    · rintro n b bs s' ⟨visited, hblocks, hs'⟩
      have hb : b ∈ l.body := by
        refine (mem_blocksOf_iff hf hl).1 ?_
        rw [hblocks]
        exact List.mem_append_right _ List.mem_cons_self
      refine (hoistBlock_sweeps hs' hahead ha hb (visited_before hf hl hblocks)).mono
        (fun _ s₂ hs₂ => ⟨visited ++ [b], ?_, hs₂⟩) fun _ h => h
      rw [hblocks, List.append_assoc]
      rfl
    · rintro _ s' ⟨visited, hblocks, hs'⟩
      rw [List.append_nil] at hblocks
      refine ⟨by rw [hsome]; rfl, { hs' with done := fun m hm => ?_, visited := ?_ }⟩
      · rcases List.mem_append.1 hm with hm | hm
        · exact hs'.done m hm
        · rw [List.mem_singleton.1 hm]
          intro c hc
          exact hs'.visited c (hblocks ▸ (mem_blocksOf_iff hf hl).2 hc)
      · exact fun c hc => absurd hc List.not_mem_nil

/-- The pass leaves every loop with a preheader and without an instruction that is invariant in
it, and changes the places of instructions only. -/
theorem run_sweeps (hc : s.func.Clean) (hfresh : s.cache.FreshFor s.func) :
    Hoist.run.Ends s (fun _ s' => Settled s'.func ∧ Rearranged s.func s'.func) fun _ => True := by
  have hv := hc.verified
  have hf := hv.edgesAgree
  obtain ⟨hfam, -, haround⟩ := family_loopForest hf
  refine run_ends_of_loops hf.consistent hfresh
    (P := fun _ g _ => Settled g ∧ Rearranged s.func g) fun s₁ hfunc _ => ?_
  let depth (b : BlockId) : Nat :=
    (s.func.loopForest s.func.cfg.domTree).loops.countP (·.contains b)
  have horder := pairwise_innermostFirst (s.func.loopForest s.func.cfg.domTree)
  have honce := (perm_innermostFirst (s.func.loopForest s.func.cfg.domTree)).nodup_iff.2 hfam.nodup
  have hstart : Sweeping depth s.func [] (Loop.ofHeader ⟨0⟩) [] s₁.func := by
    rw [hfunc]
    exact ⟨⟨hc.strict, rfl, hc.reached, SameMeaning.refl _⟩, .refl _, .refl _ _,
      fun m hm => absurd hm List.not_mem_nil, fun c hc => absurd hc List.not_mem_nil⟩
  refine (Work.Ends.foldlM (fun rest _ s' => ∃ done,
    (s.func.loopForest s.func.cfg.domTree).innermostFirst = done ++ rest ∧
    (∀ m ∈ done, m.preheader.isSome = true) ∧
    ∃ l, Sweeping depth s.func done l [] s'.func) ?_
    (s.func.loopForest s.func.cfg.domTree).innermostFirst 0
    ⟨[], (List.nil_append _).symm, fun m hm => absurd hm List.not_mem_nil, _, hstart⟩).mono ?_
    fun _ h => h
  · rintro n l rest s₂ ⟨done, hsplit, hpres, l₀, hs₂⟩
    have hmem : l ∈ (s.func.loopForest s.func.cfg.domTree).innermostFirst := by
      rw [hsplit]
      exact List.mem_append_right _ List.mem_cons_self
    have hl := mem_innermostFirst.1 hmem
    obtain ⟨hnat, hhas⟩ := natural_of_mem_innermostFirst hv hc.reached hmem
    rw [hsplit] at horder honce
    -- what comes before in the order is not less deep, and another loop
    have hdone : ∀ m ∈ done, m ∈ (s.func.loopForest s.func.cfg.domTree).loops ∧ m ≠ l ∧
        l.depth ≤ m.depth := by
      intro m hm
      refine ⟨mem_innermostFirst.1 (hsplit ▸ List.mem_append_left _ hm), ?_,
        (List.pairwise_append.1 horder).2.2 m hm l List.mem_cons_self⟩
      exact (List.nodup_append.1 honce).2.2 m hm l List.mem_cons_self
    refine (hoistLoop_sweeps hf (hfam.whole l hl) hs₂ fun pre hpre => ?_).mono
      (fun _ s₃ ⟨hpre, hs₃⟩ => ⟨done ++ [l], ?_, fun m hm => ?_, l, hs₃⟩) fun _ h => h
    · exact ⟨⟨hv, hc.framed.source, hnat, hhas pre hpre⟩,
        ahead_of_family hfam haround hl (hhas pre hpre) hdone⟩
    · rw [hsplit, List.append_assoc]
      rfl
    · rcases List.mem_append.1 hm with hm | hm
      · exact hpres m hm
      · rw [List.mem_singleton.1 hm]
        exact hpre
  · rintro n s₂ ⟨done, hall, hpres, l, hs₂⟩
    rw [List.append_nil] at hall
    refine ⟨fun m hm => ?_, hs₂.raised.rearranged ?_ hs₂.shape⟩
    · rw [hs₂.hoisted.cfg, hs₂.shape.loopForest] at hm
      have hmem : m ∈ done := hall ▸ mem_innermostFirst.2 hm
      exact ⟨hpres m hmem, hs₂.done m hmem⟩
    · intro b bb hbb i hi
      obtain ⟨p, hp, hpb, -⟩ := hc.strict.body b bb hbb i hi
      exact ⟨p, hp, hpb⟩

/-- In strict form an instruction that may be hoisted and is not invariant in a loop has an operand
that is computed in the loop. -/
lemma exists_operand_of_not_invariant (hf : f.Strict) {bb : Block} (hbb : f.block? b = some bb)
    (hi : i ∈ bb.body) (hp : f.inst? i = some p) (hh : p.inst.isHoistable = true)
    (hs : p.inst.isSpeculatable = true) (hinv : isInvariant f l i = false) :
    ∃ d ∈ l.body, ∃ j, Value.inst j ∈ p.inst.operands ∧ f.Lists d j := by
  unfold isInvariant at hinv
  rw [hp, Option.any_some, hh, hs, Bool.and_self, Bool.true_and, List.all_eq_false] at hinv
  obtain ⟨v, hv, hout⟩ := hinv
  cases v with
  | inst j =>
    obtain ⟨before, after, hsplit⟩ := List.append_of_mem hi
    obtain ⟨d, hlist⟩ : ∃ d, f.Lists d j := by
      rcases hf.inBody b bb hbb before i after hsplit p hp j hv with hmem | ⟨d, -, -, hlist⟩
      · exact ⟨b, lists_before hbb hsplit hmem⟩
      · exact ⟨d, hlist⟩
    obtain ⟨q, hq, rfl⟩ := hf.block_of_lists hlist
    refine ⟨q.block, ?_, j, hv, hlist⟩
    unfold fromOutside Loop.contains at hout
    simpa [hq] using hout
  | const | arg | undef => exact absurd rfl hout

/-- Hoisting is complete and idempotent. If it ends well on a function that passes the checks, all
of whose blocks are reached, whose entry has no predecessors and in which every use is dominated
by its definition, then what is left in a loop may not be hoisted, may not be speculated or uses
something computed in the loop; hoisting again moves nothing; and only the places of instructions
have changed. -/
theorem hoisting_complete {s s' : Session} {changed : Bool}
    (hverify : s.func.verify = .ok ())
    (hreached : ∀ b bb, s.func.block? b = some bb → s.func.Reached b)
    (hentry : s.func.preds s.func.entry = []) (huses : s.func.UsesDominated)
    (hcache : s.cache.FreshFor s.func) (hrun : Hoist.run.run s = .ok changed s') :
    (∃ dom, s'.func.dominators = .ok dom ∧ ∀ l ∈ (s'.func.loopForest dom).loops, ∀ b ∈ l.body,
      ∀ bb, s'.func.block? b = some bb → ∀ i ∈ bb.insts, ∃ p, s'.func.inst? i = some p ∧
        (p.inst.isHoistable = false ∨ p.inst.isSpeculatable = false ∨
          ∃ d ∈ l.body, ∃ j, Value.inst j ∈ p.inst.operands ∧ s'.func.Lists d j)) ∧
    (s'.cache.FreshFor s'.func ∧ ∀ t : Session, t.func = s'.func → t.cache.FreshFor t.func →
      ∃ t', Hoist.run.run t = .ok false t' ∧ t'.func = s'.func) ∧
    Rearranged s.func s'.func := by
  obtain ⟨hframed, htight, hknown⟩ := framed_of_verify hverify hentry
  have huses' := ((verified_of_verify hverify).strict huses).whereReached
  have hc : s.func.Clean := ⟨hframed, htight, hreached, huses', hknown.args⟩
  obtain ⟨hclean, -, hfresh⟩ := (run_hoists (E := fun _ => True) hc hcache fun _ _ _ => trivial).ok
    hrun
  obtain ⟨hset, hsame⟩ := (run_sweeps hc hcache).ok hrun
  refine ⟨⟨_, hclean.consistent.dominators_eq, fun l hl b hb bb hbb i hi => ?_⟩,
    ⟨hfresh, fun t ht hft => ?_⟩, hsame⟩
  · rcases List.mem_append.1 hi with hi | hi
    · obtain ⟨node, hnode⟩ := hclean.strict.phis b bb hbb i hi
      exact ⟨_, hnode, .inl rfl⟩
    · obtain ⟨p, hp, -, -⟩ := hclean.strict.body b bb hbb i hi
      refine ⟨p, hp, ?_⟩
      cases hh : p.inst.isHoistable with
      | false => exact .inl rfl
      | true =>
        cases hs : p.inst.isSpeculatable with
        | false => exact .inr (.inl rfl)
        | true =>
          have hinv := (hset l hl).2 b hb bb hbb i hi
          exact .inr (.inr (exists_operand_of_not_invariant hclean.strict hbb hi hp hh hs hinv))
  · obtain ⟨_, t', hrun', rfl, hfunc, -⟩ :=
      (run_of_settled (ht ▸ hclean.verified.edgesAgree) hft (ht ▸ hset)).exists_ok
    exact ⟨t', hrun', hfunc.trans ht⟩

/-- A loop inside another, which steps by a product that neither of them changes. -/
def nest : Func where
  name := "nest"
  numArgs := 2
  blocks := #[
    some { terminator := some (.jump ⟨1⟩) },
    some { phis := [⟨0⟩], body := [⟨1⟩], preds := [⟨0⟩, ⟨5⟩],
           terminator := some (.branch (.inst ⟨1⟩) ⟨2⟩ ⟨6⟩) },
    some { preds := [⟨1⟩], terminator := some (.jump ⟨3⟩) },
    some { phis := [⟨2⟩], body := [⟨3⟩], preds := [⟨2⟩, ⟨4⟩],
           terminator := some (.branch (.inst ⟨3⟩) ⟨4⟩ ⟨5⟩) },
    some { body := [⟨4⟩, ⟨5⟩], preds := [⟨3⟩], terminator := some (.jump ⟨3⟩) },
    some { body := [⟨6⟩], preds := [⟨3⟩], terminator := some (.jump ⟨1⟩) },
    some { preds := [⟨1⟩], terminator := some (.ret (some (.inst ⟨0⟩))) }]
  insts := #[
    some ⟨.phi ⟨[⟨⟨0⟩, .int 0⟩, ⟨⟨5⟩, .inst ⟨6⟩⟩]⟩, ⟨1⟩⟩,
    some ⟨.compare .slt (.inst ⟨0⟩) (.int 10), ⟨1⟩⟩,
    some ⟨.phi ⟨[⟨⟨2⟩, .int 0⟩, ⟨⟨4⟩, .inst ⟨5⟩⟩]⟩, ⟨3⟩⟩,
    some ⟨.compare .slt (.inst ⟨2⟩) (.int 10), ⟨3⟩⟩,
    some ⟨.binary .mul (.arg 0) (.arg 1), ⟨4⟩⟩,
    some ⟨.binary .add (.inst ⟨2⟩) (.inst ⟨4⟩), ⟨4⟩⟩,
    some ⟨.binary .add (.inst ⟨0⟩) (.int 1), ⟨5⟩⟩]

/-- The product leaves both loops in one run, and a second run moves nothing. -/
theorem hoisting_nest : ∃ s', Hoist.run.run ⟨nest, .empty, #[]⟩ = .ok true s' ∧
    ((s'.func.block? ⟨0⟩).map (·.body) = some [⟨4⟩] ∧ Rearranged nest s'.func) ∧
    ∃ t', Hoist.run.run ⟨s'.func, .empty, #[]⟩ = .ok false t' ∧ t'.func = s'.func := by
  have hverify : nest.verify = .ok () := by decide +kernel
  have hg := (verified_of_verify hverify).consistent
  have hreached : nest.AllReached := allReached_of_check hg (by decide +kernel)
  have huses : nest.UsesDominated :=
    (dominated_of_check hg (by decide +kernel)).usesDominated hreached
  have hchanged : Hoist.run.result ⟨nest, .empty, #[]⟩ = .ok true := by decide +kernel
  have hbody : ((Hoist.run.state ⟨nest, .empty, #[]⟩).func.block? ⟨0⟩).map (·.body) =
      some [⟨4⟩] := by decide +kernel
  obtain ⟨s', hrun⟩ := Work.result_ok.1 hchanged
  rw [Work.state_of_ok hrun] at hbody
  obtain ⟨-, ⟨-, hagain⟩, hsame⟩ := hoisting_complete (s := ⟨nest, .empty, #[]⟩) hverify hreached
    (by decide) huses (Cache.FreshFor.empty _) hrun
  exact ⟨s', hrun, ⟨hbody, hsame⟩, hagain ⟨s'.func, .empty, #[]⟩ rfl (Cache.FreshFor.empty _)⟩

end Hoist

end SsaBackend
