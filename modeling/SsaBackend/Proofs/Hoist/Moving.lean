import SsaBackend.Proofs.Func.Edit
import SsaBackend.Proofs.Func.Strict

/-!
# Moving one instruction up

`Hoisting f i p pre` lists what makes it safe to move the instruction `i` to the end of the
block `pre`: it computes a value from its operands and nothing else, `pre` lies above its block,
and its operands are there at the end of `pre`. The moved function is in strict form again
(`Hoisting.strict_moved`): what was available at a place still is.
-/

namespace SsaBackend

/-! ## Instructions that only compute -/

/-- What an instruction computes if it does nothing else. -/
def Inst.value (w : World) (env : Env) (inst : Inst) : Int64 :=
  ((inst.exec w env []).map (·.1)).getD w.undef

/-- The value depends on the operands only. -/
lemma Inst.value_congr {w : World} {env env' : Env} {inst : Inst}
    (h : ∀ v ∈ inst.operands, v.eval w env = v.eval w env') :
    inst.value w env = inst.value w env' := by
  unfold value
  rw [exec_congr h]

/-- A division by a safe divisor has a result. -/
lemma World.binary_of_safe {w : World} {op : BinaryOp} {a : Int64} {v : Value} {env : Env}
    (h : Inst.safeDivisor op v = true) : ∃ r, w.binary op a (v.eval w env) = some r := by
  unfold Inst.safeDivisor at h
  cases v with
  | const c =>
    simp only [Value.const?, Bool.and_eq_true, bne_iff_ne, ne_eq, Bool.not_eq_true',
      Bool.and_eq_false_iff, decide_eq_false_iff_not] at h
    obtain ⟨hz, hm⟩ := h
    show ∃ r, w.binary op a c.toInt64 = some r
    generalize c.toInt64 = b at hz hm
    unfold binary
    cases op <;> simp_all [BinaryOp.onWords?, BinaryOp.isSignedDivision, BinaryOp.isDivision]
    all_goals split <;> simp
  | inst i | arg n | undef => cases h

/-- An instruction that may be hoisted and speculated computes its value and does nothing
else. -/
lemma Inst.exec_eq_value {inst : Inst} (hh : inst.isHoistable = true)
    (hs : inst.isSpeculatable = true) (w : World) (env : Env) (seen : List Effect) :
    inst.exec w env seen = some (inst.value w env, seen) := by
  cases inst with
  | binary op a b =>
    have hdef : ∃ r, w.binary op (a.eval w env) (b.eval w env) = some r := by
      change (if op.isDivision then safeDivisor op b else true) = true at hs
      cases hd : op.isDivision with
      | true =>
        rw [hd] at hs
        exact World.binary_of_safe hs
      | false =>
        unfold World.binary
        cases op.onWords? (a.eval w env) (b.eval w env) with
        | some v => exact ⟨v, rfl⟩
        | none => exact ⟨w.wideShift op (a.eval w env) (b.eval w env), by simp [hd]⟩
    obtain ⟨r, hr⟩ := hdef
    simp [exec, value, hr]
  | compare p a b => rfl
  | cast op v bits => rfl
  | select c a b => rfl
  | address a b => rfl
  | load | store | call | alloca | phi => cases hh

/-! ## Runs of a list of instructions -/

namespace Func

/-- Running instructions changes no other results. -/
lemma env_of_foldlM {w : World} {f : Func} {l : List InstId} {s t : Frame}
    (h : l.foldlM (f.execInst w) s = .ok t) {j : InstId} (hj : j ∉ l) : t.env j = s.env j := by
  induction l generalizing s with
  | nil =>
    cases h
    rfl
  | cons i rest ih =>
    rw [List.mem_cons, not_or] at hj
    rw [List.foldlM_cons] at h
    obtain ⟨u, hu, h⟩ := except_bind_ok.1 h
    rw [ih h hj.2]
    unfold execInst at hu
    split at hu
    · cases hu
    · split at hu
      · cases hu
      · cases hu
        exact Env.set_ne _ _ hj.1

/-- Two frames that agree but for the result of `i`, and in that too if `known`. -/
structure Agree (i : InstId) (known : Prop) (s s' : Frame) : Prop where
  seen : s'.seen = s.seen
  others : ∀ j, j ≠ i → s'.env j = s.env j
  same : known → s'.env i = s.env i

/-- Operands have the same values in frames that agree, if they name `i` only when it is
known. -/
lemma Agree.eval {i : InstId} {known : Prop} {s s' : Frame} (h : Agree i known s s') {w : World}
    {v : Value} (hv : v = .inst i → known) : v.eval w s.env = v.eval w s'.env := by
  apply Value.eval_congr
  intro j hj
  by_cases hji : j = i
  · rw [hji] at hj ⊢
    exact (h.same (hv hj)).symm
  · exact (h.others j hji).symm

/-- Instructions other than `i` that use `i` only when it is known keep frames in agreement. -/
lemma Agree.foldlM {w : World} {f g : Func} {i : InstId} {known : Prop} {l : List InstId}
    {s s' : Frame} (h : Agree i known s s') (hinst : ∀ k ∈ l, g.inst? k = f.inst? k) (hi : i ∉ l)
    (huse : ∀ k ∈ l, ∀ p, f.inst? k = some p → Value.inst i ∈ p.inst.operands → known) :
    (∃ t t', l.foldlM (f.execInst w) s = .ok t ∧ l.foldlM (g.execInst w) s' = .ok t' ∧
      Agree i known t t') ∨
    ∃ e, l.foldlM (f.execInst w) s = .error e ∧ l.foldlM (g.execInst w) s' = .error e := by
  induction l generalizing s s' with
  | nil => exact .inl ⟨s, s', rfl, rfl, h⟩
  | cons k rest ih =>
    rw [List.mem_cons, not_or] at hi
    have hk := hinst k (List.mem_cons_self ..)
    -- one step: the operands have the same values, so both do the same
    have hstep : (∃ t t', f.execInst w s k = .ok t ∧ g.execInst w s' k = .ok t' ∧
        Agree i known t t') ∨
        ∃ e, f.execInst w s k = .error e ∧ g.execInst w s' k = .error e := by
      unfold execInst
      rw [hk, h.seen]
      cases hp : f.inst? k with
      | none => exact .inr ⟨_, rfl, rfl⟩
      | some p =>
        have hval : ∀ v ∈ p.inst.operands, v.eval w s.env = v.eval w s'.env := by
          intro v hv
          apply h.eval
          intro he
          exact huse k (List.mem_cons_self ..) p hp (he ▸ hv)
        simp only
        rw [← Inst.exec_congr hval]
        cases hex : p.inst.exec w s.env s.seen with
        | none => exact .inr ⟨_, rfl, rfl⟩
        | some r =>
          refine .inl ⟨_, _, rfl, rfl, rfl, ?_, ?_⟩
          · intro j hj
            unfold Env.set
            simp only
            split
            · rfl
            · exact h.others j hj
          · intro hknown
            show s'.env.set k r.1 i = s.env.set k r.1 i
            rw [Env.set_ne _ _ hi.1, Env.set_ne _ _ hi.1]
            exact h.same hknown
    rw [List.foldlM_cons, List.foldlM_cons]
    rcases hstep with ⟨t, t', ht, ht', hagree⟩ | ⟨e, he, he'⟩
    · rw [ht, ht']
      exact ih hagree (fun k hk => hinst k (List.mem_cons_of_mem _ hk)) hi.2
        (fun k hk => huse k (List.mem_cons_of_mem _ hk))
    · rw [he, he']
      exact .inr ⟨e, rfl, rfl⟩

/-! ## What makes a move safe -/

/-- The instruction `i`, placed as `p` says, may move to the end of `pre`. -/
structure Hoisting (f : Func) (i : InstId) (p : PlacedInst) (pre : BlockId) : Prop where
  strict : f.Strict
  inst : f.inst? i = some p
  listed : ∃ bb, f.block? p.block = some bb ∧ i ∈ bb.body
  hoistable : p.inst.isHoistable = true
  speculatable : p.inst.isSpeculatable = true
  target : ∃ pb, f.block? pre = some pb
  reached : f.Reached p.block
  above : f.Dom pre p.block
  apart : pre ≠ p.block
  operands : ∀ j, Value.inst j ∈ p.inst.operands → ∃ d, f.Dom d pre ∧ f.Lists d j

namespace Hoisting

variable {f g : Func} {i : InstId} {p : PlacedInst} {pre : BlockId}

lemma lists (h : Hoisting f i p pre) : f.Lists p.block i := by
  obtain ⟨bb, hb, hi⟩ := h.listed
  exact ⟨bb, hb, List.mem_append_right _ hi⟩

/-- The target is not below the old place. -/
lemma not_below (h : Hoisting f i p pre) : ¬ f.Dom p.block pre := by
  intro hd
  have := Dominates.antisymm h.above hd (h.above.reaches h.reached)
  exact h.apart (BlockId.index_inj.1 this)

/-- The instruction is listed in its block and nowhere else. -/
lemma block_eq (h : Hoisting f i p pre) {c : BlockId} (hc : f.Lists c i) : c = p.block :=
  h.strict.lists_unique hc h.lists

/-- Where the instruction is available, its block lies above. -/
lemma dom_of_available (h : Hoisting f i p pre) {c : BlockId} {before : List InstId}
    (hl : ∀ j ∈ before, f.Lists c j) (ha : f.Available c before i) : f.Dom p.block c := by
  rcases ha with hi | ⟨d, -, hd, hlist⟩
  · rw [h.block_eq (hl i hi)]
    exact Dominates.refl _
  · rw [← h.block_eq hlist]
    exact hd

/-- No block that lies properly below the target lists an operand. -/
lemma operand_not_listed (h : Hoisting f i p pre) {j : InstId}
    (hj : Value.inst j ∈ p.inst.operands) {c : BlockId} (hne : pre ≠ c) (hd : f.Dom pre c)
    (hc : f.Reached c) : ¬ f.Lists c j := by
  intro hlist
  obtain ⟨d, hdom, hd'⟩ := h.operands j hj
  rw [h.strict.lists_unique hd' hlist] at hdom
  have := Dominates.antisymm hd hdom (hd.reaches hc)
  exact hne (BlockId.index_inj.1 this)

/-- The instruction is not its own operand. -/
lemma operand_ne (h : Hoisting f i p pre) {j : InstId} (hj : Value.inst j ∈ p.inst.operands) :
    j ≠ i := by
  intro he
  subst he
  obtain ⟨d, hdom, hlist⟩ := h.operands j hj
  rw [h.block_eq hlist] at hdom
  exact h.not_below hdom

/-- Environments that agree on the operands give the instruction one value. -/
lemma value_eq (_h : Hoisting f i p pre) {w : World} {env env' : Env}
    (heq : ∀ j, Value.inst j ∈ p.inst.operands → env j = env' j) :
    p.inst.value w env = p.inst.value w env' := by
  apply Inst.value_congr
  intro v hv
  apply Value.eval_congr
  intro j hj
  exact heq j (hj ▸ hv)

/-- The instruction is not listed as a phi. -/
lemma not_phi (h : Hoisting f i p pre) {c : BlockId} {bb : Block} (hb : f.block? c = some bb) :
    i ∉ bb.phis := by
  intro hi
  obtain ⟨node, hnode⟩ := h.strict.phis c bb hb i hi
  rw [h.inst] at hnode
  have hh := h.hoistable
  cases hnode
  cases hh

/-! ## The moved function -/

lemma inst_ne (hm : Moved f g i p pre) {j : InstId} (hj : j ≠ i) : g.inst? j = f.inst? j := by
  rw [hm.inst, if_neg hj]

/-- Moving changes no edge. -/
lemma cfg_eq (hm : Moved f g i p pre) : g.cfg = f.cfg := by
  have hsuccs : ∀ b, g.succs b = f.succs b := fun b => succs_eq_of_map (hm.block b) fun _ => rfl
  have hpreds : ∀ b, g.preds b = f.preds b := fun b => preds_eq_of_map (hm.block b) fun _ => rfl
  unfold cfg
  simp only [hsuccs, hpreds, hm.capacity]
  rfl

/-- A block of the moved function is one of the original with another body. -/
lemma block_inv (hm : Moved f g i p pre) {c : BlockId} {bb' : Block} (hb : g.block? c = some bb') :
    ∃ bb, f.block? c = some bb ∧ bb'.phis = bb.phis ∧ bb'.terminator = bb.terminator ∧
      bb'.body = (if c = p.block then bb.body.filter (· ≠ i) else bb.body) ++
        (if c = pre then [i] else []) := by
  rw [hm.block] at hb
  obtain ⟨bb, hbb, rfl⟩ := Option.map_eq_some_iff.1 hb
  exact ⟨bb, hbb, rfl, rfl, rfl⟩

/-- Other instructions are listed where they were. -/
lemma lists_of_ne (hm : Moved f g i p pre) {c : BlockId} {j : InstId} (hj : j ≠ i)
    (hl : f.Lists c j) : g.Lists c j := by
  obtain ⟨bb, hb, hmem⟩ := hl
  refine ⟨_, by rw [hm.block, hb, Option.map_some], ?_⟩
  rcases List.mem_append.1 hmem with hmem | hmem
  · exact List.mem_append_left _ hmem
  · apply List.mem_append_right
    apply List.mem_append_left
    split
    · exact List.mem_filter.2 ⟨hmem, by simpa using hj⟩
    · exact hmem

/-- The instruction is listed in the target. -/
lemma lists_target (h : Hoisting f i p pre) (hm : Moved f g i p pre) : g.Lists pre i := by
  obtain ⟨pb, hpb⟩ := h.target
  refine ⟨_, by rw [hm.block, hpb, Option.map_some], ?_⟩
  apply List.mem_append_right
  apply List.mem_append_right
  simp

/-- What was available stays available. -/
lemma available (h : Hoisting f i p pre) (hm : Moved f g i p pre) {c : BlockId}
    {before before' : List InstId} (hl : ∀ j ∈ before, f.Lists c j)
    (hsub : ∀ j ∈ before, j ≠ i → j ∈ before') {j : InstId} (ha : f.Available c before j) :
    g.Available c before' j := by
  by_cases hj : j = i
  · subst hj
    have hdom := h.dom_of_available hl ha
    refine .inr ⟨pre, ?_, ?_, h.lists_target hm⟩
    · intro he
      exact h.not_below (he ▸ hdom)
    · unfold Dom
      rw [cfg_eq hm]
      exact h.above.trans hdom
  · rcases ha with hmem | ⟨d, hd, hdom, hlist⟩
    · exact .inl (hsub j hmem hj)
    · refine .inr ⟨d, hd, ?_, lists_of_ne hm hj hlist⟩
      unfold Dom
      rw [cfg_eq hm]
      exact hdom

/-- A place in a list with one more element at its end is that element's or one of the list. -/
lemma split_concat {xs before after : List InstId} {k : InstId}
    (h : xs ++ [i] = before ++ k :: after) :
    (before = xs ∧ k = i) ∨ ∃ after₁, xs = before ++ k :: after₁ := by
  rcases List.eq_nil_or_concat after with rfl | ⟨l, y, rfl⟩
  · obtain ⟨h1, h2⟩ := List.append_inj' h rfl
    exact .inl ⟨h1.symm, by simpa using h2.symm⟩
  · rw [List.concat_eq_append, ← List.cons_append, ← List.append_assoc] at h
    exact .inr ⟨l, (List.append_inj' h rfl).1⟩

/-- The place of another instruction in its block comes after the same instructions. -/
lemma split_body (hm : Moved f g i p pre) {c : BlockId} {bb bb' : Block}
    (hb : f.block? c = some bb) (hb' : g.block? c = some bb') {k : InstId} (hk : k ≠ i)
    {before after : List InstId} (hsplit : bb'.body = before ++ k :: after) :
    ∃ before₀ after₀, bb.body = before₀ ++ k :: after₀ ∧
      ∀ x ∈ before₀, x ≠ i → x ∈ before := by
  obtain ⟨bb₀, hb₀, -, -, hbody⟩ := block_inv hm hb'
  rw [hb] at hb₀
  cases hb₀
  rw [hbody] at hsplit
  -- what was put at the end does not come before `k`
  obtain ⟨after₁, hsplit₁⟩ : ∃ after₁,
      (if c = p.block then bb.body.filter (· ≠ i) else bb.body) = before ++ k :: after₁ := by
    by_cases hc : c = pre
    · rw [if_pos hc] at hsplit
      rcases split_concat hsplit with ⟨-, hki⟩ | hrest
      · exact absurd hki hk
      · exact hrest
    · rw [if_neg hc, List.append_nil] at hsplit
      exact ⟨after, hsplit⟩
  split at hsplit₁
  · obtain ⟨l₁, l₂, hbody₀, h₁, h₂⟩ := List.filter_eq_append_iff.1 hsplit₁
    obtain ⟨m₁, m₂, hl₂, hnone, hkk, h₃⟩ := List.filter_eq_cons_iff.1 h₂
    refine ⟨l₁ ++ m₁, m₂, by rw [hbody₀, hl₂, List.append_assoc], ?_⟩
    intro x hx hxi
    rcases List.mem_append.1 hx with hx | hx
    · rw [← h₁]
      exact List.mem_filter.2 ⟨hx, by simpa using hxi⟩
    · exact absurd (by simpa using hxi) (hnone x hx)
  · exact ⟨before, after₁, hsplit₁, fun x hx _ => hx⟩

/-- What is left of a body without the instruction does not list it. -/
lemma not_mem_rest (h : Hoisting f i p pre) {c : BlockId} {bb : Block}
    (hb : f.block? c = some bb) :
    i ∉ if c = p.block then bb.body.filter (· ≠ i) else bb.body := by
  intro hi
  split at hi
  · simp at hi
  · rename_i hc
    exact hc (h.block_eq ⟨bb, hb, List.mem_append_right _ hi⟩)

/-- No body lists an instruction twice after the move. -/
lemma once_moved (h : Hoisting f i p pre) (hm : Moved f g i p pre) {c : BlockId} {bb' : Block}
    (hb' : g.block? c = some bb') : bb'.body.Nodup := by
  obtain ⟨bb, hb, -, -, hbody⟩ := block_inv hm hb'
  have hnodup := h.strict.once c bb hb
  have hrest : (if c = p.block then bb.body.filter (· ≠ i) else bb.body).Nodup := by
    split
    · exact hnodup.filter _
    · exact hnodup
  rw [hbody]
  by_cases hc : c = pre
  · rw [if_pos hc]
    refine List.nodup_append.2 ⟨hrest, by simp, ?_⟩
    intro x hx y hy hxy
    rw [hxy, List.mem_singleton.1 hy] at hx
    exact h.not_mem_rest hb hx
  · rw [if_neg hc, List.append_nil]
    exact hrest

/-- The moved instruction comes last in the target. -/
lemma place_moved (h : Hoisting f i p pre) (hm : Moved f g i p pre) {c : BlockId}
    {bb bb' : Block} (hb : f.block? c = some bb) (hb' : g.block? c = some bb')
    {before after : List InstId} (hsplit : bb'.body = before ++ i :: after) :
    c = pre ∧ before = bb.body := by
  obtain ⟨bb₀, hb₀, -, -, hbody⟩ := block_inv hm hb'
  rw [hb] at hb₀
  cases hb₀
  have hrest := h.not_mem_rest hb
  rw [hbody] at hsplit
  by_cases hc : c = pre
  · subst hc
    rw [if_neg h.apart] at hsplit hrest
    rw [if_pos rfl] at hsplit
    refine ⟨rfl, ?_⟩
    rcases split_concat hsplit with ⟨hxs, -⟩ | ⟨l, hl⟩
    · exact hxs
    · exact absurd (by simp [hl]) hrest
  · rw [if_neg hc, List.append_nil] at hsplit
    rw [hsplit] at hrest
    exact absurd (by simp) hrest

/-- The operands of the moved instruction are available at the end of the target. -/
lemma available_target (h : Hoisting f i p pre) (hm : Moved f g i p pre) {bb : Block}
    (hb : f.block? pre = some bb) {j : InstId} (hj : Value.inst j ∈ p.inst.operands) :
    g.Available pre (bb.phis ++ bb.body) j := by
  obtain ⟨d, hdom, hlist⟩ := h.operands j hj
  by_cases hd : d = pre
  · subst hd
    obtain ⟨x, hx, hmem⟩ := hlist
    rw [hb] at hx
    cases hx
    exact .inl hmem
  · refine .inr ⟨d, hd, ?_, lists_of_ne hm (h.operand_ne hj) hlist⟩
    unfold Dom
    rw [cfg_eq hm]
    exact hdom

/-- Every operand is available where it is used in a body after the move. -/
lemma inBody_moved (h : Hoisting f i p pre) (hm : Moved f g i p pre) {c : BlockId} {bb' : Block}
    (hb' : g.block? c = some bb') {before after : List InstId} {k : InstId}
    (hsplit : bb'.body = before ++ k :: after) {q : PlacedInst} (hq : g.inst? k = some q)
    {j : InstId} (hj : Value.inst j ∈ q.inst.operands) :
    g.Available c (bb'.phis ++ before) j := by
  obtain ⟨bb, hb, hphis, -, -⟩ := block_inv hm hb'
  rw [hphis]
  by_cases hk : k = i
  · subst hk
    rw [hm.inst, if_pos rfl] at hq
    cases hq
    obtain ⟨rfl, rfl⟩ := h.place_moved hm hb hb' hsplit
    exact h.available_target hm hb hj
  · rw [inst_ne hm hk] at hq
    obtain ⟨before₀, after₀, hsplit₀, hsub⟩ := split_body hm hb hb' hk hsplit
    refine h.available hm ?_ ?_ (h.strict.inBody c bb hb before₀ k after₀ hsplit₀ q hq j hj)
    · intro x hx
      exact lists_before hb hsplit₀ hx
    · intro x hx hxi
      rcases List.mem_append.1 hx with hx | hx
      · exact List.mem_append_left _ hx
      · exact List.mem_append_right _ (hsub x hx hxi)

/-- What a body lists after the move is there, belongs to the block and is no phi. -/
lemma body_moved (h : Hoisting f i p pre) (hm : Moved f g i p pre) {c : BlockId} {bb' : Block}
    (hb' : g.block? c = some bb') {k : InstId} (hk : k ∈ bb'.body) :
    ∃ q, g.inst? k = some q ∧ q.block = c ∧ q.inst.isPhi = false := by
  obtain ⟨bb, hb, -, -, hbody⟩ := block_inv hm hb'
  rw [hbody] at hk
  rcases List.mem_append.1 hk with hk | hk
  · have hki : k ≠ i := fun he => h.not_mem_rest hb (he ▸ hk)
    have hmem : k ∈ bb.body := by
      split at hk
      · exact (List.mem_filter.1 hk).1
      · exact hk
    rw [inst_ne hm hki]
    exact h.strict.body c bb hb k hmem
  · split at hk
    · rename_i hc
      rw [List.mem_singleton.1 hk, hm.inst, if_pos rfl, hc]
      refine ⟨_, rfl, rfl, ?_⟩
      have hh := h.hoistable
      cases hp : p.inst with
      | phi node =>
        rw [hp] at hh
        cases hh
      | _ => rfl
    · cases hk

/-- The function is in strict form after the move. -/
lemma strict_moved (h : Hoisting f i p pre) (hm : Moved f g i p pre) : g.Strict := by
  have hlists : ∀ c bb, f.block? c = some bb → ∀ j ∈ bb.insts, f.Lists c j :=
    fun c bb hb j hj => ⟨bb, hb, hj⟩
  -- only the moved instruction has left its block
  have hsame : ∀ c bb bb', f.block? c = some bb → g.block? c = some bb' →
      ∀ j ∈ bb.insts, j ≠ i → j ∈ bb'.insts := by
    intro c bb bb' hb hb' j hj hji
    obtain ⟨x, hx, hmem⟩ := lists_of_ne hm hji (hlists c bb hb j hj)
    rw [hb'] at hx
    cases hx
    exact hmem
  refine ⟨⟨?_, ?_, ?_, ?_⟩, ?_, ?_⟩
  · intro c bb' hb'
    exact h.once_moved hm hb'
  · intro c bb' hb' before k after hsplit q hq j hj
    exact h.inBody_moved hm hb' hsplit hq hj
  · -- a terminator uses what it did, at the end of the same block
    intro c bb' hb' t ht j hj
    obtain ⟨bb, hb, -, hterm, -⟩ := block_inv hm hb'
    rw [hterm] at ht
    exact h.available hm (hlists c bb hb) (hsame c bb bb' hb hb')
      (h.strict.atEnd c bb hb t ht j hj)
  · -- so does a phi, at the ends of the same predecessors
    intro c bb' hb' k hk node hnode q qq' hq' hedge j hj
    obtain ⟨bb, hb, hphis, -, -⟩ := block_inv hm hb'
    obtain ⟨qq, hq, -, -, -⟩ := block_inv hm hq'
    rw [hphis] at hk
    have hki : k ≠ i := fun he => h.not_phi hb (he ▸ hk)
    unfold phi? at hnode
    rw [inst_ne hm hki] at hnode
    rw [← edge_iff, cfg_eq hm, edge_iff] at hedge
    exact h.available hm (hlists q qq hq) (hsame q qq qq' hq hq')
      (h.strict.inPhi c bb hb k hk node hnode q qq hq hedge j hj)
  · intro c bb' hb' k hk
    obtain ⟨bb, hb, hphis, -, -⟩ := block_inv hm hb'
    rw [hphis] at hk
    rw [inst_ne hm (fun he => h.not_phi hb (he ▸ hk))]
    exact h.strict.phis c bb hb k hk
  · intro c bb' hb' k hk
    exact h.body_moved hm hb' hk

end Hoisting

end Func

end SsaBackend
