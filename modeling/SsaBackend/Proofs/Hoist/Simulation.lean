import SsaBackend.Proofs.Hoist.Moving

/-!
# A moved instruction changes no run

The runs of a function before and after a safe move go through the same blocks with the same
values, except for that of the moved instruction `i`. At the end of any block below the target
the moved function knows the value of `i`, and at the end of any block below the old place of
`i` the original knows it too (`Hoisting.Ends`). The value does not change on the way, since no
block properly below the target lists an operand.

`Hoisting.starts` takes that across an edge and the phis behind it, `Hoisting.ends` through the
body of a block, and `Hoisting.sameMeaning` puts them together.
-/

namespace SsaBackend

namespace Func

namespace Hoisting

variable {f g : Func} {i : InstId} {p : PlacedInst} {pre : BlockId} {w : World}

/-- The two runs at the end of a block. -/
structure Ends (f : Func) (i : InstId) (p : PlacedInst) (pre : BlockId) (w : World) (c : BlockId)
    (env env' : Env) : Prop where
  others : ∀ j, j ≠ i → env' j = env j
  hoisted : f.Dom pre c → env' i = p.inst.value w env
  computed : f.Dom p.block c → env i = p.inst.value w env

/-- The two runs when the phis of a block have their values. -/
structure Starts (f : Func) (i : InstId) (p : PlacedInst) (pre : BlockId) (w : World) (c : BlockId)
    (env env' : Env) : Prop where
  others : ∀ j, j ≠ i → env' j = env j
  hoisted : pre ≠ c → f.Dom pre c → env' i = p.inst.value w env
  computed : p.block ≠ c → f.Dom p.block c → env i = p.inst.value w env

/-- Where the instruction was computed, both runs know it. -/
lemma Ends.eval (h : Hoisting f i p pre) {c : BlockId} {env env' : Env}
    (he : Ends f i p pre w c env env') {v : Value} (hv : v = .inst i → f.Dom p.block c) :
    v.eval w env = v.eval w env' := by
  apply Value.eval_congr
  intro j hj
  by_cases hji : j = i
  · rw [hji] at hj ⊢
    have hdom := hv hj
    rw [he.computed hdom, he.hoisted (h.above.trans hdom)]
  · exact (he.others j hji).symm

/-! ## Across an edge -/

/-- Phis receive the same values. -/
lemma incoming_eq (h : Hoisting f i p pre) (hm : Moved f g i p pre) {q c : BlockId}
    {qq bb : Block} (hq : f.block? q = some qq) (hb : f.block? c = some bb)
    (hedge : c ∈ f.succs q) {env env' : Env} (he : Ends f i p pre w q env env') {k : InstId}
    (hk : k ∈ bb.phis) :
    g.incoming w ⟨some q, env'⟩ k = f.incoming w ⟨some q, env⟩ k := by
  have hki : k ≠ i := fun hki => h.not_phi hb (hki ▸ hk)
  have hphi : g.phi? k = f.phi? k := by
    unfold phi?
    rw [inst_ne hm hki]
  unfold incoming
  rw [hphi]
  symm
  apply Ends.eval h he
  intro hv
  -- the operand of a phi that names the instruction is available at the end of `q`
  simp only [Option.bind_some] at hv
  cases hnode : f.phi? k with
  | none =>
    rw [hnode] at hv
    cases hv
  | some node =>
    rw [hnode, Option.bind_some] at hv
    cases hin : node.incoming? q with
    | none =>
      rw [hin] at hv
      cases hv
    | some v =>
      rw [hin, Option.getD_some] at hv
      subst hv
      exact h.dom_of_available (fun j hj => ⟨qq, hq, hj⟩)
        (h.strict.inPhi c bb hb k hk node hnode q qq hq hedge i hin)

/-- From the end of a block to the next, once its phis have their values. -/
lemma starts (h : Hoisting f i p pre) (hm : Moved f g i p pre) {q c : BlockId} {qq bb : Block}
    (hq : f.block? q = some qq) (hb : f.block? c = some bb) (hedge : c ∈ f.succs q)
    (hreach : f.Reached q) {env env' : Env} (he : Ends f i p pre w q env env') :
    Starts f i p pre w c (f.mergePhis w bb.phis ⟨some q, env⟩)
      (g.mergePhis w bb.phis ⟨some q, env'⟩) := by
  have hstep : f.cfg.Edge q.index c.index := edge_iff.2 hedge
  have hi : i ∉ bb.phis := h.not_phi hb
  -- the phis of a block properly below the target are no operands
  have hvalue : pre ≠ c → f.Dom pre c →
      p.inst.value w (f.mergePhis w bb.phis ⟨some q, env⟩) = p.inst.value w env := by
    intro hne hdom
    apply h.value_eq
    intro j hj
    have hnot := h.operand_not_listed hj hne hdom (hreach.step hstep)
    unfold mergePhis
    rw [if_neg]
    intro hmem
    exact hnot ⟨bb, hb, List.mem_append_left _ hmem⟩
  refine ⟨?_, ?_, ?_⟩
  · intro j hj
    unfold mergePhis
    split
    · rename_i hmem
      exact h.incoming_eq hm hq hb hedge he hmem
    · exact he.others j hj
  · intro hne hdom
    rw [hvalue hne hdom]
    unfold mergePhis
    rw [if_neg hi]
    exact he.hoisted (hdom.of_edge (fun hx => hne (BlockId.index_inj.1 hx)) hstep)
  · intro hne hdom
    have hpre : pre ≠ c := fun hx => h.not_below (hx ▸ hdom)
    rw [hvalue hpre (h.above.trans hdom)]
    unfold mergePhis
    rw [if_neg hi]
    exact he.computed (hdom.of_edge (fun hx => hne (BlockId.index_inj.1 hx)) hstep)

/-! ## Through a block -/

/-- What the two runs of a body come to: they stop for the same reason, or both go on. -/
def BodyRel (f : Func) (i : InstId) (p : PlacedInst) (pre : BlockId) (w : World) (c : BlockId)
    (x y : Except Halt Frame) : Prop :=
  (∃ t t', x = .ok t ∧ y = .ok t' ∧ t'.seen = t.seen ∧ Ends f i p pre w c t.env t'.env) ∨
    ∃ e, x = .error e ∧ y = .error e

/-- Running instructions of a block properly below the target changes no operand. -/
lemma value_foldlM (h : Hoisting f i p pre) {c : BlockId} {bb : Block}
    (hb : f.block? c = some bb) (hne : pre ≠ c) (hdom : f.Dom pre c) (hc : f.Reached c)
    {l : List InstId} (hl : l ⊆ bb.body) {s t : Frame}
    (hrun : l.foldlM (f.execInst w) s = .ok t) :
    p.inst.value w t.env = p.inst.value w s.env := by
  apply h.value_eq
  intro j hj
  apply env_of_foldlM hrun
  intro hmem
  exact h.operand_not_listed hj hne hdom hc ⟨bb, hb, List.mem_append_right _ (hl hmem)⟩

/-- A block in which the instruction is used lies below its old place. -/
lemma dom_of_use (h : Hoisting f i p pre) {c : BlockId} {bb : Block} (hb : f.block? c = some bb)
    {k : InstId} (hk : k ∈ bb.body) {q : PlacedInst} (hq : f.inst? k = some q)
    (hop : Value.inst i ∈ q.inst.operands) : f.Dom p.block c := by
  obtain ⟨before, after, hsplit⟩ := List.append_of_mem hk
  exact h.dom_of_available (fun j hj => lists_before hb hsplit hj)
    (h.strict.inBody c bb hb before k after hsplit q hq i hop)

/-- A block that the move leaves alone. -/
lemma ends_elsewhere (h : Hoisting f i p pre) (hm : Moved f g i p pre) {c : BlockId} {bb : Block}
    (hb : f.block? c = some bb) (hreach : f.Reached c) (hcb : c ≠ p.block) (hcp : c ≠ pre)
    {env env' : Env} (hs : Starts f i p pre w c env env') (seen : List Effect) :
    BodyRel f i p pre w c (bb.body.foldlM (f.execInst w) ⟨env, seen⟩)
      (bb.body.foldlM (g.execInst w) ⟨env', seen⟩) := by
  have hi : i ∉ bb.body := fun hi => hcb (h.block_eq ⟨bb, hb, List.mem_append_right _ hi⟩)
  have hagree : Agree i (f.Dom p.block c) ⟨env, seen⟩ ⟨env', seen⟩ := by
    refine ⟨rfl, hs.others, ?_⟩
    intro hdom
    show env' i = env i
    rw [hs.hoisted (Ne.symm hcp) (h.above.trans hdom), hs.computed (Ne.symm hcb) hdom]
  have hinst : ∀ k ∈ bb.body, g.inst? k = f.inst? k :=
    fun k hk => inst_ne hm (fun he => hi (he ▸ hk))
  rcases hagree.foldlM hinst hi (fun k hk q hq => h.dom_of_use hb hk hq) with
    ⟨t, t', ht, ht', ha⟩ | herr
  · left
    have hi' : t'.env i = env' i := env_of_foldlM ht' hi
    have hi₀ : t.env i = env i := env_of_foldlM ht hi
    refine ⟨t, t', ht, ht', ha.seen, ha.others, ?_, ?_⟩
    · intro hdom
      rw [hi', hs.hoisted (Ne.symm hcp) hdom,
        h.value_foldlM hb (Ne.symm hcp) hdom hreach (List.Subset.refl _) ht]
    · intro hdom
      rw [hi₀, hs.computed (Ne.symm hcb) hdom, h.value_foldlM hb (Ne.symm hcp)
        (h.above.trans hdom) hreach (List.Subset.refl _) ht]
  · exact .inr herr

/-- Wherever the instruction stands, running it gives it its value and is not seen. -/
lemma exec_self (h : Hoisting f i p pre) {φ : Func} {q : PlacedInst} (hq : φ.inst? i = some q)
    (hinst : q.inst = p.inst) (t : Frame) :
    φ.execInst w t i = .ok ⟨t.env.set i (p.inst.value w t.env), t.seen⟩ := by
  unfold execInst
  rw [hq]
  simp only [hinst]
  rw [Inst.exec_eq_value h.hoistable h.speculatable]

/-- The target: the moved function computes the instruction at the end. -/
lemma ends_target (h : Hoisting f i p pre) (hm : Moved f g i p pre) {bb : Block}
    (hb : f.block? pre = some bb) {env env' : Env} (hs : Starts f i p pre w pre env env')
    (seen : List Effect) :
    BodyRel f i p pre w pre (bb.body.foldlM (f.execInst w) ⟨env, seen⟩)
      ((bb.body ++ [i]).foldlM (g.execInst w) ⟨env', seen⟩) := by
  have hi : i ∉ bb.body := fun hi => h.apart (h.block_eq ⟨bb, hb, List.mem_append_right _ hi⟩)
  have hagree : Agree i False ⟨env, seen⟩ ⟨env', seen⟩ := ⟨rfl, hs.others, False.elim⟩
  have hinst : ∀ k ∈ bb.body, g.inst? k = f.inst? k :=
    fun k hk => inst_ne hm (fun he => hi (he ▸ hk))
  have huse : ∀ k ∈ bb.body, ∀ q, f.inst? k = some q → Value.inst i ∈ q.inst.operands →
      False := fun k hk q hq hop => h.not_below (h.dom_of_use hb hk hq hop)
  rw [List.foldlM_append]
  rcases hagree.foldlM hinst hi huse with ⟨t, t', ht, ht', ha⟩ | ⟨e, he, he'⟩
  · left
    have hval : p.inst.value w t'.env = p.inst.value w t.env :=
      h.value_eq fun j hj => ha.others j (h.operand_ne hj)
    have hexec : g.execInst w t' i = .ok ⟨t'.env.set i (p.inst.value w t.env), t'.seen⟩ := by
      rw [h.exec_self (q := ⟨p.inst, pre⟩) (by rw [hm.inst, if_pos rfl]) rfl, hval]
    refine ⟨t, ⟨t'.env.set i (p.inst.value w t.env), t'.seen⟩, ht, ?_, ha.seen, ?_, ?_, ?_⟩
    · rw [ht']
      show [i].foldlM (g.execInst w) t' = _
      rw [List.foldlM_cons, hexec]
      rfl
    · intro j hj
      show t'.env.set i _ j = _
      rw [Env.set_ne _ _ hj]
      exact ha.others j hj
    · intro _
      exact Env.set_self ..
    · intro hdom
      exact absurd hdom h.not_below
  · right
    refine ⟨e, he, ?_⟩
    rw [he']
    rfl

/-- The instruction stands at one place of its block. -/
lemma split_origin (h : Hoisting f i p pre) {bb : Block} (hb : f.block? p.block = some bb) :
    ∃ l₁ l₂, bb.body = l₁ ++ i :: l₂ ∧ i ∉ l₁ ∧ i ∉ l₂ ∧
      bb.body.filter (· ≠ i) = l₁ ++ l₂ := by
  have hmem : i ∈ bb.body := by
    obtain ⟨x, hx, hi⟩ := h.listed
    rw [hb] at hx
    cases hx
    exact hi
  obtain ⟨l₁, l₂, hbody⟩ := List.append_of_mem hmem
  have hnodup := h.strict.once p.block bb hb
  rw [hbody, List.nodup_append, List.nodup_cons] at hnodup
  obtain ⟨-, ⟨hi₂, -⟩, hdisj⟩ := hnodup
  have hi₁ : i ∉ l₁ := fun hi => hdisj i hi i (List.mem_cons_self ..) rfl
  refine ⟨l₁, l₂, hbody, hi₁, hi₂, ?_⟩
  have h₁ : l₁.filter (· ≠ i) = l₁ := List.filter_eq_self.2 fun x hx => by
    simpa using fun he : x = i => hi₁ (he ▸ hx)
  have h₂ : l₂.filter (· ≠ i) = l₂ := List.filter_eq_self.2 fun x hx => by
    simpa using fun he : x = i => hi₂ (he ▸ hx)
  rw [hbody, List.filter_append, h₁, List.filter_cons_of_neg (by simp), h₂]

/-- In front of the instruction nothing uses it. -/
lemma not_used_before (h : Hoisting f i p pre) {bb : Block} (hb : f.block? p.block = some bb)
    {l₁ l₂ : List InstId} (hbody : bb.body = l₁ ++ i :: l₂) (hi₁ : i ∉ l₁) {k : InstId}
    (hk : k ∈ l₁) {q : PlacedInst} (hq : f.inst? k = some q) :
    Value.inst i ∉ q.inst.operands := by
  intro hop
  obtain ⟨before, after, hsplit⟩ := List.append_of_mem hk
  have hsplit' : bb.body = before ++ k :: (after ++ i :: l₂) := by
    rw [hbody, hsplit]
    simp
  rcases h.strict.inBody p.block bb hb before k _ hsplit' q hq i hop with hin | ⟨d, hd, -, hl⟩
  · rcases List.mem_append.1 hin with hin | hin
    · exact h.not_phi hb hin
    · apply hi₁
      rw [hsplit]
      exact List.mem_append_left _ hin
  · exact hd (h.block_eq hl)

/-- The old place: the original computes the instruction, which the moved function knows. -/
lemma ends_origin (h : Hoisting f i p pre) (hm : Moved f g i p pre) {bb : Block}
    (hb : f.block? p.block = some bb) {env env' : Env}
    (hs : Starts f i p pre w p.block env env') (seen : List Effect) :
    BodyRel f i p pre w p.block (bb.body.foldlM (f.execInst w) ⟨env, seen⟩)
      ((bb.body.filter (· ≠ i)).foldlM (g.execInst w) ⟨env', seen⟩) := by
  obtain ⟨l₁, l₂, hbody, hi₁, hi₂, hfilter⟩ := h.split_origin hb
  have hsub₁ : l₁ ⊆ bb.body := by simp [hbody]
  have hsub₂ : l₂ ⊆ bb.body := by
    intro x hx
    rw [hbody]
    exact List.mem_append_right _ (List.mem_cons_of_mem _ hx)
  have hinst : ∀ l : List InstId, i ∉ l → ∀ k ∈ l, g.inst? k = f.inst? k :=
    fun l hl k hk => inst_ne hm (fun he => hl (he ▸ hk))
  have hagree : Agree i False ⟨env, seen⟩ ⟨env', seen⟩ := ⟨rfl, hs.others, False.elim⟩
  rw [hfilter, hbody, List.foldlM_append, List.foldlM_append]
  rcases hagree.foldlM (hinst l₁ hi₁) hi₁
    (fun k hk q hq => h.not_used_before hb hbody hi₁ hk hq) with ⟨t, t', ht, ht', ha⟩ | ⟨e, he, he'⟩
  · have hval : p.inst.value w t.env = p.inst.value w env :=
      h.value_foldlM hb h.apart h.above h.reached hsub₁ ht
    have hknown : t'.env i = p.inst.value w t.env := by
      rw [env_of_foldlM ht' hi₁, hval]
      exact hs.hoisted h.apart h.above
    have hval' : p.inst.value w (t.env.set i (p.inst.value w t.env)) = p.inst.value w t.env :=
      h.value_eq fun j hj => Env.set_ne _ _ (h.operand_ne hj)
    -- from here on both know it
    have hagree₂ : Agree i True ⟨t.env.set i (p.inst.value w t.env), t.seen⟩ t' := by
      refine ⟨ha.seen, ?_, ?_⟩
      · intro j hj
        show t'.env j = t.env.set i _ j
        rw [Env.set_ne _ _ hj]
        exact ha.others j hj
      · intro _
        show t'.env i = t.env.set i _ i
        rw [hknown, Env.set_self]
    rw [ht, ht']
    show BodyRel _ _ _ _ _ _ ((i :: l₂).foldlM (f.execInst w) t) (l₂.foldlM (g.execInst w) t')
    rw [List.foldlM_cons, h.exec_self h.inst rfl]
    show BodyRel _ _ _ _ _ _ (l₂.foldlM (f.execInst w) _) (l₂.foldlM (g.execInst w) t')
    rcases hagree₂.foldlM (hinst l₂ hi₂) hi₂ (fun _ _ _ _ _ => trivial) with
      ⟨u, u', hu, hu', ha₂⟩ | herr
    · left
      have hval₂ : p.inst.value w u.env = p.inst.value w t.env :=
        (h.value_foldlM hb h.apart h.above h.reached hsub₂ hu).trans hval'
      have hnow : u.env i = p.inst.value w u.env := by
        rw [env_of_foldlM hu hi₂, hval₂]
        exact Env.set_self ..
      refine ⟨u, u', hu, hu', ha₂.seen, ha₂.others, ?_, ?_⟩
      · intro _
        rw [ha₂.same trivial, hnow]
      · intro _
        exact hnow
    · exact .inr herr
  · right
    refine ⟨e, ?_, ?_⟩
    · rw [he]
      rfl
    · rw [he']
      rfl

/-- From the start of a block to its end. -/
lemma ends (h : Hoisting f i p pre) (hm : Moved f g i p pre) {c : BlockId} {bb bb' : Block}
    (hb : f.block? c = some bb) (hb' : g.block? c = some bb') (hreach : f.Reached c)
    {env env' : Env} (hs : Starts f i p pre w c env env') (seen : List Effect) :
    BodyRel f i p pre w c (bb.body.foldlM (f.execInst w) ⟨env, seen⟩)
      (bb'.body.foldlM (g.execInst w) ⟨env', seen⟩) := by
  obtain ⟨x, hx, -, -, hbody⟩ := block_inv hm hb'
  rw [hb] at hx
  cases hx
  rw [hbody]
  by_cases hcb : c = p.block
  · subst hcb
    rw [if_pos rfl, if_neg (Ne.symm h.apart), List.append_nil]
    exact h.ends_origin hm hb hs seen
  · rw [if_neg hcb]
    by_cases hcp : c = pre
    · subst hcp
      rw [if_pos rfl]
      exact h.ends_target hm hb hs seen
    · rw [if_neg hcp, List.append_nil]
      exact h.ends_elsewhere hm hb hreach hcb hcp hs seen

/-! ## Whole runs -/

/-- The two runs on arrival at a block. -/
def Arrives (f : Func) (i : InstId) (p : PlacedInst) (pre : BlockId) (w : World) (c : BlockId)
    (a a' : Arrival) : Prop :=
  f.Reached c ∧ a'.pred = a.pred ∧
    match a.pred with
    | none => c = f.entry ∧ a'.env = a.env
    | some q => c ∈ f.succs q ∧ f.Reached q ∧ Ends f i p pre w q a.env a'.env

/-- On arrival the phis take the runs to the start of the block. -/
lemma Arrives.starts (h : Hoisting f i p pre) (hm : Moved f g i p pre) {c : BlockId} {bb : Block}
    (hb : f.block? c = some bb) {a a' : Arrival} (ha : Arrives f i p pre w c a a') :
    Starts f i p pre w c (f.mergePhis w bb.phis a) (g.mergePhis w bb.phis a') := by
  obtain ⟨_, hpred, ha⟩ := ha
  obtain ⟨pred, env⟩ := a
  obtain ⟨pred', env'⟩ := a'
  cases hpred
  cases pred with
  | none =>
    obtain ⟨rfl, rfl⟩ := ha
    -- nothing lies above the entry
    refine ⟨?_, ?_, ?_⟩
    · intro j _
      rfl
    · intro hne hdom
      exact absurd (BlockId.index_inj.1 hdom.eq_start) hne
    · intro hne hdom
      exact absurd (BlockId.index_inj.1 hdom.eq_start) hne
  | some q =>
    obtain ⟨hedge, hq, he⟩ := ha
    obtain ⟨qq, hqq⟩ := exists_block_of_succ hedge
    exact h.starts hm hqq hb hedge hq he

/-- The function means the same after the move. -/
theorem sameMeaning (h : Hoisting f i p pre) (hm : Moved f g i p pre) : f.SameMeaning g := by
  intro w n
  have hstart : Stage.Rel (Arrives f i p pre w) (f.begin w) (g.begin w) :=
    .entering ⟨Reaches.init, rfl, rfl, rfl⟩
  refine (hstart.after ?_ n).sight
  intro c a a' seen ha
  unfold enter
  cases hb : f.block? c with
  | none =>
    have hb' : g.block? c = none := by rw [hm.block, hb, Option.map_none]
    rw [hb']
    exact .done
  | some bb =>
    obtain ⟨bb', hb'⟩ : ∃ bb', g.block? c = some bb' := ⟨_, by rw [hm.block, hb, Option.map_some]⟩
    obtain ⟨x, hx, hphis, hterm, -⟩ := block_inv hm hb'
    rw [hb] at hx
    cases hx
    have hs := ha.starts h hm hb
    rw [hb']
    simp only [hphis, hterm]
    rcases h.ends hm hb hb' ha.1 hs seen with ⟨t, t', ht, ht', hseen, hends⟩ | ⟨e, he, he'⟩
    · rw [ht, ht']
      cases htt : bb.terminator with
      | none =>
        simp only [hseen]
        exact .done
      | some t₀ =>
        simp only [hseen]
        apply Terminator.leave_rel
        · intro v hv
          -- a terminator that uses the moved instruction is dominated by the preheader
          apply Ends.eval h hends
          intro hvi
          subst hvi
          exact h.dom_of_available (fun j hj => ⟨bb, hb, hj⟩)
            (h.strict.atEnd c bb hb t₀ htt i hv)
        · intro s hs
          have hedge : s ∈ f.succs c := by rwa [succs_of_terminator hb htt]
          exact ⟨ha.1.step (edge_iff.2 hedge), rfl, hedge, ha.1, hends⟩
    · rw [he, he']
      exact .done

end Hoisting

end Func

end SsaBackend
