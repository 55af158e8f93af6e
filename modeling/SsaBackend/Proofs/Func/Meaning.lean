import SsaBackend.Proofs.Func.Thinned

/-!
# Edits that no run can tell

Two kinds of edits leave the meaning of a function as it is.

Replacing an instruction by a value does, if the instruction always has that value
(`Func.Replaced.sameMeaning`). The runs before and after go through the same blocks, and their
environments agree but for the instruction that was replaced; wherever that one is available, it
has the value that replaces it (`Func.Replaced.Agrees`).

Taking edges and blocks away does, if control leaves every block that is still reached as it did
(`Func.Thinned.sameMeaning`). Here the environments are the same, and the runs stay among the
edges that are left.
-/

namespace SsaBackend

/-- The constants that are true are those that are not zero as words. -/
lemma Const.toInt64_ne_zero (k : Const) : k.toInt64 ≠ 0 ↔ k.isTrue = true := by
  cases k with
  | int v => simp [toInt64, isTrue]
  | bool b => cases b <;> simp [toInt64, isTrue]

/-- Replacing an operand shows in no environment in which the two have one value. -/
lemma Value.eval_subst {w : World} {env env' : Env} {i : InstId} {v u : Value}
    (hothers : ∀ j, j ≠ i → env' j = env j) (hv : u = .inst i → v.eval w env' = env i) :
    (Value.subst (.inst i) v u).eval w env' = u.eval w env := by
  unfold Value.subst
  split
  · rename_i hu
    rw [hv hu, hu]
    rfl
  · rename_i hu
    apply Value.eval_congr
    intro j hj
    exact hothers j fun he => hu (he ▸ hj)

namespace Func

/-- Where a run comes from: it is at the entry, or has followed an edge. -/
def Enters (f : Func) (c : BlockId) : Option BlockId → Prop
  | none => c = f.entry
  | some q => f.Reached q ∧ c ∈ f.succs q

lemma Enters.reached {f : Func} {c : BlockId} {pred : Option BlockId} (h : f.Enters c pred) :
    f.Reached c := by
  cases pred with
  | none =>
    cases h
    exact Reaches.init
  | some q => exact h.1.step (edge_iff.2 h.2)

/-! ## Replacing an instruction by its value -/

/-- Wherever the entry leads, running the instruction `i` gives it the value of `v` and is not
seen. -/
structure Gives (f : Func) (i : InstId) (v : Value) : Prop where
  inBody : ∀ b bb, f.block? b = some bb → f.Reached b → i ∈ bb.body → ∀ p, f.inst? i = some p →
    ∀ w env seen, p.inst.exec w env seen = some (v.eval w env, seen)
  inPhis : ∀ b bb, f.block? b = some bb → f.Reached b → i ∈ bb.phis → ∀ node, f.phi? i = some node →
    (node.values = [] → v = .undef) ∧ (∀ u ∈ node.values, u = .inst i ∨ u = v) ∧
      ∀ j, v = .inst j → j ∉ bb.phis

namespace Replaced

variable {f g : Func} {i : InstId} {v : Value} {w : World}

/-- The two runs at a place of block `b`, after the instructions `before`. -/
structure Agrees (f : Func) (i : InstId) (v : Value) (w : World) (b : BlockId)
    (before : List InstId) (env env' : Env) : Prop where
  others : ∀ j, j ≠ i → env' j = env j
  known : f.Available b before i → env i = v.eval w env

/-- What is read at a place has the same value in both runs. -/
lemma Agrees.eval {b : BlockId} {before : List InstId} {env env' : Env}
    (h : Agrees f i v w b before env env') (hd : f.DominatedWhereReached) (hv : f.StandsFor v i)
    (hreach : f.Reached b) {u : Value} (hu : f.Reads u b before) :
    (Value.subst (.inst i) v u).eval w env' = u.eval w env := by
  refine Value.eval_subst h.others ?_
  rintro rfl
  have ha := hd.reads b before i hu hreach
  rw [h.known ha]
  apply Value.eval_congr
  intro j hj
  exact h.others j (hv b before hreach hu.place ha j hj).1

/-! ### Across an edge -/

/-- What a phi of the next block receives. -/
lemma Agrees.incoming (h : Replaced f g i v) (hf : f.Framed) (hd : f.DominatedWhereReached)
    (hv : f.StandsFor v i) {q c : BlockId} {qq bb : Block} (hq : f.block? q = some qq)
    (hb : f.block? c = some bb) (hreach : f.Reached q) (hedge : c ∈ f.succs q) {env env' : Env}
    (ha : Agrees f i v w q qq.insts env env') {k : InstId} (hk : k ∈ bb.phis) (hne : k ≠ i) :
    g.incoming w ⟨some q, env'⟩ k = f.incoming w ⟨some q, env⟩ k := by
  obtain ⟨node, hnode, -⟩ := hf.phis c bb hb k hk
  have hphi := phi?_of_inst hnode
  have hphi' : g.phi? k = some (node.mapValues (Value.subst (.inst i) v)) :=
    phi?_of_inst (h.inst_eq hnode hne)
  obtain ⟨u, hu⟩ := hf.incoming hb hk hphi hedge
  unfold Func.incoming
  simp only [Option.bind_some, hphi, hphi', Phi.incoming?_mapValues, hu, Option.map_some,
    Option.getD_some]
  exact ha.eval hd hv hreach (.inPhi hb hk hphi hq hedge hu)

/-- The value of `v` does not change where `i` is known before the phis of a block are. -/
lemma eval_mergePhis (hf : f.Framed) (hv : f.StandsFor v i) {c : BlockId} {bb : Block}
    (hb : f.block? c = some bb) (hreach : f.Reached c) (ha : f.Available c [] i) (a : Arrival) :
    v.eval w (f.mergePhis w bb.phis a) = v.eval w a.env := by
  apply Value.eval_congr
  intro j hj
  obtain ⟨-, havail⟩ := hv c [] hreach ⟨bb, hb, List.nil_prefix⟩ ha j hj
  unfold mergePhis
  rw [if_neg]
  intro hmem
  rcases havail with hnil | ⟨d, hne, -, hl⟩
  · cases hnil
  · exact hne (hf.lists_unique hl ⟨bb, hb, List.mem_append_left _ hmem⟩)

/-- From the end of a block to the next, once its phis have their values. -/
lemma Agrees.step (h : Replaced f g i v) (hf : f.Framed) (hd : f.DominatedWhereReached)
    (hv : f.StandsFor v i) (hgives : f.Gives i v) {q c : BlockId} {qq bb : Block}
    (hq : f.block? q = some qq) (hb : f.block? c = some bb) (hreach : f.Reached q)
    (hedge : c ∈ f.succs q) {env env' : Env} (ha : Agrees f i v w q qq.insts env env') :
    Agrees f i v w c bb.phis (f.mergePhis w bb.phis ⟨some q, env⟩)
      (g.mergePhis w (bb.phis.filter (· ≠ i)) ⟨some q, env'⟩) := by
  have hcreach : f.Reached c := hreach.step (edge_iff.2 hedge)
  refine ⟨?_, ?_⟩
  · intro j hj
    unfold mergePhis
    by_cases hmem : j ∈ bb.phis
    · rw [if_pos hmem, if_pos (List.mem_filter.2 ⟨hmem, by simpa using hj⟩)]
      exact Agrees.incoming h hf hd hv hq hb hreach hedge ha hmem hj
    · rw [if_neg hmem, if_neg fun hm => hmem (List.mem_filter.1 hm).1]
      exact ha.others j hj
  · rintro (hmem | ⟨d, hne, hdom, hl⟩)
    · -- the phi itself: it receives its value, or what it had from the last time
      obtain ⟨node, hnode, -⟩ := hf.phis c bb hb i hmem
      have hphi := phi?_of_inst hnode
      obtain ⟨-, hsole, hout⟩ := hgives.inPhis c bb hb hcreach hmem node hphi
      obtain ⟨u, hu⟩ := hf.incoming hb hmem hphi hedge
      have hmerged : f.mergePhis w bb.phis ⟨some q, env⟩ i = u.eval w env := by
        unfold mergePhis Func.incoming
        simp only [if_pos hmem, Option.bind_some, hphi, hu, Option.getD_some]
      have hsame : v.eval w (f.mergePhis w bb.phis ⟨some q, env⟩) = v.eval w env := by
        apply Value.eval_congr
        intro j hj
        unfold mergePhis
        rw [if_neg (hout j hj)]
      rw [hmerged, hsame]
      rcases hsole u (Phi.mem_values_of_incoming? hu) with rfl | rfl
      · exact ha.known (hd.reads q _ i (.inPhi hb hmem hphi hq hedge hu) hreach)
      · rfl
    · have hbefore : f.Available q qq.insts i := by
        have hdq : f.Dom d q :=
          hdom.of_edge (fun he => hne (BlockId.index_inj.1 he)) (edge_iff.2 hedge)
        by_cases he : d = q
        · subst he
          obtain ⟨dd, hdd, hmem⟩ := hl
          rw [hq] at hdd
          cases hdd
          exact .inl hmem
        · exact .inr ⟨d, he, hdq, hl⟩
      have hnot : i ∉ bb.phis :=
        fun hmem => hne (hf.lists_unique hl ⟨bb, hb, List.mem_append_left _ hmem⟩)
      rw [eval_mergePhis hf hv hb hcreach (.inr ⟨d, hne, hdom, hl⟩)]
      unfold mergePhis
      rw [if_neg hnot]
      exact ha.known hbefore

/-- At the entry the phis have nothing to receive. -/
lemma Agrees.start (hf : f.Framed) (hgives : f.Gives i v) {bb : Block}
    (hb : f.block? f.entry = some bb) (env : Env) :
    Agrees f i v w f.entry bb.phis (f.mergePhis w bb.phis ⟨none, env⟩)
      (g.mergePhis w (bb.phis.filter (· ≠ i)) ⟨none, env⟩) := by
  refine ⟨?_, ?_⟩
  · intro j hj
    unfold mergePhis
    by_cases hmem : j ∈ bb.phis
    · rw [if_pos hmem, if_pos (List.mem_filter.2 ⟨hmem, by simpa using hj⟩)]
      rfl
    · rw [if_neg hmem, if_neg fun hm => hmem (List.mem_filter.1 hm).1]
  · rintro (hmem | ⟨d, hne, hdom, -⟩)
    · obtain ⟨ee, he, hpreds⟩ := hf.entry
      rw [hb] at he
      cases he
      obtain ⟨node, hnode, hperm⟩ := hf.phis f.entry bb hb i hmem
      rw [hpreds] at hperm
      have hnil : node.operands = [] := List.map_eq_nil_iff.1 hperm.eq_nil
      obtain ⟨hundef, -, -⟩ :=
        hgives.inPhis f.entry bb hb Reaches.init hmem node (phi?_of_inst hnode)
      rw [hundef (by simp [Phi.values, hnil])]
      unfold mergePhis
      rw [if_pos hmem]
      rfl
    · exact absurd (BlockId.index_inj.1 (Dominates.eq_start hdom)) hne

/-! ### Through a block -/

/-- What the two runs of a body come to: they stop for the same reason, or both go on. -/
def BodyRel (f : Func) (i : InstId) (v : Value) (w : World) (b : BlockId) (before : List InstId)
    (x y : Except Halt Frame) : Prop :=
  (∃ s s', x = .ok s ∧ y = .ok s' ∧ s'.seen = s.seen ∧ Agrees f i v w b before s.env s'.env) ∨
    ∃ e, x = .error e ∧ y = .error e

/-- The places of a body are places of the block. -/
lemma place_of_body {b : BlockId} {bb : Block} (hb : f.block? b = some bb)
    {before after : List InstId} (hsplit : bb.body = before ++ after) :
    ∃ cc, f.block? b = some cc ∧ bb.phis ++ before <+: cc.insts := by
  refine ⟨bb, hb, ?_⟩
  unfold Block.insts
  rw [hsplit, ← List.append_assoc]
  exact List.prefix_append ..

/-- Running another instruction leaves the value of `v` alone once `i` is known. -/
lemma Agrees.set (hf : f.Framed) (hd : f.DominatedWhereReached) (hv : f.StandsFor v i)
    {b : BlockId} {bb : Block} (hb : f.block? b = some bb) (hreach : f.Reached b)
    {before after : List InstId} {k : InstId} (hsplit : bb.body = before ++ k :: after)
    (hne : k ≠ i) {env env' : Env} (h : Agrees f i v w b (bb.phis ++ before) env env')
    (x : Int64) : Agrees f i v w b (bb.phis ++ (before ++ [k])) (env.set k x) (env'.set k x) := by
  refine ⟨?_, ?_⟩
  · intro j hj
    unfold Env.set
    split
    · rfl
    · exact h.others j hj
  · intro ha
    have hbefore : f.Available b (bb.phis ++ before) i := by
      refine ha.imp_left fun hmem => ?_
      rw [← List.append_assoc, List.mem_append] at hmem
      exact hmem.resolve_right fun he => hne (List.mem_singleton.1 he).symm
    rw [Env.set_ne _ _ (Ne.symm hne), h.known hbefore]
    apply Value.eval_congr
    intro j hj
    obtain ⟨-, havail⟩ := hv b _ hreach (place_of_body hb hsplit) hbefore j hj
    have hk : k ∈ bb.body := hsplit ▸ List.mem_append_right _ List.mem_cons_self
    -- what `v` names was computed before, and a block lists an instruction once
    have hjk : j ≠ k := by
      rintro rfl
      rcases havail with hmem | ⟨d, hdb, -, hl⟩
      · rcases List.mem_append.1 hmem with hmem | hmem
        · exact hf.not_mem_phis hb hk hmem
        · have honce := hd.once b bb hb hreach
          rw [hsplit] at honce
          exact (List.nodup_append.1 honce).2.2 j hmem j List.mem_cons_self rfl
      · exact hdb (hf.lists_unique hl ⟨bb, hb, List.mem_append_right _ hk⟩)
    exact (Env.set_ne _ _ hjk).symm

/-- The replaced instruction takes the value of `v`. -/
lemma Agrees.set_self (hv : f.StandsFor v i) {b : BlockId} {bb : Block}
    (hb : f.block? b = some bb) (hreach : f.Reached b) {before after : List InstId}
    (hsplit : bb.body = before ++ i :: after) {env env' : Env}
    (h : Agrees f i v w b (bb.phis ++ before) env env') :
    Agrees f i v w b (bb.phis ++ (before ++ [i])) (env.set i (v.eval w env)) env' := by
  refine ⟨?_, ?_⟩
  · intro j hj
    rw [Env.set_ne _ _ hj]
    exact h.others j hj
  · intro ha
    rw [Env.set_self]
    apply Value.eval_congr
    intro j hj
    have hplace := place_of_body hb (hsplit.trans (List.append_cons ..))
    exact (Env.set_ne _ _ (hv b _ hreach hplace ha j hj).1).symm

/-- Running the rest of a body, with and without the instruction. -/
lemma Agrees.foldlM (h : Replaced f g i v) (hf : f.Framed) (hd : f.DominatedWhereReached)
    (hv : f.StandsFor v i) (hgives : f.Gives i v) {b : BlockId} {bb : Block}
    (hb : f.block? b = some bb) (hreach : f.Reached b) {before rest : List InstId}
    (hsplit : bb.body = before ++ rest) {env env' : Env}
    (ha : Agrees f i v w b (bb.phis ++ before) env env') (seen : List Effect) :
    BodyRel f i v w b bb.insts (rest.foldlM (f.execInst w) ⟨env, seen⟩)
      ((rest.filter (· ≠ i)).foldlM (g.execInst w) ⟨env', seen⟩) := by
  induction rest generalizing before env env' seen with
  | nil =>
    rw [List.append_nil] at hsplit
    refine .inl ⟨_, _, rfl, rfl, rfl, ?_⟩
    rwa [← hsplit] at ha
  | cons k rest ih =>
    have hk : k ∈ bb.body := hsplit ▸ List.mem_append_right _ List.mem_cons_self
    have hnext : bb.body = (before ++ [k]) ++ rest := hsplit.trans (List.append_cons ..)
    obtain ⟨p, hp, -, -⟩ := hf.body b bb hb k hk
    rw [List.foldlM_cons]
    by_cases hki : k = i
    · subst hki
      have hexec : f.execInst w ⟨env, seen⟩ k = .ok ⟨env.set k (v.eval w env), seen⟩ := by
        unfold execInst
        rw [hp]
        simp only [hgives.inBody b bb hb hreach hk p hp]
      rw [hexec, List.filter_cons_of_neg (by simp)]
      exact ih hnext (ha.set_self hv hb hreach hsplit) seen
    · have hsame : (p.inst.mapOperands (Value.subst (.inst i) v)).exec w env' seen =
          p.inst.exec w env seen :=
        Inst.exec_mapOperands fun u hu => ha.eval hd hv hreach (.inBody hb hsplit hp hu)
      rw [List.filter_cons_of_pos (by simpa using hki), List.foldlM_cons]
      unfold execInst
      rw [hp, h.inst_eq hp hki]
      dsimp only
      rw [hsame]
      cases p.inst.exec w env seen with
      | none => exact .inr ⟨_, rfl, rfl⟩
      | some r => exact ih hnext (ha.set hf hd hv hb hreach hsplit hki r.1) r.2

/-! ### Whole runs -/

/-- The two runs as they enter a block. -/
structure Arrives (f : Func) (i : InstId) (v : Value) (w : World) (c : BlockId) (a a' : Arrival) :
    Prop where
  enters : f.Enters c a.pred
  pred : a'.pred = a.pred
  start : a.pred = none → a'.env = a.env
  agrees : ∀ q qq, a.pred = some q → f.block? q = some qq →
    Agrees f i v w q qq.insts a.env a'.env

lemma Arrives.merge {c : BlockId} {a a' : Arrival} (ha : Arrives f i v w c a a')
    (h : Replaced f g i v) (hf : f.Framed) (hd : f.DominatedWhereReached) (hv : f.StandsFor v i)
    (hgives : f.Gives i v) {bb : Block} (hb : f.block? c = some bb) :
    Agrees f i v w c bb.phis (f.mergePhis w bb.phis a)
      (g.mergePhis w (bb.phis.filter (· ≠ i)) a') := by
  obtain ⟨pred, env⟩ := a
  obtain ⟨pred', env'⟩ := a'
  obtain ⟨henters, hpred, hstart, hagrees⟩ := ha
  dsimp only at henters hpred hstart hagrees
  subst hpred
  cases pred' with
  | none =>
    cases henters
    rw [hstart rfl]
    exact Agrees.start hf hgives hb env
  | some q =>
    obtain ⟨hreach, hedge⟩ := henters
    obtain ⟨qq, hq⟩ := exists_block_of_succ hedge
    exact Agrees.step h hf hd hv hgives hq hb hreach hedge (hagrees q qq rfl hq)

/-- Replacing an instruction by a value that it always has changes no run. -/
theorem sameMeaning (h : Replaced f g i v) (hf : f.Framed) (hd : f.DominatedWhereReached)
    (hv : f.StandsFor v i) (hgives : f.Gives i v) : f.SameMeaning g := by
  intro w n
  have hstart : Stage.Rel (Arrives f i v w) (f.begin w) (g.begin w) := by
    refine .entering ⟨rfl, rfl, fun _ => rfl, ?_⟩
    intro q qq hq
    cases hq
  -- both runs enter the same blocks, with environments that agree
  refine (hstart.after ?_ n).sight
  intro c a a' seen ha
  unfold enter
  cases hb : f.block? c with
  | none =>
    rw [h.block, hb]
    exact .done
  | some bb =>
    have hreach := ha.enters.reached
    obtain ⟨t, ht⟩ := hf.ended c bb hb
    rw [h.block_eq hb]
    simp only [ht, Option.map_some]
    have hbegin : Agrees f i v w c (bb.phis ++ []) (f.mergePhis w bb.phis a)
        (g.mergePhis w (bb.phis.filter (· ≠ i)) a') := by
      rw [List.append_nil]
      exact ha.merge h hf hd hv hgives hb
    -- nothing of the body has run when the phis have their values
    have hbody : bb.body = [] ++ bb.body := rfl
    rcases Agrees.foldlM h hf hd hv hgives hb hreach hbody hbegin seen with
      ⟨s, s', hs, hs', hseen, hagrees⟩ | ⟨e, he, he'⟩
    · have hend : ∀ u ∈ t.operands,
          (Value.subst (.inst i) v u).eval w s'.env = u.eval w s.env :=
        fun u hu => hagrees.eval hd hv hreach (.atEnd hb ht hu)
      rw [hs, hs']
      dsimp only
      rw [hseen, Terminator.leave_mapOperands hend]
      refine Terminator.leave_rel (fun _ _ => rfl) ?_
      intro d hedge
      rw [← succs_of_terminator hb ht] at hedge
      refine ⟨⟨hreach, hedge⟩, rfl, ?_, ?_⟩
      · intro hnone
        cases hnone
      · intro q qq hq hqq
        cases hq
        rw [hb] at hqq
        cases hqq
        exact hagrees
    · rw [he, he']
      exact .done

end Replaced

/-- A trivial phi has the one value that it merges. -/
lemma gives_of_trivial {f : Func} (hf : f.Framed) (hd : f.DominatedWhereReached) {i : InstId}
    {node : Phi} (hnode : f.phi? i = some node) {same : Value}
    (ht : node.trivial? i = some same) : f.Gives i same := by
  refine ⟨?_, ?_⟩
  · intro b bb hb _ hi
    obtain ⟨p, hp, -, hphi⟩ := hf.body b bb hb i hi
    obtain ⟨c, hc⟩ := phi?_some hnode
    rw [hp] at hc
    cases hc
    cases hphi
  · intro b bb hb hreach hi node' hnode'
    rw [hnode] at hnode'
    cases hnode'
    obtain ⟨hall, hsame⟩ := Phi.trivial?_some ht
    refine ⟨?_, hall, ?_⟩
    · intro hnil
      exact hsame.resolve_right (by simp [hnil])
    · rintro j rfl hj
      obtain ⟨d, hne, -, hl⟩ := dom_of_trivial hf hd hb hi hnode ht hreach
      exact hne (hf.lists_unique hl ⟨bb, hb, List.mem_append_left _ hj⟩)

/-! ## Blocks that go on to one block -/

/-- Control goes on from block `b` to block `c`, whatever is computed. -/
def GoesTo (f : Func) (b c : BlockId) : Prop :=
  ∃ t, f.terminator? b = some t ∧
    ∀ w env (s : Arrival) seen, t.leave w env s seen = .entering c s seen

lemma GoesTo.mem_succs {f : Func} {b c : BlockId} (h : f.GoesTo b c) : c ∈ f.succs b := by
  obtain ⟨t, ht, hleave⟩ := h
  obtain ⟨bb, hb, ht⟩ := Option.bind_eq_some_iff.1 ht
  rw [succs_of_terminator hb ht]
  -- any world will do to see where control goes
  have hgo := hleave ⟨fun _ => 0, 0, fun _ _ _ => 0, fun _ _ => 0, fun _ => 0⟩ (fun _ => 0)
    ⟨none, fun _ => 0⟩ []
  cases t with
  | jump d =>
    cases hgo
    exact List.mem_singleton_self _
  | branch v d e =>
    cases hgo
    by_cases hde : e = d
    · simp [Terminator.successors, hde]
    · rw [Terminator.successors, if_neg hde]
      split <;> simp
  | ret v => cases hgo

/-- Replacing operands leaves such a block as it is. -/
lemma Replaced.goesTo {f g : Func} {i : InstId} {v : Value} (h : Replaced f g i v) {b c : BlockId}
    (hgo : f.GoesTo b c) : g.GoesTo b c := by
  obtain ⟨t, ht, hleave⟩ := hgo
  obtain ⟨bb, hb, ht⟩ := Option.bind_eq_some_iff.1 ht
  refine ⟨t.mapOperands (Value.subst (.inst i) v), ?_, ?_⟩
  · rw [terminator?_of_block (h.block_eq hb), ht, Option.map_some]
  · intro w env s seen
    have hsame : ∀ u ∈ t.operands, (Value.subst (.inst i) v u).eval w env =
        u.eval w (env.set i (v.eval w env)) := by
      intro u _
      refine Value.eval_subst (fun j hj => (Env.set_ne _ _ hj).symm) fun _ => ?_
      exact (Env.set_self ..).symm
    rw [Terminator.leave_mapOperands hsame, hleave]

/-! ## Taking edges and blocks away -/

namespace Thinned

variable {f g : Func}

/-- Phis receive the same values. -/
lemma mergePhis_eq (h : Thinned f g) (hg : g.Framed) {c : BlockId} {bb' : Block}
    (hb' : g.block? c = some bb') {a : Arrival} (ha : g.Enters c a.pred) (w : World) :
    g.mergePhis w bb'.phis a = f.mergePhis w bb'.phis a := by
  funext k
  unfold mergePhis
  split
  · rename_i hk
    unfold incoming
    cases hpred : a.pred with
    | none => rfl
    | some q =>
      rw [hpred] at ha
      obtain ⟨node', hnode', -⟩ := hg.phis c bb' hb' k hk
      have hphi' := phi?_of_inst hnode'
      obtain ⟨node, hphi, -, hin⟩ := h.phis c bb' hb' k hk node' hphi'
      simp only [Option.bind_some, hphi, hphi', hin q ha.2]
  · rfl

/-- The instructions of a block run as they did. -/
lemma foldlM_eq (h : Thinned f g) {c : BlockId} {bb' : Block} (hb' : g.block? c = some bb')
    {l : List InstId} (hl : l ⊆ bb'.body) (w : World) (s : Frame) :
    l.foldlM (g.execInst w) s = l.foldlM (f.execInst w) s := by
  induction l generalizing s with
  | nil => rfl
  | cons k rest ih =>
    have hk : g.execInst w s k = f.execInst w s k := by
      unfold execInst
      rw [h.body c bb' hb' k (hl List.mem_cons_self)]
    rw [List.foldlM_cons, List.foldlM_cons, hk]
    congr 1
    funext s
    exact ih (fun x hx => hl (List.mem_cons_of_mem _ hx)) s

/-- Taking edges and blocks away changes no run if control leaves the blocks that are still
reached as it did. -/
theorem sameMeaning (h : Thinned f g) (hg : g.Framed)
    (hleave : ∀ b t t', f.terminator? b = some t → g.terminator? b = some t' → g.Reached b →
      ∀ w env (s : Arrival) seen, t.leave w env s seen = t'.leave w env s seen)
    (hended : ∀ b bb, f.block? b = some bb → ∃ t, bb.terminator = some t) : f.SameMeaning g := by
  intro w n
  have hstart : Stage.Rel (fun c a a' => a' = a ∧ g.Enters c a.pred) (f.begin w) (g.begin w) :=
    .entering ⟨rfl, rfl⟩
  refine (hstart.after ?_ n).sight
  rintro c _ a seen ⟨rfl, ha⟩
  have hreach := ha.reached
  unfold enter
  cases hb : f.block? c with
  | none =>
    cases hb' : g.block? c with
    | none => exact .done
    | some bb' =>
      obtain ⟨bb, hbb, -⟩ := h.block c bb' hb'
      rw [hb] at hbb
      cases hbb
  | some bb =>
    obtain ⟨bb', hb'⟩ := h.stays c bb hb hreach
    obtain ⟨bb₀, hb₀, hphis, hbody, -⟩ := h.block c bb' hb'
    rw [hb] at hb₀
    cases hb₀
    obtain ⟨t, ht⟩ := hended c bb hb
    obtain ⟨t', ht'⟩ := hg.ended c bb' hb'
    have hmerge := h.mergePhis_eq hg hb' ha w
    have hrun := h.foldlM_eq hb' (List.Subset.refl _) w ⟨g.mergePhis w bb'.phis a, seen⟩
    rw [hb']
    dsimp only
    rw [hrun, hmerge, hphis, hbody, ht, ht']
    cases bb.body.foldlM (f.execInst w) ⟨f.mergePhis w bb.phis a, seen⟩ with
    | error e => exact .done
    | ok s =>
      dsimp only
      have hterm : f.terminator? c = some t := (terminator?_of_block hb).trans ht
      have hterm' : g.terminator? c = some t' := (terminator?_of_block hb').trans ht'
      rw [hleave c t t' hterm hterm' hreach]
      refine Terminator.leave_rel (fun _ _ => rfl) fun d hd => ⟨rfl, hreach, ?_⟩
      rwa [succs_of_terminator hb' ht']

end Thinned

end Func

end SsaBackend
