import SsaBackend.Proofs.Func.Meaning
import SsaBackend.Proofs.Preheader.Sound

/-!
# A preheader does not show in what is seen

With a preheader a run takes one step more where it enters the loop, so the runs before and after
no longer go through the same blocks. What is seen is the same: the effects so far, and how the
run ends (`Func.SameTrace`). `Stage.outcomes_of_steps` is how that is shown: one step of the one
run is one step of the other, or two of which the first is not seen.

In between, the values of all results agree but for the phis of the preheader, and the phis of
the block that is entered receive the same (`Preheaders.Arrives`). Over an entering edge that is
so once the preheader has been passed: what a phi of the header receives from it is what came in
over the edge (`Preheaders.Inserted.through_preheader`).
-/

namespace SsaBackend

/-! ## What is seen of a run -/

namespace Stage

variable {σ τ : Type}

/-- What is seen of a stage by one who does not see where control is: how the run ended, if it
did, and the effects up to there. -/
def outcome : Stage σ → Option Ending × List Effect
  | entering _ _ seen => (none, seen)
  | done ending seen => (some ending, seen)

lemma Rel.outcome {R : BlockId → σ → τ → Prop} {x : Stage σ} {y : Stage τ} (h : Rel R x y) :
    x.outcome = y.outcome := by
  cases h with
  | entering _ => rfl
  | done => rfl

/-- Two runs are seen to do the same if a step of the first is always one step of the second, or
two of which the first is not seen. -/
lemma outcomes_of_steps {enter : BlockId → σ → List Effect → Stage σ}
    {enter' : BlockId → τ → List Effect → Stage τ} {x : Stage σ} {y : Stage τ}
    (R : Stage σ → Stage τ → Prop) (houtcome : ∀ x y, R x y → x.outcome = y.outcome)
    (hstep : ∀ x y, R x y → R (next enter x) (next enter' y) ∨
      (next enter x).outcome = (next enter' y).outcome ∧
        R (next enter x) (next enter' (next enter' y)))
    (hstart : R x y) :
    (∀ n, ∃ m, (after enter' y m).outcome = (after enter x n).outcome) ∧
      ∀ m, ∃ n, (after enter x n).outcome = (after enter' y m).outcome := by
  -- the second run is never behind, and what was seen of it up to now was seen of the first
  have key : ∀ n, ∃ m, n ≤ m ∧ R (after enter x n) (after enter' y m) ∧
      ∀ k ≤ m, ∃ l, (after enter x l).outcome = (after enter' y k).outcome := by
    intro n
    induction n with
    | zero =>
      refine ⟨0, Nat.le_refl _, hstart, ?_⟩
      intro k hk
      rw [Nat.le_zero.1 hk]
      exact ⟨0, houtcome _ _ hstart⟩
    | succ n ih =>
      obtain ⟨m, hle, hR, hseen⟩ := ih
      rcases hstep _ _ hR with hone | ⟨hquiet, htwo⟩
      · refine ⟨m + 1, by omega, hone, ?_⟩
        intro k hk
        rcases Nat.lt_or_eq_of_le hk with hk | rfl
        · exact hseen k (by omega)
        · exact ⟨n + 1, houtcome _ _ hone⟩
      · refine ⟨m + 2, by omega, htwo, ?_⟩
        intro k hk
        rcases Nat.lt_or_eq_of_le hk with hk | rfl
        · rcases Nat.lt_or_eq_of_le (Nat.lt_succ_iff.1 hk) with hk | rfl
          · exact hseen k (by omega)
          · exact ⟨n + 1, hquiet⟩
        · exact ⟨n + 1, houtcome _ _ htwo⟩
  refine ⟨?_, ?_⟩
  · intro n
    obtain ⟨m, -, hR, -⟩ := key n
    exact ⟨m, (houtcome _ _ hR).symm⟩
  · intro m
    obtain ⟨k, hle, -, hseen⟩ := key m
    exact hseen m hle

end Stage

namespace Func

/-- Two functions that in every world are seen to do the same and end the same way, whatever way
they go. -/
def SameTrace (f g : Func) : Prop :=
  ∀ w, (∀ n, ∃ m, (g.run w m).outcome = (f.run w n).outcome) ∧
    ∀ m, ∃ n, (f.run w n).outcome = (g.run w m).outcome

lemma SameTrace.refl (f : Func) : f.SameTrace f := fun _ => ⟨fun n => ⟨n, rfl⟩, fun n => ⟨n, rfl⟩⟩

lemma SameTrace.trans {f g h : Func} (hfg : f.SameTrace g) (hgh : g.SameTrace h) :
    f.SameTrace h := by
  intro w
  refine ⟨?_, ?_⟩
  · intro n
    obtain ⟨m, hm⟩ := (hfg w).1 n
    obtain ⟨k, hk⟩ := (hgh w).1 m
    exact ⟨k, hk.trans hm⟩
  · intro k
    obtain ⟨m, hm⟩ := (hgh w).2 k
    obtain ⟨n, hn⟩ := (hfg w).2 m
    exact ⟨n, hn.trans hm⟩

end Func

/-! ## Terminators with other targets -/

lemma Terminator.leave_retarget {σ : Type} {w : World} {env : Env} {s s' : σ}
    {seen seen' : List Effect} {t : Terminator} {c old new : BlockId}
    (h : t.leave w env s seen = .entering c s' seen') :
    (t.retarget old new).leave w env s seen = .entering (if c = old then new else c) s' seen' := by
  cases t with
  | jump b =>
    cases h
    rfl
  | branch v x y =>
    cases h
    simp only [retarget, leave]
    split <;> rfl
  | ret v => cases h

lemma Terminator.leave_retarget_done {σ : Type} {w : World} {env : Env} {s : σ}
    {seen seen' : List Effect} {t : Terminator} {ending : Ending} {old new : BlockId}
    (h : t.leave w env s seen = .done ending seen') :
    (t.retarget old new).leave w env s seen = .done ending seen' := by
  cases t with
  | jump b => cases h
  | branch v x y => cases h
  | ret v => exact h

namespace Preheaders

open Func

variable {f g : Func} {header pre : BlockId} {outside : List BlockId} {hh : Block}
  {new : List InstId} {w : World}

/-! ## Values -/

/-- The values of all results agree but for the new phis. -/
def Agree (new : List InstId) (env env' : Env) : Prop := ∀ j, j ∉ new → env' j = env j

/-- A value that names nothing new. -/
def Old (new : List InstId) (v : Value) : Prop := ∀ j, v = .inst j → j ∉ new

lemma Agree.eval {env env' : Env} (h : Agree new env env') {v : Value} (hv : Old new v) :
    v.eval w env' = v.eval w env :=
  Value.eval_congr fun j hj => h j (hv j hj)

lemma Agree.set {env env' : Env} (h : Agree new env env') (i : InstId) (x : Int64) :
    Agree new (env.set i x) (env'.set i x) := by
  intro j hj
  unfold Env.set
  split
  · rfl
  · exact h j hj

namespace Inserted

/-- An instruction that was there is not new. -/
lemma not_new (h : Inserted f g header pre outside hh new) {j : InstId} {p : PlacedInst}
    (hj : f.inst? j = some p) : j ∉ new := by
  intro hmem
  rw [(h.new j hmem).1] at hj
  cases hj

/-- Operands name nothing new. -/
lemma old_operand (h : Inserted f g header pre outside hh new) (hk : f.OperandsKnown)
    {b : BlockId} {bb : Block} (hb : f.block? b = some bb) {v : Value}
    (hv : v ∈ f.blockOperands bb) : Old new v := by
  rintro j rfl
  obtain ⟨p, hp⟩ := hk b bb hb _ hv
  exact h.not_new hp

/-- What flows into a phi names nothing new. -/
lemma old_incoming (h : Inserted f g header pre outside hh new) (hk : f.OperandsKnown)
    {b p : BlockId} {bb : Block} (hb : f.block? b = some bb) {i : InstId} (hi : i ∈ bb.phis)
    {node : Phi} (hnode : f.inst? i = some ⟨.phi node, b⟩) {v : Value}
    (hv : node.incoming? p = some v) : Old new v :=
  h.old_operand hk hb (mem_blockOperands.2
    (.inl ⟨i, List.mem_append_left _ hi, _, hnode, Phi.mem_values_of_incoming? hv⟩))

/-! ## Phis -/

/-- What the phis of a block other than the header receive. -/
lemma phi_keep (h : Inserted f g header pre outside hh new) (he : Entered f header outside hh)
    {c : BlockId} {cc : Block} (hc : f.block? c = some cc) (hne : c ≠ header) {i : InstId}
    (hi : i ∈ cc.phis) {node : Phi} (hnode : f.inst? i = some ⟨.phi node, c⟩) :
    g.phi? i = some node :=
  phi?_of_inst (h.keeps i _ hnode (he.wired.not_phi_of_ne he.block (Ne.symm hne)
    ⟨cc, hc, List.mem_append_left _ hi⟩))

/-- What the phis of the header receive over edges that do not enter, and from the preheader. -/
lemma phi_split (h : Inserted f g header pre outside hh new) (he : Entered f header outside hh)
    {i : InstId} (hi : i ∈ hh.phis) {node : Phi} (hnode : f.inst? i = some ⟨.phi node, header⟩) :
    ∃ node' v, g.phi? i = some node' ∧ node'.incoming? pre = some v ∧
      Receives g outside new node v ∧
      ∀ b, b ≠ pre → b ∉ outside → node'.incoming? b = node.incoming? b := by
  obtain ⟨v, hv, hrec⟩ := h.split i hi node hnode
  obtain ⟨node₁, hnode₁, hperm⟩ := he.wired.phis header hh he.block i hi
  rw [hnode] at hnode₁
  cases hnode₁
  have hnot : pre ∉ (outside.foldl Phi.dropIncoming node).blocks := by
    rw [Phi.blocks_foldl_dropIncoming]
    exact fun hmem => h.not_mem_preds he (hperm.mem_iff.1 (List.diff_subset _ _ hmem))
  refine ⟨_, v, phi?_of_inst hv, ?_, hrec, ?_⟩
  · unfold rerouted
    rw [Phi.incoming?_setIncoming hnot, if_pos rfl]
  · intro b hb hbo
    unfold rerouted
    rw [Phi.incoming?_setIncoming hnot, if_neg hb, Phi.incoming?_foldl_dropIncoming _ hbo]

end Inserted

/-- The two runs as they enter a block that was there: values agree but for the new phis, and
the phis of the block receive the same. -/
structure Arrives (f g : Func) (pre : BlockId) (new : List InstId) (w : World) (b : BlockId)
    (a a' : Arrival) : Prop where
  old : b ≠ pre
  agree : Agree new a.env a'.env
  phis : ∀ bb, f.block? b = some bb → ∀ i ∈ bb.phis, g.incoming w a' i = f.incoming w a i

namespace Inserted

/-- Over an edge that does not enter the header. -/
lemma arrives_edge (h : Inserted f g header pre outside hh new) (he : Entered f header outside hh)
    (hk : f.OperandsKnown) {b c : BlockId} (hedge : c ∈ f.succs b)
    (hnot : ¬ (b ∈ outside ∧ c = header)) {env env' : Env} (ha : Agree new env env') :
    Arrives f g pre new w c ⟨some b, env⟩ ⟨some b, env'⟩ := by
  refine ⟨h.succ_ne he hedge, ha, ?_⟩
  intro cc hc i hi
  obtain ⟨node, hnode, -⟩ := he.wired.phis c cc hc i hi
  have hsame : ∃ node', g.phi? i = some node' ∧ node'.incoming? b = node.incoming? b := by
    by_cases hch : c = header
    · subst hch
      rw [he.block] at hc
      cases hc
      obtain ⟨node', -, hnode', -, -, hin⟩ := h.phi_split he hi hnode
      exact ⟨node', hnode', hin b (h.ne_of_succ hedge) fun hbo => hnot ⟨hbo, rfl⟩⟩
    · exact ⟨node, h.phi_keep he hc hch hi hnode, rfl⟩
  obtain ⟨node', hnode', hin⟩ := hsame
  obtain ⟨v, hv⟩ := he.wired.incoming hc hi (phi?_of_inst hnode) hedge
  unfold incoming
  simp only [Option.bind_some, phi?_of_inst hnode, hnode', hin, hv, Option.getD_some]
  exact ha.eval (h.old_incoming hk hc hi hnode hv)

/-- Through the preheader, over an edge that enters the header. -/
lemma through_preheader (h : Inserted f g header pre outside hh new)
    (he : Entered f header outside hh) (hk : f.OperandsKnown) {b : BlockId} (hb : b ∈ outside)
    {env env' : Env} (ha : Agree new env env') (seen : List Effect) :
    ∃ a', g.enter w pre ⟨some b, env'⟩ seen = .entering header a' seen ∧
      Arrives f g pre new w header ⟨some b, env⟩ a' := by
  refine ⟨⟨some pre, g.mergePhis w new ⟨some b, env'⟩⟩, ?_, h.ne_of_block he.block, ?_, ?_⟩
  · unfold enter
    rw [h.preheader]
    rfl
  · intro j hj
    show g.mergePhis w new ⟨some b, env'⟩ j = env j
    unfold mergePhis
    rw [if_neg hj]
    exact ha j hj
  · intro cc hc i hi
    rw [he.block] at hc
    cases hc
    obtain ⟨node, hnode, -⟩ := he.wired.phis header hh he.block i hi
    obtain ⟨node', v, hnode', hv, hrec, -⟩ := h.phi_split he hi hnode
    obtain ⟨u, hu⟩ := he.wired.incoming he.block hi (phi?_of_inst hnode) (he.edge hb)
    have hold := h.old_incoming hk he.block hi hnode hu
    unfold incoming
    simp only [Option.bind_some, phi?_of_inst hnode, hnode', hv, hu, Option.getD_some]
    rcases hrec with hagree | ⟨k, hkn, rfl, n, hn, hin⟩
    · -- the entering edges agree on the value, which the preheader leaves alone
      rw [hagree b hb] at hu
      cases hu
      refine Value.eval_congr fun j hj => ?_
      unfold mergePhis
      rw [if_neg (hold j hj)]
      exact ha j (hold j hj)
    · -- the phi of the preheader has just received it
      show g.mergePhis w new ⟨some b, env'⟩ k = u.eval w env
      unfold mergePhis
      rw [if_pos hkn]
      unfold incoming
      simp only [Option.bind_some, hn, hin b hb, hu, Option.getD_some]
      exact ha.eval hold

/-! ## Through a block -/

/-- Instructions of a block that was there run as they did. -/
lemma foldlM_agree (h : Inserted f g header pre outside hh new) (he : Entered f header outside hh)
    (hk : f.OperandsKnown) {b : BlockId} {bb : Block} (hb : f.block? b = some bb)
    {l : List InstId} (hl : l ⊆ bb.body) {env env' : Env} (ha : Agree new env env')
    (seen : List Effect) :
    (∃ s s', l.foldlM (f.execInst w) ⟨env, seen⟩ = .ok s ∧
        l.foldlM (g.execInst w) ⟨env', seen⟩ = .ok s' ∧ s'.seen = s.seen ∧
        Agree new s.env s'.env) ∨
      ∃ e, l.foldlM (f.execInst w) ⟨env, seen⟩ = .error e ∧
        l.foldlM (g.execInst w) ⟨env', seen⟩ = .error e := by
  induction l generalizing env env' seen with
  | nil => exact .inl ⟨_, _, rfl, rfl, rfl, ha⟩
  | cons k rest ih =>
    have hkb : k ∈ bb.body := hl List.mem_cons_self
    have hrest : rest ⊆ bb.body := fun x hx => hl (List.mem_cons_of_mem _ hx)
    obtain ⟨p, hp, -, hphi⟩ := he.wired.body b bb hb k hkb
    have hp' : g.inst? k = some p := h.keeps k p hp (he.not_phi hp hphi)
    have hsame : p.inst.exec w env' seen = p.inst.exec w env seen := by
      refine Inst.exec_congr fun v hv => ha.eval (h.old_operand hk hb ?_)
      exact mem_blockOperands.2 (.inl ⟨k, List.mem_append_right _ hkb, p, hp, hv⟩)
    rw [List.foldlM_cons, List.foldlM_cons]
    unfold execInst
    rw [hp, hp']
    dsimp only
    rw [hsame]
    cases p.inst.exec w env seen with
    | none => exact .inr ⟨_, rfl, rfl⟩
    | some r => exact ih hrest (ha.set k r.1) r.2

/-- Once the phis of a block have their values. -/
lemma agree_mergePhis {b : BlockId} {bb : Block} (hb : f.block? b = some bb) {a a' : Arrival}
    (ha : Arrives f g pre new w b a a') :
    Agree new (f.mergePhis w bb.phis a) (g.mergePhis w bb.phis a') := by
  intro j hj
  unfold mergePhis
  split
  · rename_i hmem
    exact ha.phis bb hb j hmem
  · exact ha.agree j hj

/-- The terminator of a block, if the preheader `pre` is put in front of `header`. -/
def led (header pre : BlockId) (outside : List BlockId) (b : BlockId) (t : Terminator) :
    Terminator :=
  if b ∈ outside then t.retarget header pre else t

lemma leave_led_done {σ : Type} {env : Env} {s : σ} {seen seen' : List Effect} {t : Terminator}
    {ending : Ending} (b : BlockId) (h : t.leave w env s seen = .done ending seen') :
    (led header pre outside b t).leave w env s seen = .done ending seen' := by
  unfold led
  split
  · exact Terminator.leave_retarget_done h
  · exact h

/-- Control turns into the preheader exactly on the edges that enter the header. -/
lemma leave_led {σ : Type} {env : Env} {s s' : σ} {seen seen' : List Effect} {t : Terminator}
    {b c : BlockId} (h : t.leave w env s seen = .entering c s' seen') :
    (led header pre outside b t).leave w env s seen =
      .entering (if b ∈ outside ∧ c = header then pre else c) s' seen' := by
  unfold led
  by_cases hb : b ∈ outside
  · simp only [hb, if_true, true_and]
    exact Terminator.leave_retarget h
  · simp only [hb, if_false, false_and]
    exact h

/-- Where control goes at the end of a block: to the same place, or through the preheader. -/
lemma leave_steps (h : Inserted f g header pre outside hh new) (he : Entered f header outside hh)
    (hk : f.OperandsKnown) {b : BlockId} {bb : Block} (hb : f.block? b = some bb)
    {t : Terminator} (ht : bb.terminator = some t) {env env' : Env} (ha : Agree new env env')
    (seen : List Effect) :
    Stage.Rel (Arrives f g pre new w) (t.leave w env ⟨some b, env⟩ seen)
        ((led header pre outside b t).leave w env' ⟨some b, env'⟩ seen) ∨
      ∃ a₁ a₂ seen', t.leave w env ⟨some b, env⟩ seen = .entering header a₁ seen' ∧
        (led header pre outside b t).leave w env' ⟨some b, env'⟩ seen = .entering pre a₂ seen' ∧
        Stage.Rel (Arrives f g pre new w) (.entering header a₁ seen') (g.enter w pre a₂ seen') := by
  have hvals : ∀ v ∈ t.operands, v.eval w env = v.eval w env' := fun v hv =>
    (ha.eval (h.old_operand hk hb (mem_blockOperands.2 (.inr ⟨t, ht, hv⟩)))).symm
  have hsuccs := succs_of_terminator hb ht
  -- where control went without the preheader, and where it would go if edges had stayed
  have hrel : Stage.Rel (fun c x x' => c ∈ f.succs b ∧ x = (⟨some b, env⟩ : Arrival) ∧
      x' = (⟨some b, env'⟩ : Arrival)) (t.leave w env ⟨some b, env⟩ seen)
      (t.leave w env' ⟨some b, env'⟩ seen) :=
    Terminator.leave_rel hvals fun c hc => ⟨hsuccs ▸ hc, rfl, rfl⟩
  generalize hx : t.leave w env (⟨some b, env⟩ : Arrival) seen = x at hrel ⊢
  generalize hy : t.leave w env' (⟨some b, env'⟩ : Arrival) seen = y at hrel
  cases hrel with
  | done =>
    left
    rw [leave_led_done b hy]
    exact .done
  | @entering c _ _ seen' hc =>
    obtain ⟨hedge, rfl, rfl⟩ := hc
    rw [leave_led hy]
    by_cases hturn : b ∈ outside ∧ c = header
    · right
      obtain ⟨a₂, hpass, harrive⟩ := h.through_preheader (w := w) he hk hturn.1 ha seen'
      refine ⟨⟨some b, env⟩, ⟨some b, env'⟩, seen', by rw [hturn.2], by rw [if_pos hturn], ?_⟩
      rw [hpass]
      exact .entering harrive
    · left
      rw [if_neg hturn]
      exact .entering (h.arrives_edge (w := w) he hk hedge hturn ha)

/-- A step of the run without the preheader is a step of the run with it, or two steps through
the preheader. -/
lemma steps (h : Inserted f g header pre outside hh new) (he : Entered f header outside hh)
    (hk : f.OperandsKnown) {b : BlockId} {a a' : Arrival} (ha : Arrives f g pre new w b a a')
    (seen : List Effect) :
    Stage.Rel (Arrives f g pre new w) (f.enter w b a seen) (g.enter w b a' seen) ∨
      ∃ a₁ a₂ seen', f.enter w b a seen = .entering header a₁ seen' ∧
        g.enter w b a' seen = .entering pre a₂ seen' ∧
        Stage.Rel (Arrives f g pre new w) (.entering header a₁ seen') (g.enter w pre a₂ seen') := by
  have hold := h.old b ha.old
  cases hb : f.block? b with
  | none =>
    rw [hb] at hold
    unfold enter
    rw [hb, hold]
    exact .inl .done
  | some bb =>
    obtain ⟨t, ht⟩ := he.wired.ended b bb hb
    have hled : (if b ∈ outside then bb.terminator.map (·.retarget header pre)
        else bb.terminator) = some (led header pre outside b t) := by
      rw [ht, Option.map_some, ← apply_ite some]
      rfl
    rw [hb, Option.map_some, hled] at hold
    rcases h.foldlM_agree (w := w) he hk hb (List.Subset.refl _) (agree_mergePhis hb ha) seen with
      ⟨s, s', hs, hs', hseen, hagree⟩ | ⟨e, hs, hs'⟩
    · have hf : f.enter w b a seen = t.leave w s.env ⟨some b, s.env⟩ s.seen := by
        unfold enter
        rw [hb]
        simp only [ht, hs]
      have hg : g.enter w b a' seen =
          (led header pre outside b t).leave w s'.env ⟨some b, s'.env⟩ s.seen := by
        unfold enter
        rw [hold]
        simp only [hs', hseen]
      rw [hf, hg]
      exact h.leave_steps he hk hb ht hagree s.seen
    · unfold enter
      rw [hb, hold]
      simp only [hs, hs']
      exact .inl .done

/-! ## Whole runs -/

/-- Inserting a preheader does not show in what is seen. -/
theorem sameTrace (h : Inserted f g header pre outside hh new) (he : Entered f header outside hh)
    (hk : f.OperandsKnown) : f.SameTrace g := by
  intro w
  refine Stage.outcomes_of_steps (Stage.Rel (Arrives f g pre new w)) (fun _ _ hR => hR.outcome)
    ?_ ?_
  · intro x y hR
    cases hR with
    | done => exact .inl .done
    | @entering b a a' seen ha =>
      rcases h.steps he hk ha seen with hone | ⟨a₁, a₂, seen', hf, hg, htwo⟩
      · exact .inl hone
      · refine .inr ⟨?_, ?_⟩
        · show (f.enter w b a seen).outcome = (g.enter w b a' seen).outcome
          rw [hf, hg]
          rfl
        · show Stage.Rel _ (f.enter w b a seen) (Stage.next _ (g.enter w b a' seen))
          rw [hf, hg]
          exact htwo
  · obtain ⟨ee, hee⟩ := he.wired.start
    refine .entering ⟨h.ne_of_block hee, fun _ _ => rfl, ?_⟩
    intro bb _ i _
    rfl

end Inserted

end Preheaders

end SsaBackend
