import SsaBackend.Proofs.Build.Faithful
import SsaBackend.Proofs.Func.Verified

/-!
# Construction preserves meaning

A function that renders a program and passes the structural checks runs like it. At every point
the instructions whose labels have their homes above it have the values of their labels
(`Shows`); entering a block, a statement and its code, and the terminator keep that, and
`build_preserves_meaning` reads it along whole runs: whatever calls a function was built by, in
whatever order, it goes the way of the program over variables that the calls were, and is seen
to do the same.
-/

namespace SsaBackend

open Program
open Moment (content result operand)

variable {S : Program} {w : World} {N : Naming S} {G : List InstId} {f : Func} {π π' : Place}
  {m m' : Moment} {env env' : Env} {b : BlockId} {v : Value} {j : Nat}

/-! ## Environments at a moment -/

/-- The instructions that are there and have their homes above `π` have the values of their
labels. -/
def Shows (f : Func) (N : Naming S) (π : Place) (m : Moment) (env : Env) : Prop :=
  ∀ i p l, f.inst? i = some p → N.label i = some l → S.Dom l.home π → env i = l.value m

namespace Shows

/-- An operand that is there and available has its value. -/
lemma eval (h : Shows f N π m env) (hv : N.Avail v π)
    (hlive : ∀ i, v = .inst i → ∃ p, f.inst? i = some p) : v.eval w env = N.den w m v := by
  cases v with
  | inst i =>
    obtain ⟨l, hl, hdom⟩ := hv i rfl
    obtain ⟨p, hp⟩ := hlive i rfl
    show env i = (N.label i).elim _ _
    rw [h i p l hp hl hdom, hl]
    rfl
  | const c | arg n | undef => rfl

/-- An operand that holds a quantity of the program has its value. -/
lemma eval_holds {q : Moment → Int64} (h : Shows f N π m env) (hm : At w S π m)
    (hv : N.Holds w v q π) (hlive : ∀ i, v = .inst i → ∃ p, f.inst? i = some p) :
    v.eval w env = q m := by
  rw [h.eval hv.avail hlive, hv.value m hm]

/-- A move is matched if the instructions at home where it leads take their values, and all
others keep theirs. -/
lemma move (h : Shows f N π m env) (hS : S.Once) (hmove : Moves w S π m π' m')
    (hhome : ∀ i p l, f.inst? i = some p → N.label i = some l → l.home = π' → env' i = l.value m')
    (hkeep : ∀ i p l, f.inst? i = some p → N.label i = some l → l.home ≠ π' → env' i = env i) :
    Shows f N π' m' env' := by
  intro i p l hp hl hdom
  by_cases he : l.home = π'
  · exact hhome i p l hp hl he
  · rw [hkeep i p l hp hl he, h i p l hp hl (hdom.of_edge he hmove.step)]
    exact (l.value_moves hS (N.legal i l hl) hmove (Ne.symm he)).symm

/-- No instruction has its home where a program begins. -/
lemma at_origin (f : Func) (N : Naming S) (m : Moment) (env : Env) : Shows f N origin m env := by
  intro i p l _ hl hdom
  have hhome := hdom.eq_start
  cases l with
  | code k b j => cases hhome
  | merge b x =>
    cases hhome
    exact absurd rfl (N.legal i _ hl)

end Shows

/-! ## Entering a block -/

/-- A label of the beginning of a block is that of a phi of the block, which the block lists. -/
lemma Func.Renders.phi_of_home (h : f.Renders w S N G) {i : InstId} {p : PlacedInst} {l : Label}
    (hp : f.inst? i = some p) (hl : N.label i = some l) (hhome : l.home = (b, 0)) :
    ∃ x node bb, l = .merge b x ∧ f.inst? i = some ⟨.phi node, b⟩ ∧ f.block? b = some bb ∧
      i ∈ bb.phis := by
  obtain ⟨inst, c⟩ := p
  cases l with
  | code k c j => cases hhome
  | merge c' x =>
    cases hhome
    cases hphi : inst.isPhi with
    | false =>
      obtain ⟨k, j, told, g, hl', -⟩ := h.code i _ hp hphi
      rw [hl] at hl'
      cases hl'
    | true =>
      obtain ⟨node, rfl⟩ := Inst.isPhi_iff.1 hphi
      obtain ⟨y, hy, -⟩ := h.phi i c node hp
      rw [hl] at hy
      cases hy
      obtain ⟨bb, hbb, hmem⟩ := h.listed i b node hp
      exact ⟨x, node, bb, rfl, hp, hbb, hmem⟩

/-- The operands of an instruction that a block lists are there. -/
lemma Func.Verified.live_operand (hv : f.Verified) {bb : Block} (hbb : f.block? b = some bb)
    {i : InstId} (hi : i ∈ bb.insts) {p : PlacedInst} (hp : f.inst? i = some p)
    (hmem : v ∈ p.inst.operands) : ∀ j, v = .inst j → ∃ q, f.inst? j = some q := by
  intro j hj
  subst hj
  apply hv.operands b bb hbb j
  refine List.mem_append_left _ (List.mem_flatMap.2 ⟨p, ?_, hmem⟩)
  exact List.mem_filterMap.2 ⟨i, hi, hp⟩

/-- On entry from a predecessor the phis take the contents of their variables. -/
lemma Shows.enter (hf : f.Renders w S N G) (hv : f.Verified) (hS : S.Once) {p : BlockId}
    {bb : Block} (hedge : S.Edge p b) (hbb : f.block? b = some bb) (hm : At w S (S.final p) m)
    (h : Shows f N (S.final p) m env) :
    Shows f N (b, 0) (m.enter b) (f.mergePhis w bb.phis ⟨some p, env⟩) := by
  have hpred : p ∈ bb.preds := by
    rw [← Func.preds_of_block hbb]
    exact (hf.preds b p).2 hedge
  apply h.move (w := w) hS (.edge hedge)
  · -- a phi of the block takes what flows in, and that is the content
    intro i q l hq hl hhome
    obtain ⟨x, node, bb', rfl, hnode, hbb', hmem⟩ := hf.phi_of_home hq hl hhome
    rw [hbb] at hbb'
    cases hbb'
    obtain ⟨node', hnode', -, hall⟩ := hv.phis b bb hbb i hmem
    rw [hnode] at hnode'
    cases hnode'
    obtain ⟨u, hu⟩ := Option.isSome_iff_exists.1 (hall p hpred)
    obtain ⟨op, hop, rfl, rfl⟩ := Phi.incoming?_some hu
    obtain ⟨y, hy, hops⟩ := hf.phi i b node hnode
    rw [hl] at hy
    cases hy
    have hlive := hv.live_operand hbb (List.mem_append_left _ hmem) hnode
      (v := op.value) (List.mem_map_of_mem hop)
    have hphi : f.phi? i = some node := by
      unfold Func.phi?
      rw [hnode]
      rfl
    have hmerge : f.mergePhis w bb.phis ⟨some op.block, env⟩ i = op.value.eval w env := by
      unfold Func.mergePhis Func.incoming
      rw [if_pos hmem]
      simp [hphi, hu]
    rw [hmerge, h.eval_holds hm (hops op hop) hlive]
    simp [Label.value, Moment.enter, content]
  · -- all other instructions are none of its phis
    intro i q l hq hl hhome
    unfold Func.mergePhis
    rw [if_neg]
    intro hmem
    obtain ⟨node, hnode, -⟩ := hv.phis b bb hbb i hmem
    obtain ⟨x, hx, -⟩ := hf.phi i b node hnode
    rw [hl] at hx
    cases hx
    exact hhome rfl

/-! ## Statements and their code -/

/-- How the statements of a block and the code of the block end: both stop for the same reason,
or both come to the end of the block. -/
def Abreast (w : World) (f : Func) (N : Naming S) (b : BlockId)
    (x : Except Halt (Memory × List Effect)) (y : Except Halt Frame) : Prop :=
  (∃ halt, x = .error halt ∧ y = .error halt) ∨
    ∃ m env seen, x = .ok (m.memory, seen) ∧ y = .ok ⟨env, seen⟩ ∧ At w S (S.final b) m ∧
      Shows f N (S.final b) m env

/-- A statement without code changes the value of no instruction. -/
lemma Shows.pass (h : Shows f N (b, j) m env) (hS : S.Once)
    (hmove : Moves w S (b, j) m (b, j + 1) m')
    (hs : ∀ k inst, (S.stmts b)[j]? ≠ some (.compute k inst)) : Shows f N (b, j + 1) m' env := by
  apply h.move hS hmove
  · intro i p l _ hl hhome
    cases l with
    | code k c n =>
      cases hhome
      obtain ⟨inst, hinst⟩ := N.legal i _ hl
      exact absurd hinst (hs k inst)
    | merge c x => cases hhome
  · intro i p l _ _ _
    rfl

/-- The code of a statement takes the result of the statement. -/
lemma Shows.compute (hf : f.Renders w S N G) (h : Shows f N (b, j) m env) (hS : S.Once)
    (hmove : Moves w S (b, j) m (b, j + 1) m') {i k : InstId} {told : Inst}
    (hs : (S.stmts b)[j]? = some (.compute k told)) (hi : N.label i = some (.code k b j)) :
    Shows f N (b, j + 1) m' (env.set i (m'.result k)) := by
  apply h.move hS hmove
  · intro i' p l _ hl hhome
    cases l with
    | code k' c n =>
      cases hhome
      obtain ⟨inst, hinst⟩ := N.legal i' _ hl
      rw [hs] at hinst
      cases hinst
      rw [hf.once i' i k b j hl hi]
      exact Env.set_self ..
    | merge c x => cases hhome
  · intro i' p l _ hl hhome
    apply Env.set_ne
    intro he
    rw [he, hi] at hl
    cases hl
    exact hhome rfl

/-- The code of a statement computes what the statement does. -/
lemma exec_code (hf : f.Renders w S N G) (hv : f.Verified) (hm : At w S (b, j) m)
    (h : Shows f N (b, j) m env) {bb : Block} (hbb : f.block? b = some bb) {i k : InstId}
    {told : Inst} (hmem : i ∈ bb.body) (hs : (S.stmts b)[j]? = some (.compute k told))
    (hi : N.label i = some (.code k b j)) (seen : List Effect) :
    ∃ p, f.inst? i = some p ∧ p.inst.exec w env seen = told.exec w m.memory.results seen := by
  obtain ⟨p, hp, -, hphi⟩ := hv.body b bb hbb i hmem
  refine ⟨p, hp, ?_⟩
  obtain ⟨k', j', told', g, hl, hs', he, hops⟩ := hf.code i p hp hphi
  rw [hi] at hl
  obtain ⟨inst, c⟩ := p
  cases hl
  rw [hs] at hs'
  cases hs'
  change inst = _ at he
  subst he
  apply Inst.exec_mapOperands
  intro v hv'
  apply h.eval_holds hm (hops v hv')
  apply hv.live_operand hbb (List.mem_append_right _ hmem) hp
  rw [Inst.operands_mapOperands]
  exact List.mem_map_of_mem hv'

/-- A statement without code: only the program moves. -/
lemma step_pass (hS : S.Once) {s : Stmt} (hs : (S.stmts b)[j]? = some s)
    (hnot : ∀ k inst, s ≠ .compute k inst) {mem : Memory} {seen : List Effect}
    (he : s.exec w m.memory seen = some (mem, seen)) (hm : At w S (b, j) m)
    (h : Shows f N (b, j) m env) :
    execStmt w (m.memory, seen) s = .ok (mem, seen) ∧
      At w S (b, j + 1) { m with memory := mem } ∧
      Shows f N (b, j + 1) { m with memory := mem } env := by
  have hmove : Moves w S (b, j) m (b, j + 1) { m with memory := mem } := .stmt hs he
  refine ⟨?_, .step hm hmove, h.pass hS hmove ?_⟩
  · unfold execStmt
    rw [he]
  · intro k inst hc
    rw [hs] at hc
    exact hnot k inst (Option.some.inj hc)

/-- A statement and its code trap together, or they move together. -/
lemma step_code (hf : f.Renders w S N G) (hv : f.Verified) (hS : S.Once)
    (hm : At w S (b, j) m) (h : Shows f N (b, j) m env) {bb : Block}
    (hbb : f.block? b = some bb) {i k : InstId} {told : Inst} (hmem : i ∈ bb.body)
    (hs : (S.stmts b)[j]? = some (.compute k told)) (hi : N.label i = some (.code k b j))
    (seen : List Effect) :
    (execStmt w (m.memory, seen) (.compute k told) = .error (.trapped, seen) ∧
      f.execInst w ⟨env, seen⟩ i = .error (.trapped, seen)) ∨
    ∃ mem env' seen', execStmt w (m.memory, seen) (.compute k told) = .ok (mem, seen') ∧
      f.execInst w ⟨env, seen⟩ i = .ok ⟨env', seen'⟩ ∧
      At w S (b, j + 1) { m with memory := mem } ∧
      Shows f N (b, j + 1) { m with memory := mem } env' := by
  obtain ⟨p, hp, hexec⟩ := exec_code hf hv hm h hbb hmem hs hi seen
  cases hres : told.exec w m.memory.results seen with
  | none =>
    refine .inl ⟨?_, ?_⟩
    · simp [execStmt, Stmt.exec, hres]
    · simp [Func.execInst, hp, hexec, hres]
  | some r =>
    let mem : Memory := { m.memory with results := m.memory.results.set k r.1 }
    have he : (Stmt.compute k told).exec w m.memory seen = some (mem, r.2) := by
      simp [Stmt.exec, hres, mem]
    have hmove : Moves w S (b, j) m (b, j + 1) { m with memory := mem } := .stmt hs he
    have hshows := h.compute hf hS hmove hs hi
    have hresult : ({ m with memory := mem } : Moment).result k = r.1 := Env.set_self ..
    rw [hresult] at hshows
    refine .inr ⟨mem, env.set i r.1, r.2, ?_, ?_, .step hm hmove, hshows⟩
    · simp [execStmt, he]
    · simp [Func.execInst, hp, hexec, hres]

/-- The statements of a block from one of them on, and the code from theirs on, come abreast. -/
lemma abreast_from (hf : f.Renders w S N G) (hv : f.Verified) (hS : S.Once) {bb : Block}
    (hbb : f.block? b = some bb) (told rest : List Stmt) (code : List InstId) (seen : List Effect)
    (hstmts : S.stmts b = told ++ rest) (hcode : ∀ i ∈ code, i ∈ bb.body)
    (hlabels : code.map N.label = (codesFrom b told.length rest).map some)
    (hm : At w S (b, told.length) m) (h : Shows f N (b, told.length) m env) :
    Abreast w f N b (rest.foldlM (execStmt w) (m.memory, seen))
      (code.foldlM (f.execInst w) ⟨env, seen⟩) := by
  induction rest generalizing told code seen m env with
  | nil =>
    have hnil : code = [] := List.map_eq_nil_iff.1 hlabels
    have hfinal : S.final b = (b, told.length) := by
      unfold final Program.length
      rw [hstmts, List.append_nil]
    subst hnil
    exact .inr ⟨m, env, seen, rfl, rfl, hfinal ▸ hm, hfinal ▸ h⟩
  | cons s rest ih =>
    have hs : (S.stmts b)[told.length]? = some s := by
      rw [hstmts, List.getElem?_append_right (Nat.le_refl _), Nat.sub_self]
      rfl
    have hnext : S.stmts b = (told ++ [s]) ++ rest := by
      rw [hstmts, List.append_assoc]
      rfl
    have hlen : (told ++ [s]).length = told.length + 1 := by simp
    -- the code that is left belongs to the statements that are left
    have hpass : ∀ mem, s.exec w m.memory seen = some (mem, seen) →
        (∀ k inst, s ≠ .compute k inst) →
        code.map N.label = (codesFrom b (told.length + 1) rest).map some →
        Abreast w f N b ((s :: rest).foldlM (execStmt w) (m.memory, seen))
          (code.foldlM (f.execInst w) ⟨env, seen⟩) := by
      intro mem he hnot hlabels
      obtain ⟨hexec, hm', h'⟩ := step_pass hS hs hnot he hm h
      rw [List.foldlM_cons, hexec]
      rw [← hlen] at hlabels hm' h'
      exact ih (told ++ [s]) code seen hnext hcode hlabels hm' h'
    cases s with
    | assign x v => exact hpass _ rfl (by rintro k inst ⟨⟩) hlabels
    | read k x => exact hpass _ rfl (by rintro k inst ⟨⟩) hlabels
    | compute k inst =>
      obtain ⟨i, code', rfl, hi, hrest⟩ := List.map_eq_cons_iff.1 hlabels
      rw [List.foldlM_cons, List.foldlM_cons]
      rcases step_code hf hv hS hm h hbb (hcode i List.mem_cons_self) hs hi seen with
        ⟨hleft, hright⟩ | ⟨mem, env', seen', hleft, hright, hm', h'⟩
      · rw [hleft, hright]
        exact .inl ⟨_, rfl, rfl⟩
      · rw [hleft, hright]
        rw [← hlen] at hrest hm' h'
        exact ih (told ++ [.compute k inst]) code' seen' hnext
          (fun i hi => hcode i (List.mem_cons_of_mem _ hi)) hrest hm' h'

/-! ## Whole runs -/

/-- What holds between two blocks: control comes from the end of a predecessor, where the values
are shown, or it is at the beginning. -/
def Between (w : World) (f : Func) (N : Naming S) (b : BlockId) (mem : Memory) (a : Arrival) :
    Prop :=
  (b = entry ∧ mem = blank w ∧ a.pred = none) ∨
    ∃ p m, a.pred = some p ∧ mem = m.memory ∧ S.Edge p b ∧ At w S (S.final p) m ∧
      Shows f N (S.final p) m a.env

/-- When a block is entered, the values are shown at its beginning. -/
lemma Between.arrive (hf : f.Renders w S N G) (hv : f.Verified) (hS : S.Once) {mem : Memory}
    {a : Arrival} (h : Between w f N b mem a) :
    ∃ bb m, f.block? b = some bb ∧ mem = m.memory ∧ At w S (b, 0) m ∧
      Shows f N (b, 0) m (f.mergePhis w bb.phis a) := by
  obtain ⟨pred, env⟩ := a
  rcases h with ⟨rfl, rfl, -⟩ | ⟨p, m, hpred, rfl, hedge, hm, hshows⟩
  · obtain ⟨bb, hbb⟩ := hv.entry
    exact ⟨bb, .first w, hbb, rfl, .first, .at_origin f N _ _⟩
  · change pred = some p at hpred
    subst hpred
    obtain ⟨bb, hbb⟩ := hv.exists_block ((hv.linked p b).2 ((hf.preds b p).2 hedge))
    exact ⟨bb, m.enter b, hbb, rfl, .step hm (.edge hedge), hshows.enter hf hv hS hedge hbb hm⟩

/-- Where the program ends a block, the function ends it the same way. -/
lemma Between.leave (hf : f.Renders w S N G) (hv : f.Verified) {bb : Block}
    (hbb : f.block? b = some bb) (hm : At w S (S.final b) m) (h : Shows f N (S.final b) m env)
    (seen : List Effect) :
    ∃ t t', S.terminator? b = some t ∧ bb.terminator = some t' ∧
      Stage.Rel (Between w f N) (t.leave w m.memory.results m.memory seen)
        (t'.leave w env ⟨some b, env⟩ seen) := by
  obtain ⟨t', ht'⟩ := hv.ended b bb hbb
  obtain ⟨g, hend, hops⟩ := hf.ends b bb hbb
  cases ht : S.terminator? b with
  | none =>
    rw [ht, ht'] at hend
    cases hend
  | some t =>
    rw [ht, ht'] at hend
    cases hend
    refine ⟨t, _, rfl, ht', ?_⟩
    have hvalues : ∀ v ∈ t.operands, (g v).eval w env = v.eval w m.memory.results := by
      intro v hmem
      apply h.eval_holds hm (hops t ht v hmem)
      intro j hj
      apply hv.operands b bb hbb j
      apply List.mem_append_right
      rw [ht', ← hj, Option.elim_some, Terminator.operands_mapOperands]
      exact List.mem_map_of_mem hmem
    rw [Terminator.leave_mapOperands hvalues]
    apply Terminator.leave_rel
    · intro v _
      rfl
    · intro c hc
      exact .inr ⟨b, m, rfl, rfl, ⟨t, ht, hc⟩, hm, h⟩

/-- Running a block keeps program and function abreast. -/
lemma Between.enter (hf : f.Renders w S N G) (hv : f.Verified) (hS : S.Once) {mem : Memory}
    {a : Arrival} (h : Between w f N b mem a) (seen : List Effect) :
    Stage.Rel (Between w f N) (S.enter w b mem seen) (f.enter w b a seen) := by
  obtain ⟨bb, m, hbb, rfl, hm, hshows⟩ := h.arrive hf hv hS
  have habreast := abreast_from hf hv hS hbb [] (S.stmts b) bb.body seen rfl (fun i hi => hi)
    (hf.body b bb hbb) hm hshows
  unfold Program.enter Func.enter
  rw [hbb]
  rcases habreast with ⟨halt, hx, hy⟩ | ⟨m', env', seen', hx, hy, hm', hshows'⟩
  · simp only [hx, hy]
    exact .done
  · obtain ⟨t, t', ht, ht', hrel⟩ := Between.leave hf hv hbb hm' hshows' seen'
    simp only [hx, hy, ht, ht']
    exact hrel

/-- A function that renders a whole program and passes the checks runs like the program. -/
lemma Func.Renders.run_sight (hf : f.Renders w S N G) (hv : f.Verified) (hS : S.Once) (n : Nat) :
    (f.run w n).sight = (S.run w n).sight := by
  have hstart : Stage.Rel (Between w f N) (.entering Program.entry (blank w) []) (f.begin w) :=
    .entering (.inl ⟨rfl, rfl, rfl⟩)
  have hrun := hstart.after (fun b mem a seen h => h.enter hf hv hS seen) n
  exact hrun.sight.symm

/-- Construction is correct. Take any calls of a builder, in any order of blocks and with any
order of sealing, such that variables are accessed only in blocks that are not complete and
values are used only where the calls that gave them dominate. If finishing gives a function, it
runs like the program over variables that the calls are read as: in every world it enters the
same blocks, is seen to do the same and returns the same. -/
theorem build_preserves_meaning {name : String} {numArgs : Nat} {script : List Call} {f : Func}
    {P : Program} (hbuild : build name numArgs script = .ok (f, P))
    (hscript : (Recording.start name numArgs).allowsAll script = true) (hscoped : P.Scoped)
    (w : World) (n : Nat) : (f.run w n).sight = (P.run w n).sight := by
  unfold build at hbuild
  obtain ⟨r, hplay, hbuild⟩ := except_bind_ok.1 hbuild
  obtain ⟨g, hfinish, hbuild⟩ := except_bind_ok.1 hbuild
  cases hbuild
  have hstart := Recording.InOrder.start name numArgs
  obtain ⟨horder, hcont⟩ := hstart.play hscript hplay
  have hself : r.Becomes r.program := by
    refine ⟨⟨.refl _, horder.numbered.once, ?_⟩, fun _ _ _ hp => hp, ?_⟩
    · -- the entry was sealed before it had a predecessor
      intro p hp
      obtain ⟨t, ht, -⟩ := hcont.closed entry rfl p hp
      cases ht
    · intro k π hk
      exact (hscoped k π hk).dominates
  have hfaithful := (Recording.Faithful.start w name numArgs).play hstart hscript hplay
  obtain ⟨hverify, N, G, hf⟩ := hfaithful.finish hself hfinish
  exact hf.run_sight (Func.verified_of_verify hverify) horder.numbered.once n

/-- A countdown: the loop stores `x` and counts it down until it is zero. The loop is sealed
once its edge back is there, and what follows it only at the end. -/
def countdown : List Call :=
  [ .createBlock, .createBlock,
    .emit (.binary .add (.arg 0) (.int 1)) rfl,
    .define ⟨0⟩ (.inst ⟨2⟩),
    .leave (.jump ⟨1⟩),
    .switchTo ⟨1⟩,
    .use ⟨0⟩,
    .emit (.store (.inst ⟨2⟩) (.inst ⟨6⟩)) rfl,
    .emit (.binary .sub (.inst ⟨6⟩) (.int 1)) rfl,
    .define ⟨0⟩ (.inst ⟨8⟩),
    .leave (.branch (.inst ⟨8⟩) ⟨1⟩ ⟨2⟩),
    .sealBlock ⟨1⟩,
    .switchTo ⟨2⟩,
    .use ⟨0⟩,
    .leave (.ret (some (.inst ⟨13⟩))) ]

/-- The countdown as a program over variables. -/
def countdownProgram : Program :=
  ⟨⟨[(0, ⟨[.compute ⟨2⟩ (.binary .add (.arg 0) (.int 1)), .assign ⟨0⟩ (.inst ⟨2⟩)],
      some (.jump ⟨1⟩)⟩),
    (1, ⟨[.read ⟨6⟩ ⟨0⟩, .compute ⟨7⟩ (.store (.inst ⟨2⟩) (.inst ⟨6⟩)),
      .compute ⟨8⟩ (.binary .sub (.inst ⟨6⟩) (.int 1)), .assign ⟨0⟩ (.inst ⟨8⟩)],
      some (.branch (.inst ⟨8⟩) ⟨1⟩ ⟨2⟩)⟩),
    (2, ⟨[.read ⟨13⟩ ⟨0⟩], some (.ret (some (.inst ⟨13⟩)))⟩)]⟩⟩

/-- The countdown uses results only where they are in scope. -/
lemma countdownProgram_scoped : countdownProgram.Scoped := by
  have h2 : countdownProgram.MadeAt ⟨2⟩ ⟨0⟩ 0 := ⟨_, rfl, rfl⟩
  have h6 : countdownProgram.MadeAt ⟨6⟩ ⟨1⟩ 0 := ⟨_, rfl, rfl⟩
  have h8 : countdownProgram.MadeAt ⟨8⟩ ⟨1⟩ 2 := ⟨_, rfl, rfl⟩
  have h13 : countdownProgram.MadeAt ⟨13⟩ ⟨2⟩ 0 := ⟨_, rfl, rfl⟩
  rintro k ⟨⟨b⟩, j⟩ h
  rcases h with ⟨s, hs, hk⟩ | ⟨t, ht, hfinal, hk⟩
  · rcases b with _ | _ | _ | b
    · rcases j with _ | _ | j
      · cases hs
        simp [Stmt.operands, Inst.operands] at hk
      · cases hs
        cases List.mem_singleton.1 hk
        exact ⟨_, _, h2, .inl ⟨rfl, by decide⟩⟩
      · cases hs
    · rcases j with _ | _ | _ | _ | j
      · cases hs
        cases hk
      · cases hs
        simp only [Stmt.operands, Inst.operands, List.mem_cons, Value.inst.injEq,
          List.not_mem_nil, or_false] at hk
        rcases hk with rfl | rfl
        · -- the address is computed in the entry, which dominates every block
          exact ⟨_, _, h2, .inr ⟨by decide, .of_start _⟩⟩
        · exact ⟨_, _, h6, .inl ⟨rfl, by decide⟩⟩
      · cases hs
        simp [Stmt.operands, Inst.operands] at hk
        subst hk
        exact ⟨_, _, h6, .inl ⟨rfl, by decide⟩⟩
      · cases hs
        cases List.mem_singleton.1 hk
        exact ⟨_, _, h8, .inl ⟨rfl, by decide⟩⟩
      · cases hs
    · rcases j with _ | j
      · cases hs
        cases hk
      · cases hs
    · cases hs
  · rcases b with _ | _ | _ | b
    · cases ht
      cases hk
    · cases ht
      obtain rfl : j = 4 := (Prod.mk.inj hfinal).2
      cases List.mem_singleton.1 hk
      exact ⟨_, _, h8, .inl ⟨rfl, by decide⟩⟩
    · cases ht
      obtain rfl : j = 1 := (Prod.mk.inj hfinal).2
      cases List.mem_singleton.1 hk
      exact ⟨_, _, h13, .inl ⟨rfl, by decide⟩⟩
    · cases ht

/-- The countdown is built, and what is built runs like the program it was told. The reads in the
loop and behind it make phis before their blocks are sealed. -/
theorem build_countdown :
    ∃ f, build "countdown" 1 countdown = .ok (f, countdownProgram) ∧
      ∀ w n, (f.run w n).sight = (countdownProgram.run w n).sight := by
  have hprogram : (build "countdown" 1 countdown).map (·.2) = .ok countdownProgram := by
    decide +kernel
  have hscript : (Recording.start "countdown" 1).allowsAll countdown = true := by
    decide +kernel
  cases hbuild : build "countdown" 1 countdown with
  | error e =>
    rw [hbuild] at hprogram
    cases hprogram
  | ok out =>
    obtain ⟨f, P⟩ := out
    rw [hbuild] at hprogram
    cases hprogram
    exact ⟨f, rfl, build_preserves_meaning hbuild hscript countdownProgram_scoped⟩

end SsaBackend
