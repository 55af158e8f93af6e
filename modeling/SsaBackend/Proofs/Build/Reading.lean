import SsaBackend.Draft.Basic
import SsaBackend.Proofs.Build.Bindings
import SsaBackend.Proofs.Build.Rendering
import SsaBackend.Proofs.Work

/-!
# Reading variables

A draft renders the part of a program that was told so far if its function does and its
bindings agree: what a block binds to a variable holds the content at the present end of the
block, and a variable that a block does not bind is not assigned there. A read keeps this, and
its answer holds the content of the variable (`Draft.Renders.read`); so does sealing a block
that gains no more predecessors (`Draft.Renders.sealBlock`). Neither is ever refused.

A read may add phis and fold them. `Draft.Later` says what stays meanwhile: labels, and the
phis that other reads are still filling.
-/

namespace SsaBackend

open Program
open Moment (content result operand)

/-- `P` was told so far of the program `S`, in which results are made once and nothing leads
back to the entry. -/
structure Program.Leads (P S : Program) : Prop extends P.Begins S where
  once : S.Once
  entry : ∀ p, ¬ S.Edge p Program.entry

/-! ## Bindings that agree with a program -/

/-- The bindings agree with the program `P`, with the labels `N`. -/
structure Bindings.Agrees {S : Program} (w : World) (P : Program) (N : Naming S) (s : Bindings) :
    Prop where
  bound : ∀ x b v, s.value? x b = some v → N.Holds w v (content x) (P.final b)
  unbound : ∀ x b, s.value? x b = none → ∀ u, Stmt.assign x u ∉ P.stmts b
  pending : ∀ b, ∀ e ∈ s.pendingAt b, e.2 ∈ s.guarded ∧ N.label e.2 = some (.merge b e.1)
  ascending : s.PendingAscending
  closed : ∀ b, s.isSealed b = true → ∀ p, S.Edge p b → P.Edge p b
  entry : s.isSealed Program.entry = true

/-- The draft renders the program `P`, with the labels `N`. -/
structure Draft.Renders {S : Program} (w : World) (P : Program) (N : Naming S) (d : Draft) :
    Prop where
  func : d.func.Renders w P N d.vars.guarded
  vars : d.vars.Agrees w P N

/-- What stays while variables are read: labels and the phis of `G`, which are being filled. No
phi that has a label becomes a placeholder. -/
structure Draft.Later {S : Program} (G : List InstId) (N N' : Naming S) (d d' : Draft) :
    Prop where
  names : N.Le N'
  kept : ∀ i ∈ G, i ∈ d'.vars.guarded ∧ d'.func.span i = d.func.span i
  fresh : ∀ b, ∀ e ∈ d'.vars.pendingAt b, e ∈ d.vars.pendingAt b ∨ N.label e.2 = none

variable {S : Program} {w : World} {P : Program} {N N' N'' : Naming S} {x : Variable}
  {b c : BlockId} {v : Value}

namespace Bindings.Agrees

variable {s : Bindings}

lemma mono (h : s.Agrees w P N) (hle : N.Le N') : s.Agrees w P N' := by
  refine { h with bound := ?_, pending := ?_ }
  · intro x b v hv
    exact (h.bound x b v hv).mono hle
  · intro b e he
    obtain ⟨hg, hl⟩ := h.pending b e he
    exact ⟨hg, hle _ _ hl⟩

lemma bind (h : s.Agrees w P N) (hv : N.Holds w v (content x) (P.final b)) :
    (s.bind x b v).Agrees w P N := by
  refine { h with bound := ?_, unbound := ?_ }
  · intro y c u hu
    rw [value?_bind] at hu
    split at hu
    · rename_i he
      obtain ⟨rfl, rfl⟩ := he
      cases hu
      exact hv
    · exact h.bound y c u hu
  · intro y c hu
    rw [value?_bind] at hu
    split at hu
    · cases hu
    · exact h.unbound y c hu

lemma mapValues (h : s.Agrees w P N) {g : Value → Value} (hg : N.Keeps w g) :
    (s.mapValues g).Agrees w P N := by
  refine { h with bound := ?_, unbound := ?_ }
  · intro y c u hu
    rw [value?_mapValues] at hu
    obtain ⟨u', hu', rfl⟩ := Option.map_eq_some_iff.1 hu
    exact hg _ _ _ (h.bound y c u' hu')
  · intro y c hu
    rw [value?_mapValues, Option.map_eq_none_iff] at hu
    exact h.unbound y c hu

/-- Any phis may be guarded, as long as the placeholders are. -/
lemma reguard (h : s.Agrees w P N) {G : List InstId}
    (hG : ∀ b, ∀ e ∈ s.pendingAt b, e.2 ∈ G) : { s with guarded := G }.Agrees w P N := by
  refine { h with pending := ?_ }
  intro b e he
  exact ⟨hG b e he, (h.pending b e he).2⟩

lemma guard (h : s.Agrees w P N) (phi : InstId) : (s.guard phi).Agrees w P N := by
  rw [guard_eq]
  apply h.reguard
  intro b e he
  exact mem_guard.2 (.inr (h.pending b e he).1)

lemma unguard (h : s.Agrees w P N) {phi : InstId} (hphi : ∀ b, ∀ e ∈ s.pendingAt b, e.2 ≠ phi) :
    (s.unguard phi).Agrees w P N := by
  apply h.reguard
  intro b e he
  exact mem_unguard.2 ⟨(h.pending b e he).1, hphi b e he⟩

lemma dropPending (h : s.Agrees w P N) (b : BlockId) : (s.dropPending b).Agrees w P N := by
  refine { h with pending := ?_, ascending := h.ascending.dropPending }
  intro c e he
  rw [pendingAt_dropPending] at he
  split at he
  · cases he
  · exact h.pending c e he

/-- A placeholder is guarded and merges its variable on entry to its block. -/
lemma addPending (h : s.Agrees w P N) {phi : InstId} (hl : N.label phi = some (.merge b x)) :
    ((s.addPending x b phi).guard phi).Agrees w P N := by
  rw [guard_eq]
  refine { h with pending := ?_, ascending := h.ascending.addPending }
  intro c e he
  rcases mem_pendingAt_addPending he with ⟨rfl, rfl⟩ | he
  · exact ⟨mem_guard.2 (.inl rfl), hl⟩
  · obtain ⟨hg, hl'⟩ := h.pending c e he
    exact ⟨mem_guard.2 (.inr hg), hl'⟩

lemma markSealed (h : s.Agrees w P N) (hb : ∀ p, S.Edge p b → P.Edge p b) :
    (s.markSealed b).Agrees w P N := by
  rw [markSealed_eq]
  refine { h with closed := ?_, entry := ?_ }
  · intro c hc p hp
    rcases isSealed_markSealed.1 hc with rfl | hc
    · exact hb p hp
    · exact h.closed c hc p hp
  · exact isSealed_markSealed.2 (.inr h.entry)

/-- What holds the content of a variable on entry to a block that does not bind it holds it at
its end. -/
lemma to_final (h : s.Agrees w P N) (hP : P.Leads S) (hx : s.value? x b = none)
    (hv : N'.Holds w v (content x) (b, 0)) : N'.Holds w v (content x) (P.final b) := by
  apply hv.content_within hP.once
  intro j hj u
  rw [hP.stmt_of_lt hj]
  intro hs
  exact h.unbound x b hx u (List.mem_of_getElem? hs)

end Bindings.Agrees

/-! ## What stays -/

namespace Draft

variable {d d' d'' : Draft} {G : List InstId}

lemma Later.refl (N : Naming S) (d : Draft) : Later d.vars.guarded N N d d :=
  ⟨.refl N, fun _ hi => ⟨hi, rfl⟩, fun _ _ he => .inl he⟩

lemma Later.trans (h : Later G N N' d d') (h' : Later G N' N'' d' d'') :
    Later G N N'' d d'' := by
  refine ⟨h.names.trans h'.names, ?_, ?_⟩
  · intro i hi
    exact ⟨(h'.kept i hi).1, (h'.kept i hi).2.trans (h.kept i hi).2⟩
  · intro b e he
    rcases h'.fresh b e he with he | hnone
    · exact h.fresh b e he
    · exact .inr (h.names.label_none hnone)

/-- Only bindings to values change. -/
lemma Later.of_bind (hG : ∀ i ∈ G, i ∈ d.vars.guarded) (x : Variable) (b : BlockId) (v : Value) :
    Later G N N d { d with vars := d.vars.bind x b v } :=
  ⟨.refl N, fun i hi => ⟨hG i hi, rfl⟩, fun _ _ he => .inl he⟩

/-! ## Walking back -/

/-- What holds the content of `x` at the present end of `b` also does at that of `c`. -/
def Carries {S : Program} (w : World) (P : Program) (N : Naming S) (x : Variable)
    (b c : BlockId) : Prop :=
  ∀ v, N.Holds w v (content x) (P.final b) → N.Holds w v (content x) (P.final c)

/-- A walk back passes blocks that are sealed, do not bind the variable and have one
predecessor; over such a block contents are carried. -/
lemma Renders.carries (h : d.Renders w P N) (hP : P.Leads S) {p : BlockId}
    (hx : d.vars.value? x b = none) (hsealed : d.vars.isSealed b = true)
    (hpreds : d.func.preds b = [p]) : Carries w P N' x p b := by
  have hedge : P.Edge p b := (h.func.preds b p).1 (by rw [hpreds]; exact List.mem_singleton_self p)
  intro v hv
  apply h.vars.to_final hP hx
  rw [← hP.final_of_edge hedge] at hv
  apply hv.content_enter hP.once
  · intro he
    exact hP.entry p (he ▸ hP.edge hedge)
  · intro q hq
    have hmem := (h.func.preds b q).2 (h.vars.closed b hsealed q hq)
    rw [hpreds] at hmem
    exact List.mem_singleton.1 hmem

/-- Why a walk back ended where it did. -/
def EndsAt (d : Draft) (x : Variable) (b : BlockId) : Source → Prop
  | .bound v => d.vars.value? x b = some v
  | .unsealed => d.vars.value? x b = none ∧ d.vars.isSealed b = false
  | .nothing => d.vars.value? x b = none ∧ d.vars.isSealed b = true ∧ d.func.preds b = []
  | .join preds =>
    d.vars.value? x b = none ∧ d.vars.isSealed b = true ∧ d.func.preds b = preds ∧ preds ≠ []

/-- A walk back ends at a block from which contents are carried to all the blocks passed. -/
lemma Renders.trailFrom (h : d.Renders w P N) (hP : P.Leads S) {n : Nat} {passed : List BlockId}
    {t : Trail} (ht : d.trailFrom x n passed b = some t) (hb : d.func.hasBlock b = true)
    (hpassed : ∀ N' : Naming S, ∀ c ∈ passed, Carries w P N' x b c) :
    d.func.hasBlock t.last = true ∧ d.EndsAt x t.last t.source ∧
      ∀ N' : Naming S, Carries w P N' x t.last b ∧ ∀ c ∈ t.passed, Carries w P N' x t.last c := by
  induction n generalizing passed b with
  | zero => cases ht
  | succ n ih =>
    rw [Draft.trailFrom] at ht
    split at ht
    · rename_i v hv
      cases ht
      exact ⟨hb, hv, fun N' => ⟨fun _ hv => hv, hpassed N'⟩⟩
    · rename_i hx
      split at ht
      · rename_i hsealed
        split at ht
        · rename_i hpreds
          cases ht
          exact ⟨hb, ⟨hx, hsealed, hpreds⟩, fun N' => ⟨fun _ hv => hv, hpassed N'⟩⟩
        · -- one predecessor: the walk goes on there
          rename_i p hpreds
          have hstep : ∀ N' : Naming S, Carries w P N' x p b :=
            fun N' => h.carries hP hx hsealed hpreds
          have hedge : P.Edge p b :=
            (h.func.preds b p).1 (by rw [hpreds]; exact List.mem_singleton_self p)
          have hpassed' : ∀ N' : Naming S, ∀ c ∈ b :: passed, Carries w P N' x p c := by
            intro N' c hc v hv
            rcases List.mem_cons.1 hc with rfl | hc
            · exact hstep N' v hv
            · exact hpassed N' c hc v (hstep N' v hv)
          obtain ⟨hlast, hends, hall⟩ := ih ht (h.func.sources b p hedge) hpassed'
          exact ⟨hlast, hends, fun N' => ⟨fun v hv => hstep N' v ((hall N').1 v hv), (hall N').2⟩⟩
        · rename_i hmany _
          cases ht
          -- several predecessors: a phi is needed here
          exact ⟨hb, ⟨hx, hsealed, rfl, hmany⟩, fun N' => ⟨fun _ hv => hv, hpassed N'⟩⟩
      · rename_i hsealed
        cases ht
        exact ⟨hb, ⟨hx, Bool.eq_false_iff.2 hsealed⟩, fun N' => ⟨fun _ hv => hv, hpassed N'⟩⟩

/-! ## New phis -/

/-- The answer holds the content of `x` at the present end of `b`, and the draft goes on
rendering the program. -/
def Gives {S : Program} (w : World) (P : Program) (x : Variable) (b : BlockId) (N : Naming S)
    (d : Draft) (v : Value) (d' : Draft) : Prop :=
  ∃ N', d'.Renders w P N' ∧ Later d.vars.guarded N N' d d' ∧ N'.Holds w v (content x) (P.final b)

lemma Renders.newPhi (h : d.Renders w P N) (x : Variable) (hentry : b ≠ entry)
    (hb : d.func.hasBlock b = true) :
    (Draft.newPhi b).Yields d fun phi d' => d'.vars = d.vars ∧ phi ∉ d.vars.guarded ∧
      ∃ N', N.Le N' ∧ N.label phi = none ∧ N'.label phi = some (.merge b x) ∧
        d'.func.Renders w P N' (phi :: d.vars.guarded) ∧
        ∀ i ∈ d.vars.guarded, d'.func.span i = d.func.span i := by
  obtain ⟨bb, hbb⟩ := Option.isSome_iff_exists.1 hb
  obtain ⟨g, hg, happ⟩ := Func.appendInst_eq (.phi .empty) hbb
  have hlegal : (Label.merge b x).Legal S := hentry
  have hnone := h.func.label_nextInst
  apply Work.Yields.get_bind
  apply Work.Yields.ofExcept_bind hg
  refine ⟨rfl, ?_, N.set d.func.nextInst (.merge b x) hlegal, .set N hlegal hnone, hnone,
    Naming.label_set_self .., h.func.newPhi hlegal happ ⟨bb, hbb⟩, ?_⟩
  · intro hmem
    obtain ⟨c, node, hp⟩ := h.func.unfolded _ hmem
    exact Nat.lt_irrefl _ (Func.lt_instCapacity hp)
  · intro i hi
    obtain ⟨c, node, hp⟩ := h.func.unfolded i hi
    exact Func.span_appended happ hp

/-- A placeholder holds the content of its variable at the present end of its block. -/
lemma Renders.newPlaceholder (h : d.Renders w P N) (hP : P.Leads S)
    (hb : d.func.hasBlock b = true) (hx : d.vars.value? x b = none)
    (hsealed : d.vars.isSealed b = false) :
    (Draft.newPlaceholder x b).Yields d (Gives w P x b N d) := by
  have hentry : b ≠ entry := by
    intro he
    rw [he, h.vars.entry] at hsealed
    cases hsealed
  unfold Draft.newPlaceholder
  apply (h.newPhi x hentry hb).bind
  intro phi d' hd'
  obtain ⟨hvars, hnew, N', hle, hnone, hl, hfunc, hspan⟩ := hd'
  apply Work.Yields.modify_bind
  apply Work.Yields.of_pure
  have hagrees := h.vars.mono hle
  rw [← hvars] at hagrees hfunc
  refine ⟨N', ⟨?_, hagrees.addPending hl⟩, ⟨hle, ?_, ?_⟩, ?_⟩
  · apply hfunc.reguard
    · intro i hi
      rcases Bindings.mem_guard.1 hi with rfl | hi
      · exact .inl List.mem_cons_self
      · exact .inl (List.mem_cons_of_mem _ hi)
    · intro i hi hnot
      refine absurd (Bindings.mem_guard.2 ?_) hnot
      exact List.mem_cons.1 hi
  · intro i hi
    exact ⟨Bindings.mem_guard.2 (.inr (hvars ▸ hi)), hspan i hi⟩
  · intro c e he
    have he' : e ∈ ((d'.vars.addPending x b phi).guard phi).pendingAt c := he
    rw [Bindings.pendingAt_guard] at he'
    rcases Bindings.mem_pendingAt_addPending he' with ⟨-, rfl⟩ | he'
    · exact .inr hnone
    · exact .inl (hvars ▸ he')
  · exact h.vars.to_final hP hx (.of_merge hl)

/-! ## Filling phis -/

/-- Folding keeps what the draft renders, and replaces phis by what they stand for. -/
lemma Renders.foldPhis (h : d.Renders w P N) (hS : S.Once) (candidates : List InstId) :
    (Draft.foldPhis candidates).Yields d fun rs d' =>
      d'.Renders w P N ∧ Later d.vars.guarded N N d d' ∧ ∀ r ∈ rs, N.StandsFor w r.phi r.same := by
  have hG : ∀ i ∈ d.vars.guarded, (!d.vars.guarded.contains i) = false := by
    intro i hi
    simpa using hi
  obtain ⟨hrenders, hstood, hspan⟩ := h.func.foldTrivialPhis hS candidates hG
  unfold Draft.foldPhis
  apply Work.Yields.get_bind
  generalize d.func.foldTrivialPhis candidates (!d.vars.guarded.contains ·) = folded at *
  obtain ⟨f, rs⟩ := folded
  -- the bindings differ in the values at most
  set vars := if rs.isEmpty then d.vars else d.vars.mapValues (Replacement.resolve rs) with hvars
  have hguarded : vars.guarded = d.vars.guarded := by
    rw [hvars]
    split <;> rfl
  have hpending : ∀ b, vars.pendingAt b = d.vars.pendingAt b := by
    intro b
    rw [hvars]
    split <;> rfl
  have hagrees : vars.Agrees w P N := by
    rw [hvars]
    split
    · exact h.vars
    · exact h.vars.mapValues (Replacement.keeps_resolve hstood)
  refine ⟨⟨?_, hagrees⟩, ⟨.refl N, ?_, ?_⟩, hstood⟩
  · show f.Renders w P N vars.guarded
    rw [hguarded]
    exact hrenders
  · intro i hi
    refine ⟨?_, hspan i hi⟩
    show i ∈ vars.guarded
    rw [hguarded]
    exact hi
  · intro b e he
    refine .inl ?_
    rw [← hpending b]
    exact he

/-- One operand is set to what a read answers. -/
lemma Renders.setIncoming (h : d.Renders w P N) (hP : P.Leads S) {phi : InstId} {p : BlockId}
    (hphi : phi ∈ d.vars.guarded) (hl : N.label phi = some (.merge b x)) (hp : P.Edge p b)
    (hv : N.Holds w v (content x) (P.final p)) :
    ∃ f, d.func.setPhiIncoming phi p v = .ok f ∧ { d with func := f }.Renders w P N ∧
      (∀ q, q ∈ f.span phi ↔ q = p ∨ q ∈ d.func.span phi) ∧
      ∀ i, i ≠ phi → f.span i = d.func.span i := by
  obtain ⟨c, node, hnode⟩ := h.func.unfolded phi hphi
  obtain ⟨y, hy, -⟩ := h.func.phi phi c node hnode
  rw [hl] at hy
  cases hy
  refine ⟨_, Func.setPhiIncoming_eq p v hnode, ⟨?_, h.vars⟩, ?_, ?_⟩
  · apply h.func.setIncoming hnode hl
    rw [hP.final_of_edge hp]
    exact hv
  · intro q
    have hnew := Func.inst?_modifyPhi (·.setIncoming p v) hnode phi
    rw [if_pos rfl] at hnew
    rw [Func.span_eq hnew, Func.span_eq hnode]
    exact Phi.mem_blocks_setIncoming
  · intro i hi
    exact Func.span_modifyPhi_ne _ hnode hi

/-- While a phi of `b` is filled, with the predecessors `rest` still to come: it stays guarded, and
its span grows. -/
structure Assembling (w : World) (P : Program) (N : Naming S) (d : Draft) (phi : InstId)
    (b : BlockId) (preds rest : List BlockId) (N' : Naming S) (d' : Draft) : Prop where
  renders : d'.Renders w P N'
  later : Later (d.vars.guarded.filter (· ≠ phi)) N N' d d'
  guarded : phi ∈ d'.vars.guarded
  edges : ∀ p ∈ rest, P.Edge p b
  spans : ∀ p ∈ preds, p ∈ rest ∨ p ∈ d'.func.span phi

namespace Assembling

variable {phi : InstId} {preds rest : List BlockId} {d₁ : Draft} {N₁ : Naming S}

lemma start (h : { d with vars := d.vars.guard phi }.Renders w P N)
    (hpreds : ∀ p ∈ preds, P.Edge p b) :
    Assembling w P N d phi b preds preds N { d with vars := d.vars.guard phi } := by
  refine ⟨h, ⟨.refl N, ?_, ?_⟩, Bindings.mem_guard.2 (.inl rfl), hpreds, fun p hp => .inl hp⟩
  · intro i hi
    exact ⟨Bindings.mem_guard.2 (.inr (List.mem_filter.1 hi).1), rfl⟩
  · intro c e he
    refine .inl ?_
    rwa [Bindings.pendingAt_guard] at he

/-- One predecessor is read, and its operand set to the answer. -/
lemma step (hP : P.Leads S) {read : BlockId → Work Draft Value}
    (hread : ∀ p (N : Naming S) d, d.Renders w P N → d.func.hasBlock p = true →
      (read p).Yields d (Gives w P x p N d))
    (hl : N.label phi = some (.merge b x)) {p : BlockId}
    (h : Assembling w P N d phi b preds (p :: rest) N₁ d₁) :
    (do let v ← read p
        setFunc (← Work.ofExcept ((← get).func.setPhiIncoming phi p v))).Yields d₁
      fun _ d₂ => ∃ N₂, Assembling w P N d phi b preds rest N₂ d₂ := by
  have hp := h.edges p List.mem_cons_self
  apply (hread p N₁ d₁ h.renders (h.renders.func.sources b p hp)).bind
  intro v d₂ hd₂
  obtain ⟨N₂, h₂, hlater₂, hv⟩ := hd₂
  obtain ⟨hphi₂, hspan₂⟩ := hlater₂.kept phi h.guarded
  have hl₂ := hlater₂.names _ _ (h.later.names _ _ hl)
  obtain ⟨f, hf, hrenders, hgrown, hsame⟩ := h₂.setIncoming hP hphi₂ hl₂ hp hv
  apply Work.Yields.get_bind
  apply Work.Yields.ofExcept_bind hf
  refine ⟨N₂, hrenders, h.later.trans ⟨hlater₂.names, ?_, hlater₂.fresh⟩, hphi₂, ?_, ?_⟩
  · intro i hi
    obtain ⟨hi₂, hspan₂⟩ := hlater₂.kept i (h.later.kept i hi).1
    have hne : i ≠ phi := by simpa using (List.mem_filter.1 hi).2
    exact ⟨hi₂, (hsame i hne).trans hspan₂⟩
  · intro q hq
    exact h.edges q (List.mem_cons_of_mem _ hq)
  · intro q hq
    rcases h.spans q hq with hq | hq
    · rcases List.mem_cons.1 hq with rfl | hq
      · exact .inr ((hgrown q).2 (.inl rfl))
      · exact .inl hq
    · exact .inr ((hgrown q).2 (.inr (hspan₂ ▸ hq)))

/-- A phi that has an operand for every predecessor may be let go. -/
lemma release (hl : N.label phi = some (.merge b x))
    (hpend : ∀ c, ∀ e ∈ d.vars.pendingAt c, e.2 ≠ phi) (hall : ∀ p, S.Edge p b → p ∈ preds)
    (h : Assembling w P N d phi b preds [] N₁ d₁) :
    { d₁ with vars := d₁.vars.unguard phi }.Renders w P N₁ := by
  have hl₁ := h.later.names _ _ hl
  have hpend₁ : ∀ c, ∀ e ∈ d₁.vars.pendingAt c, e.2 ≠ phi := by
    intro c e he
    rcases h.later.fresh c e he with he | hnone
    · exact hpend c e he
    · intro heq
      rw [heq, hl] at hnone
      cases hnone
  refine ⟨?_, h.renders.vars.unguard hpend₁⟩
  apply h.renders.func.reguard
  · intro i hi
    exact .inl (Bindings.mem_unguard.1 hi).1
  · intro i hi hnot c node hnode p hp
    obtain rfl : i = phi := by
      by_contra hne
      exact hnot (Bindings.mem_unguard.2 ⟨hi, hne⟩)
    obtain ⟨y, hy, -⟩ := h.renders.func.phi i c node hnode
    rw [hl₁] at hy
    cases hy
    rcases h.spans p (hall p hp) with hmem | hmem
    · cases hmem
    · rwa [Func.span_eq hnode] at hmem

end Assembling

/-- A read that gives the content at the end of any block fills a phi with what its block's
predecessors hand over. The answer may stand in the place of the phi. -/
lemma Renders.fillPhi (hP : P.Leads S) {read : BlockId → Work Draft Value}
    (hread : ∀ p (N : Naming S) d, d.Renders w P N → d.func.hasBlock p = true →
      (read p).Yields d (Gives w P x p N d))
    {phi : InstId} {preds : List BlockId}
    (h : { d with vars := d.vars.guard phi }.Renders w P N)
    (hl : N.label phi = some (.merge b x)) (hpend : ∀ c, ∀ e ∈ d.vars.pendingAt c, e.2 ≠ phi)
    (hpreds : ∀ p ∈ preds, P.Edge p b) (hall : ∀ p, S.Edge p b → p ∈ preds) :
    (Draft.fillPhi read phi preds).Yields d fun v d' => ∃ N', d'.Renders w P N' ∧
      Later (d.vars.guarded.filter (· ≠ phi)) N N' d d' ∧
      ∀ q π, N'.Holds w (.inst phi) q π → N'.Holds w v q π := by
  apply Work.Yields.modify_bind
  have hloop := Work.Yields.forM
    (fun rest d' => ∃ N', Assembling w P N d phi b preds rest N' d')
    (s := { d with vars := d.vars.guard phi })
    (fun p rest d' ⟨N', h'⟩ => h'.step hP hread hl) preds ⟨N, .start h hpreds⟩
  apply hloop.bind
  intro _ d₁ hd₁
  obtain ⟨N₁, h₁⟩ := hd₁
  apply Work.Yields.modify_bind
  -- the phi is let go, and folded if it is trivial
  apply ((h₁.release hl hpend hall).foldPhis hP.once [phi]).bind
  intro rs d₃ hd₃
  obtain ⟨h₃, hlater₃, hstood⟩ := hd₃
  apply Work.Yields.of_pure
  refine ⟨N₁, h₃, h₁.later.trans ⟨hlater₃.names, ?_, hlater₃.fresh⟩,
    fun q π hv => Replacement.keeps_resolve hstood _ q π hv⟩
  intro i hi
  have hne : i ≠ phi := by simpa using (List.mem_filter.1 hi).2
  exact hlater₃.kept i (Bindings.mem_unguard.2 ⟨(h₁.later.kept i hi).1, hne⟩)

/-! ## Reading -/

/-- The blocks of a walk are bound to what holds the content where it ended. -/
lemma Renders.bindAll (l : List BlockId) {last : BlockId}
    (hl : ∀ N' : Naming S, ∀ c ∈ l, Carries w P N' x last c) (h : Gives w P x last N d v d') :
    (l.forM fun c => modifyVars (·.bind x c v)).Yields d' fun _ => Gives w P x last N d v := by
  have hloop := Work.Yields.forM (f := fun c => modifyVars (·.bind x c v))
    (fun rest d' => Gives w P x last N d v d' ∧ ∀ c ∈ rest, c ∈ l) (s := d') ?_ l
    ⟨h, fun c hc => hc⟩
  · exact hloop.mono fun _ _ hd => hd.1
  · intro c rest d₁ hd₁
    obtain ⟨⟨N₁, h₁, hlater, hv⟩, hrest⟩ := hd₁
    refine ⟨⟨N₁, ⟨h₁.func, h₁.vars.bind ?_⟩, ?_, hv⟩,
      fun c hc => hrest c (List.mem_cons_of_mem _ hc)⟩
    · exact hl N₁ c (hrest c List.mem_cons_self) v hv
    · exact hlater.trans (.of_bind (fun i hi => (hlater.kept i hi).1) x c v)

/-- At a join a phi gathers what the predecessors hand over. -/
lemma Renders.join (h : d.Renders w P N) (hP : P.Leads S) {read : BlockId → Work Draft Value}
    (hread : ∀ p (N : Naming S) d, d.Renders w P N → d.func.hasBlock p = true →
      (read p).Yields d (Gives w P x p N d))
    (hb : d.func.hasBlock b = true) (hx : d.vars.value? x b = none)
    (hsealed : d.vars.isSealed b = true) (hmany : d.func.preds b ≠ []) :
    (do let phi ← Draft.newPhi b
        modifyVars (·.bind x b (.inst phi))
        Draft.fillPhi read phi (d.func.preds b)).Yields d (Gives w P x b N d) := by
  have hentry : b ≠ entry := by
    intro he
    obtain ⟨p, hp⟩ := List.exists_mem_of_ne_nil _ hmany
    exact hP.entry p (he ▸ hP.edge ((h.func.preds b p).1 hp))
  apply (h.newPhi x hentry hb).bind
  intro phi d₁ hd₁
  obtain ⟨hvars, hnew, N₁, hle, hnone, hl, hfunc, hspan⟩ := hd₁
  apply Work.Yields.modify_bind
  have hholds : N₁.Holds w (.inst phi) (content x) (P.final b) :=
    h.vars.to_final hP hx (.of_merge hl)
  have hagrees : (d₁.vars.bind x b (.inst phi)).Agrees w P N₁ := by
    rw [hvars]
    exact (h.vars.mono hle).bind hholds
  -- the phi is bound before the predecessors are read, and guarded while they are
  have h₂ : { d₁ with vars := (d₁.vars.bind x b (.inst phi)).guard phi }.Renders w P N₁ := by
    refine ⟨?_, hagrees.guard phi⟩
    apply hfunc.reguard
    · intro i hi
      rcases Bindings.mem_guard.1 hi with rfl | hi
      · exact .inl List.mem_cons_self
      · exact .inl (List.mem_cons_of_mem _ (hvars ▸ hi))
    · intro i hi hnot
      refine absurd (Bindings.mem_guard.2 ?_) hnot
      rcases List.mem_cons.1 hi with hi | hi
      · exact .inl hi
      · exact .inr (hvars ▸ hi)
  have hpend : ∀ c, ∀ e ∈ (d₁.vars.bind x b (.inst phi)).pendingAt c, e.2 ≠ phi := by
    intro c e he heq
    rw [hvars] at he
    rw [← heq, (h.vars.pending c e he).2] at hnone
    cases hnone
  have hfill := Renders.fillPhi (d := { d₁ with vars := d₁.vars.bind x b (.inst phi) }) hP hread h₂
    hl hpend (fun p hp => (h.func.preds b p).1 hp)
    (fun p hp => (h.func.preds b p).2 (h.vars.closed b hsealed p hp))
  refine hfill.mono ?_
  intro v d₃ hd₃
  obtain ⟨N₃, h₃, hlater, hstands⟩ := hd₃
  refine ⟨N₃, h₃, ⟨hle.trans hlater.names, ?_, ?_⟩, hstands _ _ (hholds.mono hlater.names)⟩
  · intro i hi
    have hne : i ≠ phi := fun he => hnew (he ▸ hi)
    have hmem : i ∈ (d₁.vars.bind x b (.inst phi)).guarded.filter (· ≠ phi) := by
      rw [hvars]
      simpa using ⟨hi, hne⟩
    obtain ⟨hi₃, hspan₃⟩ := hlater.kept i hmem
    exact ⟨hi₃, hspan₃.trans (hspan i hi)⟩
  · intro c e he
    rcases hlater.fresh c e he with he | hfresh
    · exact .inl (hvars ▸ he)
    · exact .inr (hle.label_none hfresh)

/-- A read of bounded depth gives the content at the present end of a block. -/
lemma Renders.readWithin (hP : P.Leads S) (x : Variable) (depth : Nat) (b : BlockId)
    (N : Naming S) (d : Draft) (h : d.Renders w P N) (hb : d.func.hasBlock b = true) :
    (Draft.readWithin x depth b).Yields d (Gives w P x b N d) := by
  induction depth generalizing b N d with
  | zero => exact Work.Yields.of_throw
  | succ depth ih =>
    have htrail : (Draft.trail x b).Yields d fun t d' => d' = d ∧
        d.trailFrom x (d.func.blockCapacity + 1) [] b = some t := by
      unfold Draft.trail
      apply Work.Yields.get_bind
      cases ht : d.trailFrom x (d.func.blockCapacity + 1) [] b with
      | none => exact Work.Yields.of_throw
      | some t => exact Work.Yields.of_pure ⟨rfl, rfl⟩
    unfold Draft.readWithin
    apply htrail.bind
    intro t d' hd'
    obtain ⟨rfl, ht⟩ := hd'
    obtain ⟨hlast, hends, hcarries⟩ := h.trailFrom hP ht hb (fun _ c hc => by cases hc)
    -- whatever the source is, its value is bound to all the blocks of the walk
    have hrest : ∀ v d₁, Gives w P x t.last N d' v d₁ →
        (do (t.last :: t.passed).forM fun b => modifyVars (·.bind x b v)
            return v).Yields d₁ (Gives w P x b N d') := by
      intro v d₁ hv
      have hall : ∀ N' : Naming S, ∀ c ∈ t.last :: t.passed, Carries w P N' x t.last c := by
        intro N' c hc
        rcases List.mem_cons.1 hc with rfl | hc
        · exact fun _ hv => hv
        · exact (hcarries N').2 c hc
      apply (Renders.bindAll (t.last :: t.passed) hall hv).bind
      intro _ d₂ hd₂
      obtain ⟨N₂, h₂, hlater, hv₂⟩ := hd₂
      exact Work.Yields.of_pure ⟨N₂, h₂, hlater, (hcarries N₂).1 v hv₂⟩
    cases hsource : t.source with
    | bound v =>
      rw [hsource] at hends
      exact hrest v d' ⟨N, h, .refl N d', h.vars.bound _ _ _ hends⟩
    | unsealed =>
      rw [hsource] at hends
      exact (h.newPlaceholder hP hlast hends.1 hends.2).bind hrest
    | nothing =>
      rw [hsource] at hends
      obtain ⟨hx, hsealed, hpreds⟩ := hends
      have hnone : ∀ p, ¬ S.Edge p t.last := by
        intro p hp
        have := (h.func.preds _ p).2 (h.vars.closed _ hsealed p hp)
        rw [hpreds] at this
        cases this
      exact hrest .undef d' ⟨N, h, .refl N d', h.vars.to_final hP hx (.of_no_pred hnone)⟩
    | join preds =>
      rw [hsource] at hends
      obtain ⟨hx, hsealed, rfl, hmany⟩ := hends
      have hjoin := h.join hP (fun p N d hd hp => ih p N d hd hp) hlast hx hsealed hmany
      have hall := hjoin.bind hrest
      simp only [bind_assoc] at hall
      exact hall

/-- A read gives the content of the variable at the present end of a block. -/
lemma Renders.read (h : d.Renders w P N) (hP : P.Leads S) (x : Variable)
    (hb : d.func.hasBlock b = true) : (Draft.read x b).Yields d (Gives w P x b N d) := by
  unfold Draft.read
  apply Work.Yields.get_bind
  exact Renders.readWithin hP x d.readDepth b N d h hb

/-! ## Sealing -/

/-- The placeholders in `l` wait to be filled, and are on no other list. -/
structure Waiting {S : Program} (N : Naming S) (b : BlockId) (l : List (Variable × InstId))
    (d : Draft) : Prop where
  guarded : ∀ e ∈ l, e.2 ∈ d.vars.guarded
  label : ∀ e ∈ l, N.label e.2 = some (.merge b e.1)
  dropped : ∀ e ∈ l, ∀ c, ∀ e' ∈ d.vars.pendingAt c, e'.2 ≠ e.2
  distinct : l.Pairwise fun e e' => e.1 ≠ e'.1

/-- When the list of placeholders of a block is dropped, they wait. -/
lemma Renders.waiting (h : d.Renders w P N) (b : BlockId) :
    Waiting N b (d.vars.pendingAt b) { d with vars := d.vars.dropPending b } := by
  refine ⟨?_, ?_, ?_, h.vars.ascending.pairwise b⟩
  · intro e he
    exact (h.vars.pending b e he).1
  · intro e he
    exact (h.vars.pending b e he).2
  · intro e he c e' he' heq
    have hmem : e' ∈ (d.vars.dropPending b).pendingAt c := he'
    rw [Bindings.pendingAt_dropPending] at hmem
    split at hmem
    · cases hmem
    · rename_i hc
      have hl := (h.vars.pending c e' hmem).2
      rw [heq, (h.vars.pending b e he).2] at hl
      injection Option.some.inj hl with hb _
      exact hc hb.symm

/-- Filling the first placeholder leaves the others waiting. -/
lemma Waiting.tail {e : Variable × InstId} {rest : List (Variable × InstId)}
    (h : Waiting N b (e :: rest) d) (hlater : Later (d.vars.guarded.filter (· ≠ e.2)) N N' d d') :
    Waiting N' b rest d' := by
  obtain ⟨hfirst, hrest⟩ := List.pairwise_cons.1 h.distinct
  have hne : ∀ e' ∈ rest, e'.2 ≠ e.2 := by
    intro e' he' heq
    have hl := h.label e' (List.mem_cons_of_mem _ he')
    rw [heq, h.label e List.mem_cons_self] at hl
    injection Option.some.inj hl with _ hx
    exact hfirst e' he' hx
  refine ⟨?_, ?_, ?_, hrest⟩
  · intro e' he'
    apply (hlater.kept e'.2 ?_).1
    simpa using ⟨h.guarded e' (List.mem_cons_of_mem _ he'), hne e' he'⟩
  · intro e' he'
    exact hlater.names _ _ (h.label e' (List.mem_cons_of_mem _ he'))
  · intro e' he' c e'' he'' heq
    rcases hlater.fresh c e'' he'' with hold | hnone
    · exact h.dropped e' (List.mem_cons_of_mem _ he') c e'' hold heq
    · rw [heq, h.label e' (List.mem_cons_of_mem _ he')] at hnone
      cases hnone

/-- Sealing a block that has got all its predecessors keeps what the draft renders. -/
lemma Renders.sealBlock (h : d.Renders w P N) (hP : P.Leads S)
    (hfinal : ∀ p, S.Edge p b → P.Edge p b) :
    (Draft.sealBlock b).Yields d fun _ d' => ∃ N', N.Le N' ∧ d'.Renders w P N' := by
  unfold Draft.sealBlock
  apply Work.Yields.get_bind
  by_cases hsealed : d.vars.isSealed b = true
  · rw [if_pos hsealed]
    exact ⟨N, .refl N, h⟩
  · rw [if_neg hsealed]
    apply Work.Yields.modify_bind
    have hdropped : { d with vars := d.vars.dropPending b }.Renders w P N :=
      ⟨h.func, h.vars.dropPending b⟩
    have hloop := Work.Yields.forM
      (f := fun e : Variable × InstId => do
        let _ ← Draft.fillPhi (Draft.read e.1) e.2 ((← get).func.preds b))
      (fun rest d' => ∃ N', N.Le N' ∧ d'.Renders w P N' ∧ Waiting N' b rest d')
      (s := { d with vars := d.vars.dropPending b }) ?_ (d.vars.pendingAt b)
      ⟨N, .refl N, hdropped, h.waiting b⟩
    · apply hloop.bind
      intro _ d₁ hd₁
      obtain ⟨N₁, hle, h₁, -⟩ := hd₁
      apply Work.Yields.modify_bind
      apply Work.Yields.get_bind
      have h₂ : { d₁ with vars := d₁.vars.markSealed b }.Renders w P N₁ := by
        refine ⟨?_, h₁.vars.markSealed hfinal⟩
        rw [Bindings.markSealed_eq]
        exact h₁.func
      apply (h₂.foldPhis hP.once _).bind
      intro rs d₃ hd₃
      exact Work.Yields.of_pure ⟨N₁, hle, hd₃.1⟩
    · intro e rest d₁ hd₁
      obtain ⟨N₁, hle, h₁, hwait⟩ := hd₁
      apply Work.Yields.get_bind
      -- the placeholder is guarded already
      have hguard : d₁.vars.guard e.2 = d₁.vars := if_pos (hwait.guarded e List.mem_cons_self)
      have h₁' : { d₁ with vars := d₁.vars.guard e.2 }.Renders w P N₁ := by
        rw [hguard]
        exact h₁
      have hfill := Renders.fillPhi hP (fun p N d hd hp => hd.read hP e.1 hp) h₁'
        (hwait.label e List.mem_cons_self) (hwait.dropped e List.mem_cons_self)
        (fun p hp => (h₁.func.preds b p).1 hp)
        (fun p hp => (h₁.func.preds b p).2 (hfinal p hp))
      apply hfill.bind
      intro v d₂ hd₂
      obtain ⟨N₂, h₂, hlater, -⟩ := hd₂
      exact Work.Yields.of_pure ⟨N₂, hle.trans hlater.names, h₂, hwait.tail hlater⟩

end Draft

end SsaBackend
