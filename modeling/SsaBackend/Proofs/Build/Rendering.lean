import SsaBackend.Proofs.Build.Moments
import SsaBackend.Proofs.Func.Phi
import SsaBackend.Proofs.Func.PhiFold

/-!
# Functions that render a program

While a function is built, it renders the part `P` of the program that was told so far, and its
instructions carry labels that have a meaning in the whole program `S`. `Func.Renders` says what
that takes: code has operands that hold those of its statement, phis gather the contents of
their variables at the ends of predecessors, blocks list the code of their statements in order
and end like them. Phis that are still being filled are guarded; all others have an operand for
every predecessor.

The edits that reading a variable is made of keep this: `Renders.newPhi`, `Renders.setIncoming`
and `Renders.foldTrivialPhis`, which puts in the place of a phi what it stands for.
-/

namespace SsaBackend

open Program
open Moment (content result operand)

/-! ## Parts of programs -/

namespace Program

/-- `P` is what was told of `S` so far; blocks that are complete stay as they are. -/
structure Begins (P S : Program) : Prop where
  stmts : ∀ b, P.stmts b <+: S.stmts b
  ended : ∀ b t, P.terminator? b = some t → S.passage b = P.passage b

namespace Begins

variable {P Q S : Program}

lemma refl (P : Program) : P.Begins P := ⟨fun _ => List.prefix_rfl, fun _ _ _ => rfl⟩

lemma trans (h : P.Begins Q) (h' : Q.Begins S) : P.Begins S := by
  refine ⟨fun b => (h.stmts b).trans (h'.stmts b), ?_⟩
  intro b t ht
  have hQ := h.ended b t ht
  have htQ : Q.terminator? b = some t := by
    unfold terminator? at *
    rw [hQ, ht]
  rw [h'.ended b t htQ, hQ]

/-- More is told of a block that has no end yet. -/
lemma of_open {b : BlockId} (hnone : P.terminator? b = none) (hstmts : P.stmts b <+: Q.stmts b)
    (hother : ∀ c, c ≠ b → Q.passage c = P.passage c) : P.Begins Q := by
  refine ⟨?_, ?_⟩
  · intro c
    by_cases hc : c = b
    · exact hc ▸ hstmts
    · simp [Program.stmts, hother c hc]
  · intro c t ht
    apply hother
    intro hc
    rw [hc, hnone] at ht
    cases ht

lemma add {b : BlockId} (hnone : P.terminator? b = none) (s : Stmt) : P.Begins (P.add b s) := by
  apply of_open hnone
  · rw [stmts_add, if_pos rfl]
    exact List.prefix_append ..
  · intro c hc
    rw [passage_add, if_neg hc]

lemma close {b : BlockId} (hnone : P.terminator? b = none) (t : Terminator) :
    P.Begins (P.close b t) := by
  apply of_open hnone
  · simp
  · intro c hc
    rw [passage_close, if_neg hc]

lemma stmt (h : P.Begins S) {b : BlockId} {j : Nat} {s : Stmt} (hs : (P.stmts b)[j]? = some s) :
    (S.stmts b)[j]? = some s := by
  obtain ⟨rest, hrest⟩ := h.stmts b
  have hlt := (List.getElem?_eq_some_iff.1 hs).1
  rw [← hrest, List.getElem?_append_left hlt, hs]

/-- What was told of a block is all that comes before its present end. -/
lemma stmt_of_lt (h : P.Begins S) {b : BlockId} {j : Nat} (hj : j < P.length b) :
    (S.stmts b)[j]? = (P.stmts b)[j]? := by
  obtain ⟨rest, hrest⟩ := h.stmts b
  rw [← hrest, List.getElem?_append_left hj]

lemma edge (h : P.Begins S) {b c : BlockId} (he : P.Edge b c) : S.Edge b c := by
  obtain ⟨t, ht, hc⟩ := he
  refine ⟨t, ?_, hc⟩
  unfold terminator?
  rw [h.ended b t ht]
  exact ht

lemma final_eq (h : P.Begins S) {b : BlockId} {t : Terminator} (ht : P.terminator? b = some t) :
    S.final b = P.final b := by
  unfold final length Program.stmts
  rw [h.ended b t ht]

lemma final_of_edge (h : P.Begins S) {b c : BlockId} (he : P.Edge b c) :
    S.final b = P.final b := by
  obtain ⟨t, ht, -⟩ := he
  exact h.final_eq ht

/-- What was told to use a result goes on doing so. -/
lemma uses (h : P.Begins S) {k : InstId} {π : Place} (hk : P.Uses k π) : S.Uses k π := by
  rcases hk with ⟨s, hs, hk⟩ | ⟨t, ht, hfinal, hk⟩
  · exact .inl ⟨s, h.stmt hs, hk⟩
  · refine .inr ⟨t, ?_, ?_, hk⟩
    · unfold terminator?
      rw [h.ended _ t ht]
      exact ht
    · rw [h.final_eq ht]
      exact hfinal

lemma madeAt (h : P.Begins S) {k : InstId} {u : BlockId} {i : Nat} (hk : P.MadeAt k u i) :
    S.MadeAt k u i := by
  obtain ⟨s, hs, hk⟩ := hk
  exact ⟨s, h.stmt hs, hk⟩

/-- The ways through what was told are ways through the whole. -/
lemma route (h : P.Begins S) {l : List Place} (hl : Route P.Step origin l) :
    Route S.Step origin l := by
  induction hl with
  | start => exact .start
  | step _ last ih =>
    refine .step ih ?_
    cases last with
    | next hj => exact .next (Nat.lt_of_lt_of_le hj (h.stmts _).length_le)
    | jump he =>
      rw [← h.final_of_edge he]
      exact .jump (h.edge he)

lemma dom (h : P.Begins S) {d π : Place} (hd : S.Dom d π) : P.Dom d π :=
  fun l hl => hd l (h.route hl)

end Begins

/-- The labels of the code of a block, for the statements from number `j` on. -/
def codesFrom (b : BlockId) : Nat → List Stmt → List Label
  | _, [] => []
  | j, .compute k _ :: rest => .code k b j :: codesFrom b (j + 1) rest
  | j, _ :: rest => codesFrom b (j + 1) rest

lemma codesFrom_append (b : BlockId) (j : Nat) (l l' : List Stmt) :
    codesFrom b j (l ++ l') = codesFrom b j l ++ codesFrom b (j + l.length) l' := by
  induction l generalizing j with
  | nil => rfl
  | cons s rest ih =>
    have hlen : j + (s :: rest).length = j + 1 + rest.length := by
      rw [List.length_cons]
      omega
    rw [hlen, List.cons_append]
    cases s with
    | compute k inst =>
      rw [codesFrom, codesFrom, ih]
      rfl
    | assign x v => exact ih (j + 1)
    | read k x => exact ih (j + 1)

/-- The labels of the code of a block are labels of code. -/
lemma merge_not_mem_codesFrom (b c : BlockId) (x : Variable) (j : Nat) (l : List Stmt) :
    Label.merge c x ∉ codesFrom b j l := by
  induction l generalizing j with
  | nil => exact List.not_mem_nil
  | cons s rest ih =>
    cases s with
    | compute k inst =>
      rw [codesFrom, List.mem_cons]
      intro h
      rcases h with h | h
      · cases h
      · exact ih _ h
    | assign x v => exact ih (j + 1)
    | read k x => exact ih (j + 1)

end Program

/-! ## Rendering -/

namespace Naming

variable {S : Program}

/-- The instruction is the code of a statement that was told, and its operands hold those of
the statement. -/
def Codes (N : Naming S) (w : World) (P : Program) (i : InstId) (b : BlockId) (inst : Inst) :
    Prop :=
  ∃ k j told g, N.label i = some (.code k b j) ∧ (P.stmts b)[j]? = some (.compute k told) ∧
    inst = told.mapOperands g ∧ ∀ v ∈ told.operands, N.Holds w (g v) (operand w v) (b, j)

/-- The phi merges a variable on entry to a block, and its operands hold the contents at the
ends of the blocks they come from. -/
def Gathers (N : Naming S) (w : World) (i : InstId) (b : BlockId) (node : Phi) : Prop :=
  ∃ x, N.label i = some (.merge b x) ∧
    ∀ op ∈ node.operands, N.Holds w op.value (content x) (S.final op.block)

/-- The terminator is the one that was told, and its operands hold those of it. -/
def Ends (N : Naming S) (w : World) (b : BlockId) (told final : Option Terminator) : Prop :=
  ∃ g, final = told.map (·.mapOperands g) ∧
    ∀ t, told = some t → ∀ v ∈ t.operands, N.Holds w (g v) (operand w v) (S.final b)

/-- A way to change values that keeps what they hold. -/
def Keeps (N : Naming S) (w : World) (g : Value → Value) : Prop :=
  ∀ v q π, N.Holds w v q π → N.Holds w (g v) q π

end Naming

namespace Naming

variable {S : Program} {N N' : Naming S} {w : World} {P : Program} {i : InstId} {b : BlockId}
  {inst : Inst} {node : Phi} {told final : Option Terminator}

lemma Codes.mono (h : N.Codes w P i b inst) (hle : N.Le N') : N'.Codes w P i b inst := by
  obtain ⟨k, j, told, g, hl, hs, he, hops⟩ := h
  exact ⟨k, j, told, g, hle i _ hl, hs, he, fun v hv => (hops v hv).mono hle⟩

lemma Gathers.mono (h : N.Gathers w i b node) (hle : N.Le N') : N'.Gathers w i b node := by
  obtain ⟨x, hl, hops⟩ := h
  exact ⟨x, hle i _ hl, fun op hop => (hops op hop).mono hle⟩

lemma Ends.mono (h : N.Ends w b told final) (hle : N.Le N') : N'.Ends w b told final := by
  obtain ⟨g, he, hops⟩ := h
  exact ⟨g, he, fun t ht v hv => (hops t ht v hv).mono hle⟩

/-- Instructions that all have labels keep them. -/
lemma Le.map_label (hle : N.Le N') {l : List InstId} {ls : List Label}
    (h : l.map N.label = ls.map some) : l.map N'.label = ls.map some := by
  rw [← h]
  apply List.map_congr_left
  intro i hi
  have hmem : N.label i ∈ ls.map some := h ▸ List.mem_map_of_mem hi
  obtain ⟨lab, -, hlab⟩ := List.mem_map.1 hmem
  rw [← hlab, hle i lab hlab.symm]

end Naming

/-- The phi has an operand for every predecessor that the block has in the end. -/
def Phi.Complete (S : Program) (b : BlockId) (node : Phi) : Prop :=
  ∀ p, S.Edge p b → p ∈ node.blocks

/-- The function renders the program `P`, with the labels `N`, except that the phis in
`guarded` are still being filled. -/
structure Func.Renders {S : Program} (w : World) (P : Program) (N : Naming S)
    (guarded : List InstId) (f : Func) : Prop where
  named : ∀ i l, N.label i = some l → i.index < f.instCapacity
  told : ∀ i k b j, N.label i = some (.code k b j) → j < P.length b
  once : ∀ i i' k b j, N.label i = some (.code k b j) → N.label i' = some (.code k b j) → i = i'
  code : ∀ i p, f.inst? i = some p → p.inst.isPhi = false → N.Codes w P i p.block p.inst
  phi : ∀ i b node, f.inst? i = some ⟨.phi node, b⟩ → N.Gathers w i b node
  complete : ∀ i b node, f.inst? i = some ⟨.phi node, b⟩ → i ∉ guarded → node.Complete S b
  listed : ∀ i b node, f.inst? i = some ⟨.phi node, b⟩ →
    ∃ bb, f.block? b = some bb ∧ i ∈ bb.phis
  unfolded : ∀ i ∈ guarded, ∃ b node, f.inst? i = some ⟨.phi node, b⟩
  body : ∀ b bb, f.block? b = some bb →
    bb.body.map N.label = (codesFrom b 0 (P.stmts b)).map some
  ends : ∀ b bb, f.block? b = some bb → N.Ends w b (P.terminator? b) bb.terminator
  preds : ∀ b p, p ∈ f.preds b ↔ P.Edge p b
  sources : ∀ b p, P.Edge p b → f.hasBlock p = true

/-! ## Edits that keep rendering -/

namespace Func.Renders

variable {S : Program} {w : World} {P : Program} {N : Naming S} {G G' : List InstId} {f g : Func}
  {i : InstId} {b : BlockId} {x : Variable} {node : Phi}

/-- Phis may be guarded while they are filled, and must have all their operands when they are
let go. -/
lemma reguard (h : f.Renders w P N G)
    (hlive : ∀ i ∈ G', i ∈ G ∨ ∃ b node, f.inst? i = some ⟨.phi node, b⟩)
    (hdone : ∀ i ∈ G, i ∉ G' → ∀ b node, f.inst? i = some ⟨.phi node, b⟩ → node.Complete S b) :
    f.Renders w P N G' := by
  refine { h with complete := ?_, unfolded := ?_ }
  · intro i b node hi hnot
    by_cases hG : i ∈ G
    · exact hdone i hG hnot b node hi
    · exact h.complete i b node hi hG
  · intro i hi
    rcases hlive i hi with hG | hlive
    · exact h.unfolded i hG
    · exact hlive

/-- The next instruction has no label yet. -/
lemma label_nextInst (h : f.Renders w P N G) : N.label f.nextInst = none := by
  cases hl : N.label f.nextInst with
  | none => rfl
  | some l => exact absurd (h.named _ l hl) (Nat.lt_irrefl _)

/-! What holds of a function with one instruction more, whichever it is and whatever it is
labelled with. -/

section Appended

variable {N' : Naming S} {inst : Inst} (happ : Appended f g b inst)
include happ

lemma named_appended (h : f.Renders w P N G) {l l' : Label} {hlegal : l.Legal S} {j : InstId}
    (hl : (N.set f.nextInst l hlegal).label j = some l') : j.index < g.instCapacity := by
  rw [happ.capacity]
  rcases Naming.label_set_cases hl with ⟨rfl, -⟩ | hl
  · exact Nat.lt_succ_self _
  · exact Nat.lt_succ_of_lt (h.named j l' hl)

lemma listed_appended (h : f.Renders w P N G) {j : InstId} {c : BlockId} {node : Phi}
    (hp : f.inst? j = some ⟨.phi node, c⟩) : ∃ cc, g.block? c = some cc ∧ j ∈ cc.phis := by
  obtain ⟨cc, hcc, hj⟩ := h.listed j c node hp
  rw [happ.block, hcc]
  split
  · cases hphi : inst.isPhi
    · exact ⟨_, rfl, hj⟩
    · exact ⟨_, rfl, List.mem_append_left _ hj⟩
  · exact ⟨cc, rfl, hj⟩

lemma unfolded_appended (h : f.Renders w P N G) {j : InstId} (hj : j ∈ G) :
    ∃ c node, g.inst? j = some ⟨.phi node, c⟩ := by
  obtain ⟨c, node, hp⟩ := h.unfolded j hj
  exact ⟨c, node, happ.inst_old hp⟩

lemma ends_appended (h : f.Renders w P N G) (hle : N.Le N') {c : BlockId} {cc : Block}
    (hc : g.block? c = some cc) : N'.Ends w c (P.terminator? c) cc.terminator := by
  obtain ⟨old, hold, rfl⟩ := happ.of_block hc
  have hends := (h.ends c old hold).mono hle
  split
  · cases hphi : inst.isPhi
    · exact hends
    · exact hends
  · exact hends

lemma preds_appended (h : f.Renders w P N G) (c p : BlockId) : p ∈ g.preds c ↔ P.Edge p c := by
  rw [happ.preds_eq]
  exact h.preds c p

lemma sources_appended (h : f.Renders w P N G) {c p : BlockId} (hp : P.Edge p c) :
    g.hasBlock p = true := by
  rw [happ.hasBlock_eq]
  exact h.sources c p hp

end Appended

/-- A new phi is guarded, and merges a variable on entry to its block. -/
lemma newPhi (h : f.Renders w P N G) (hb : (Label.merge b x).Legal S)
    (happ : Appended f g b (.phi .empty)) (hbb : ∃ bb, f.block? b = some bb) :
    g.Renders w P (N.set f.nextInst (.merge b x) hb) (f.nextInst :: G) := by
  have hle : N.Le (N.set f.nextInst (.merge b x) hb) := .set N hb h.label_nextInst
  have hcode : ∀ j k c n, (N.set f.nextInst (.merge b x) hb).label j = some (.code k c n) →
      N.label j = some (.code k c n) := by
    intro j k c n hl
    rcases Naming.label_set_cases hl with ⟨-, he⟩ | hl
    · cases he
    · exact hl
  constructor
  case named => exact fun j l hl => h.named_appended happ hl
  case told =>
    intro j k c n hl
    exact h.told j k c n (hcode j k c n hl)
  case once =>
    intro j j' k c n hj hj'
    exact h.once j j' k c n (hcode _ _ _ _ hj) (hcode _ _ _ _ hj')
  case code =>
    intro j p hp hphi
    rcases happ.of_inst hp with ⟨rfl, rfl⟩ | hp
    · cases hphi
    · exact (h.code j p hp hphi).mono hle
  case phi =>
    intro j c node hp
    rcases happ.of_inst hp with ⟨rfl, he⟩ | hp
    · cases he
      refine ⟨x, Naming.label_set_self .., ?_⟩
      intro op hop
      cases hop
    · exact (h.phi j c node hp).mono hle
  case complete =>
    intro j c node hp hnot
    rcases happ.of_inst hp with ⟨rfl, -⟩ | hp
    · exact absurd List.mem_cons_self hnot
    · exact h.complete j c node hp fun hG => hnot (List.mem_cons_of_mem _ hG)
  case listed =>
    intro j c node hp
    rcases happ.of_inst hp with ⟨rfl, he⟩ | hp
    · cases he
      obtain ⟨bb, hbb⟩ := hbb
      refine ⟨bb.append f.nextInst true, ?_, ?_⟩
      · rw [happ.block, if_pos rfl, hbb]
        rfl
      · exact List.mem_append_right _ (List.mem_singleton_self _)
    · exact h.listed_appended happ hp
  case unfolded =>
    intro j hj
    rcases List.mem_cons.1 hj with rfl | hj
    · exact ⟨b, .empty, by rw [happ.inst, if_pos rfl]⟩
    · exact h.unfolded_appended happ hj
  case body =>
    intro c cc hc
    obtain ⟨old, hold', rfl⟩ := happ.of_block hc
    have hbody := hle.map_label (h.body c old hold')
    split
    · exact hbody
    · exact hbody
  case ends => exact fun c cc hc => h.ends_appended happ hle hc
  case preds => exact h.preds_appended happ
  case sources => exact fun c p hp => h.sources_appended happ hp

/-- An operand of a phi is set to what holds the content at the end of its block. -/
lemma setIncoming (h : f.Renders w P N G) (hi : f.inst? i = some ⟨.phi node, b⟩)
    (hl : N.label i = some (.merge b x)) {p : BlockId} {v : Value}
    (hv : N.Holds w v (content x) (S.final p)) :
    (f.modifyPhi i (·.setIncoming p v)).Renders w P N G := by
  have hinst := inst?_modifyPhi (·.setIncoming p v) hi
  refine { h with named := ?_, code := ?_, phi := ?_, complete := ?_, listed := ?_, unfolded := ?_ }
  · intro j l hj
    rw [instCapacity_modifyPhi]
    exact h.named j l hj
  · intro j q hq hphi
    rw [hinst] at hq
    split at hq
    · cases hq
      cases hphi
    · exact h.code j q hq hphi
  · intro j c node' hq
    rw [hinst] at hq
    split at hq
    · rename_i hj
      cases hq
      obtain ⟨y, hy, hops⟩ := h.phi i b node hi
      rw [hl] at hy
      cases hy
      refine ⟨x, hj ▸ hl, ?_⟩
      -- the operand that was set holds the content, and the others held theirs
      intro op hop
      rcases Phi.mem_setOperand hop with rfl | hop
      · exact hv
      · exact hops op hop
    · exact h.phi j c node' hq
  · intro j c node' hq hnot
    rw [hinst] at hq
    split at hq
    · rename_i hj
      cases hq
      intro q hq
      exact Phi.mem_blocks_setIncoming.2 (.inr (h.complete i b node hi (hj ▸ hnot) q hq))
    · exact h.complete j c node' hq hnot
  · intro j c node' hq
    rw [hinst] at hq
    split at hq
    · rename_i hj
      cases hq
      exact hj ▸ h.listed i b node hi
    · exact h.listed j c node' hq
  · intro j hj
    rw [hinst]
    split
    · exact ⟨b, _, rfl⟩
    · exact h.unfolded j hj

/-- Operands may be changed as long as they hold what they held. -/
lemma mapOperands (h : f.Renders w P N G) {g : Value → Value} (hg : N.Keeps w g) :
    (f.mapOperands g).Renders w P N G := by
  -- a phi was a phi with the same blocks before
  have hphi : ∀ i b node, (f.mapOperands g).inst? i = some ⟨.phi node, b⟩ →
      ∃ old, f.inst? i = some ⟨.phi old, b⟩ ∧ node = old.mapValues g := by
    intro i b node hi
    rw [inst?_mapOperands] at hi
    obtain ⟨⟨inst, c⟩, hp, he⟩ := Option.map_eq_some_iff.1 hi
    cases inst with
    | phi old =>
      cases he
      exact ⟨old, hp, rfl⟩
    | _ => cases he
  constructor
  case named =>
    intro i l hl
    rw [instCapacity_mapOperands]
    exact h.named i l hl
  case told => exact h.told
  case once => exact h.once
  case code =>
    intro i p hp hnot
    rw [inst?_mapOperands] at hp
    obtain ⟨q, hq, rfl⟩ := Option.map_eq_some_iff.1 hp
    rw [Inst.isPhi_mapOperands] at hnot
    obtain ⟨k, j, told, g', hl, hs, he, hops⟩ := h.code i q hq hnot
    refine ⟨k, j, told, fun v => g (g' v), hl, hs, ?_, fun v hv => hg _ _ _ (hops v hv)⟩
    rw [he, Inst.mapOperands_mapOperands]
  case phi =>
    intro i b node hi
    obtain ⟨old, hold, rfl⟩ := hphi i b node hi
    obtain ⟨x, hl, hops⟩ := h.phi i b old hold
    refine ⟨x, hl, ?_⟩
    intro op hop
    obtain ⟨op', hop', rfl⟩ := List.mem_map.1 hop
    exact hg _ _ _ (hops op' hop')
  case complete =>
    intro i b node hi hnot p hp
    obtain ⟨old, hold, rfl⟩ := hphi i b node hi
    rw [Phi.blocks_mapValues]
    exact h.complete i b old hold hnot p hp
  case listed =>
    intro i b node hi
    obtain ⟨old, hold, rfl⟩ := hphi i b node hi
    obtain ⟨bb, hbb, hmem⟩ := h.listed i b old hold
    rw [block?_mapOperands, hbb]
    exact ⟨_, rfl, hmem⟩
  case unfolded =>
    intro i hi
    obtain ⟨b, node, hp⟩ := h.unfolded i hi
    rw [inst?_mapOperands, hp]
    exact ⟨b, _, rfl⟩
  case body =>
    intro b bb hb
    rw [block?_mapOperands] at hb
    obtain ⟨old, hold, rfl⟩ := Option.map_eq_some_iff.1 hb
    exact h.body b old hold
  case ends =>
    intro b bb hb
    rw [block?_mapOperands] at hb
    obtain ⟨old, hold, rfl⟩ := Option.map_eq_some_iff.1 hb
    obtain ⟨g', he, hops⟩ := h.ends b old hold
    refine ⟨fun v => g (g' v), ?_, fun t ht v hv => hg _ _ _ (hops t ht v hv)⟩
    show old.terminator.map _ = _
    rw [he, Option.map_map]
    congr 1
    funext t
    exact Terminator.mapOperands_mapOperands g' g t
  case preds =>
    intro b p
    rw [preds_mapOperands]
    exact h.preds b p
  case sources =>
    intro b p hp
    rw [hasBlock_mapOperands]
    exact h.sources b p hp

/-- A phi is in no body, where all is code. -/
lemma phi_not_mem_body (h : f.Renders w P N G) (hi : f.inst? i = some ⟨.phi node, b⟩)
    {c : BlockId} {cc : Block} (hc : f.block? c = some cc) : i ∉ cc.body := by
  intro hmem
  obtain ⟨x, hx, -⟩ := h.phi i b node hi
  have hcode : N.label i ∈ (codesFrom c 0 (P.stmts c)).map some :=
    h.body c cc hc ▸ List.mem_map_of_mem hmem
  obtain ⟨l, hl, he⟩ := List.mem_map.1 hcode
  rw [hx] at he
  cases he
  exact merge_not_mem_codesFrom _ _ _ _ _ hl

/-- A phi that is not being filled may be removed. -/
lemma removePhi (h : f.Renders w P N G) (hi : f.inst? i = some ⟨.phi node, b⟩) (hG : i ∉ G) :
    (f.removeInst i).Renders w P N G := by
  have hinst : ∀ j p, (f.removeInst i).inst? j = some p → j ≠ i ∧ f.inst? j = some p := by
    intro j p hp
    rw [inst?_removeInst] at hp
    split at hp
    · cases hp
    · rename_i hne
      exact ⟨hne, hp⟩
  -- the block that listed the phi has lost it, all others are as they were
  have hblock : ∀ c cc, (f.removeInst i).block? c = some cc → ∃ old, f.block? c = some old ∧
      (cc = old ∨ cc = old.unlist i) := by
    intro c cc hc
    rw [block?_removeInst hi] at hc
    split at hc
    · obtain ⟨old, hold, rfl⟩ := Option.map_eq_some_iff.1 hc
      exact ⟨old, hold, .inr rfl⟩
    · exact ⟨cc, hc, .inl rfl⟩
  constructor
  case named =>
    intro j l hl
    rw [instCapacity_removeInst]
    exact h.named j l hl
  case told => exact h.told
  case once => exact h.once
  case code =>
    intro j p hp hnot
    exact h.code j p (hinst j p hp).2 hnot
  case phi =>
    intro j c node' hj
    exact h.phi j c node' (hinst j _ hj).2
  case complete =>
    intro j c node' hj
    exact h.complete j c node' (hinst j _ hj).2
  case listed =>
    intro j c node' hj
    obtain ⟨hne, hj⟩ := hinst j _ hj
    obtain ⟨cc, hcc, hmem⟩ := h.listed j c node' hj
    rw [block?_removeInst hi, hcc]
    split
    · refine ⟨_, rfl, ?_⟩
      show j ∈ cc.phis.filter (· ≠ i)
      simpa using ⟨hmem, hne⟩
    · exact ⟨cc, rfl, hmem⟩
  case unfolded =>
    intro j hj
    have hne : j ≠ i := fun he => hG (he ▸ hj)
    rw [inst?_removeInst, if_neg hne]
    exact h.unfolded j hj
  case body =>
    intro c cc hc
    obtain ⟨old, hold, rfl | rfl⟩ := hblock c cc hc
    · exact h.body c _ hold
    · rw [← h.body c old hold]
      congr 1
      apply List.filter_eq_self.2
      intro j hj
      rw [decide_eq_true_eq]
      rintro rfl
      exact h.phi_not_mem_body hi hold hj
  case ends =>
    intro c cc hc
    obtain ⟨old, hold, rfl | rfl⟩ := hblock c cc hc
    · exact h.ends c _ hold
    · exact h.ends c old hold
  case preds =>
    intro c p
    rw [preds_removeInst]
    exact h.preds c p
  case sources =>
    intro c p hp
    rw [hasBlock_removeInst]
    exact h.sources c p hp

/-- A phi that is not being filled and amounts to one value stands for it. -/
lemma standsFor (h : f.Renders w P N G) (hS : S.Once) (hi : f.inst? i = some ⟨.phi node, b⟩)
    (hG : i ∉ G) {same : Value} (ht : node.trivial? i = some same) : N.StandsFor w i same := by
  obtain ⟨x, hl, hops⟩ := h.phi i b node hi
  obtain ⟨hall, hmem⟩ := Phi.trivial?_some ht
  have htrivial : N.Trivial w i b x same := by
    refine ⟨hl, ?_, ?_⟩
    · intro j hj
      rcases hmem with he | hmem
      · rw [he] at hj
        cases hj
      · obtain ⟨op, hop, he⟩ := List.mem_map.1 hmem
        obtain ⟨l, hl, -⟩ := (hops op hop).avail j (he.trans hj)
        exact ⟨l, hl⟩
    · intro p hp
      obtain ⟨op, hop, rfl⟩ := List.mem_map.1 (h.complete i b node hi hG p hp)
      exact ⟨op.value, hall _ (List.mem_map_of_mem hop), hops op hop⟩
  exact htrivial.standsFor hS

end Func.Renders

/-! ## Folding -/

lemma Naming.StandsFor.keeps {S : Program} {N : Naming S} {w : World} {i : InstId} {same : Value}
    (h : N.StandsFor w i same) : N.Keeps w (Value.subst (.inst i) same) :=
  fun _ _ _ hv => hv.subst h

/-- Replacements of phis by what they stand for can be followed. -/
lemma Replacement.keeps_resolve {S : Program} {N : Naming S} {w : World} {rs : List Replacement}
    (h : ∀ r ∈ rs, N.StandsFor w r.phi r.same) : N.Keeps w (resolve rs) := by
  intro v q π hv
  refine repeatUpTo_induct (fun u => N.Holds w u q π) ?_ _ v hv
  intro u u' hu hstep
  obtain ⟨i, hi, hfind⟩ := Option.bind_eq_some_iff.1 hstep
  obtain ⟨r, hr, rfl⟩ := Option.map_eq_some_iff.1 hfind
  have hu' : u = .inst i := by
    cases u with
    | inst j => rw [Option.some.inj hi]
    | const c | arg n | undef => cases hi
  have hphi : r.phi = i := by simpa using List.find?_some hr
  have hsubst := hu.subst (h r (List.mem_of_find?_eq_some hr))
  rw [hu', ← hphi] at hsubst
  simpa [Value.subst] using hsubst

namespace Func

/-- The blocks that the operands of a phi come from, none if it is not a phi. -/
def span (f : Func) (i : InstId) : List BlockId := (f.phi? i).elim [] Phi.blocks

@[simp] lemma span_mapOperands (f : Func) (g : Value → Value) (i : InstId) :
    (f.mapOperands g).span i = f.span i := by
  unfold span phi?
  rw [inst?_mapOperands]
  cases f.inst? i with
  | none => rfl
  | some p =>
    obtain ⟨inst, b⟩ := p
    cases inst with
    | phi node => exact Phi.blocks_mapValues g node
    | _ => rfl

lemma span_removeInst (f : Func) {i j : InstId} (h : j ≠ i) :
    (f.removeInst i).span j = f.span j := by
  unfold span phi?
  rw [inst?_removeInst, if_neg h]

lemma span_appended {f g : Func} {b : BlockId} {new : Inst} (h : Appended f g b new) {i : InstId}
    {p : PlacedInst} (hi : f.inst? i = some p) : g.span i = f.span i := by
  unfold span phi?
  rw [h.inst_old hi, hi]

lemma span_modifyPhi_ne {f : Func} {i j : InstId} {node : Phi} {b : BlockId} (g : Phi → Phi)
    (h : f.inst? i = some ⟨.phi node, b⟩) (hne : j ≠ i) : (f.modifyPhi i g).span j = f.span j := by
  unfold span phi?
  rw [inst?_modifyPhi g h, if_neg hne]

lemma span_eq {f : Func} {i : InstId} {node : Phi} {b : BlockId}
    (h : f.inst? i = some ⟨.phi node, b⟩) : f.span i = node.blocks := by
  unfold span phi?
  rw [h]
  rfl

namespace PhiFold

variable {S : Program} {w : World} {P : Program} {N : Naming S} {G : List InstId}

/-- What folding keeps: the function renders the program, what was replaced stood for its
replacement, and the phis that are being filled are not touched. -/
structure Sound (w : World) (P : Program) (N : Naming S) (G : List InstId) (f : Func)
    (s : PhiFold) : Prop where
  renders : s.func.Renders w P N G
  stood : ∀ r ∈ s.replaced, N.StandsFor w r.phi r.same
  span : ∀ i ∈ G, s.func.span i = f.span i

lemma Sound.step {f : Func} {s s' : PhiFold} {mayFold : InstId → Bool} (hS : S.Once)
    (h : s.Sound w P N G f) (hG : ∀ i ∈ G, mayFold i = false) (hstep : s.step mayFold = some s') :
    s'.Sound w P N G f := by
  rcases step_cases hstep with ⟨hfunc, hrs⟩ | ⟨i, same, node, hmay, hi, ht, hfunc, hrs⟩
  · refine ⟨hfunc ▸ h.renders, hrs ▸ h.stood, ?_⟩
    intro j hj
    rw [hfunc, h.span j hj]
  · have hnot : i ∉ G := by
      intro hi
      rw [hG i hi] at hmay
      cases hmay
    obtain ⟨b, hinst⟩ := phi?_some hi
    have hstands := h.renders.standsFor hS hinst hnot ht
    have hreplaced : (s.func.replaceUses i same).inst? i =
        some ⟨.phi (node.mapValues (Value.subst (.inst i) same)), b⟩ := by
      unfold replaceUses
      rw [inst?_mapOperands, hinst]
      rfl
    refine ⟨?_, ?_, ?_⟩
    · rw [hfunc]
      exact (h.renders.mapOperands hstands.keeps).removePhi hreplaced hnot
    · rw [hrs]
      intro r hr
      rcases List.mem_append.1 hr with hr | hr
      · exact h.stood r hr
      · rw [List.mem_singleton.1 hr]
        exact hstands
    · intro j hj
      have hne : j ≠ i := fun he => hnot (he ▸ hj)
      rw [hfunc, span_removeInst _ hne]
      unfold replaceUses
      rw [span_mapOperands, h.span j hj]

end PhiFold

/-- Folding keeps a function rendering its program, leaves guarded phis alone, and replaces
phis by what they stand for. -/
lemma Renders.foldTrivialPhis {S : Program} {w : World} {P : Program} {N : Naming S}
    {G : List InstId} {f : Func} (h : f.Renders w P N G) (hS : S.Once) (candidates : List InstId)
    {mayFold : InstId → Bool} (hG : ∀ i ∈ G, mayFold i = false) :
    (f.foldTrivialPhis candidates mayFold).1.Renders w P N G ∧
      (∀ r ∈ (f.foldTrivialPhis candidates mayFold).2, N.StandsFor w r.phi r.same) ∧
      ∀ i ∈ G, (f.foldTrivialPhis candidates mayFold).1.span i = f.span i := by
  have hstart : (⟨f, candidates, candidates, []⟩ : PhiFold).Sound w P N G f := by
    refine ⟨h, ?_, fun i _ => rfl⟩
    intro r hr
    cases hr
  have hend := repeatUpTo_induct (fun s => PhiFold.Sound w P N G f s)
    (fun s s' hs hstep => hs.step hS hG hstep) (f.phiFoldBound candidates) _ hstart
  exact ⟨hend.renders, hend.stood, hend.span⟩

end Func

end SsaBackend
