import SsaBackend.Proofs.Func.Dominated
import SsaBackend.Proofs.Preheader.Inserted

/-!
# Inserting a preheader keeps a function sound

Paths of the function with the preheader are paths of the function without it, with the
preheader slipped in where they enter the header (`Inserted.route`, `Inserted.lift`). So blocks
that were there dominate each other as before (`Inserted.dom_iff`), and uses stay dominated
(`Inserted.dominated`): what the header received over an entering edge is now read by the
preheader at the end of the same predecessor, or was one value that is available at the ends of
all of them and so above the preheader.
-/

namespace SsaBackend

lemma Terminator.mem_successors_branch {c : Value} {x y s : BlockId} :
    s ∈ (branch c x y).successors ↔ s = x ∨ s = y := by
  show s ∈ (if y = x then [x] else [x, y]) ↔ _
  split
  · rename_i h
    simp [h]
  · simp

/-- The targets of a terminator whose edges to `old` go to `new`. -/
lemma Terminator.mem_successors_retarget {old new s : BlockId} {t : Terminator} :
    s ∈ (t.retarget old new).successors ↔
      ∃ r ∈ t.successors, s = if r = old then new else r := by
  cases t with
  | jump b => simp [retarget, successors]
  | branch c x y =>
    unfold retarget
    rw [mem_successors_branch]
    constructor
    · rintro (h | h)
      · exact ⟨x, mem_successors_branch.2 (.inl rfl), h⟩
      · exact ⟨y, mem_successors_branch.2 (.inr rfl), h⟩
    · rintro ⟨r, hr, h⟩
      rcases mem_successors_branch.1 hr with rfl | rfl
      · exact .inl h
      · exact .inr h
  | ret v => simp [retarget, successors]

lemma Terminator.operands_retarget (old new : BlockId) (t : Terminator) :
    (t.retarget old new).operands = t.operands := by
  cases t <;> rfl

namespace Preheaders

open Func

variable {f g : Func} {header pre : BlockId} {outside : List BlockId} {hh : Block}
  {new : List InstId}

namespace Entered

lemma pred (he : Entered f header outside hh) {p : BlockId} (hp : p ∈ outside) :
    p ∈ f.preds header := by
  rw [preds_of_block he.block]
  exact he.preds p hp

/-- The edge from outside to the header. -/
lemma edge (he : Entered f header outside hh) {p : BlockId} (hp : p ∈ outside) :
    header ∈ f.succs p := he.tight.edges p header (he.pred hp)

/-- An instruction that is no phi is no phi of the header. -/
lemma not_phi (he : Entered f header outside hh) {i : InstId} {p : PlacedInst}
    (hp : f.inst? i = some p) (hphi : p.inst.isPhi = false) : i ∉ hh.phis := by
  intro hi
  obtain ⟨node, hnode, -⟩ := he.wired.phis header hh he.block i hi
  rw [hp] at hnode
  cases hnode
  cases hphi

end Entered

namespace Inserted

/-! ## Blocks and edges -/

lemma ne_of_block (h : Inserted f g header pre outside hh new) {b : BlockId} {bb : Block}
    (hb : f.block? b = some bb) : b ≠ pre := by
  rintro rfl
  rw [h.fresh] at hb
  cases hb

lemma ne_of_succ (h : Inserted f g header pre outside hh new) {b s : BlockId}
    (hs : s ∈ f.succs b) : b ≠ pre := by
  obtain ⟨bb, hb⟩ := exists_block_of_succ hs
  exact h.ne_of_block hb

/-- No block had the preheader as its predecessor. -/
lemma ne_of_pred (h : Inserted f g header pre outside hh new) (he : Entered f header outside hh)
    {b p : BlockId} (hp : p ∈ f.preds b) : p ≠ pre := h.ne_of_succ (he.tight.edges p b hp)

lemma block_inv (h : Inserted f g header pre outside hh new) {b : BlockId} {bb' : Block}
    (hb : g.block? b = some bb') (hne : b ≠ pre) :
    ∃ bb, f.block? b = some bb ∧ bb'.phis = bb.phis ∧ bb'.body = bb.body ∧
      bb'.preds = (if b = header then bb.preds.filter (!outside.contains ·) ++ [pre]
        else bb.preds) ∧
      bb'.terminator =
        if b ∈ outside then bb.terminator.map (·.retarget header pre) else bb.terminator := by
  rw [h.old b hne] at hb
  obtain ⟨bb, hbb, rfl⟩ := Option.map_eq_some_iff.1 hb
  exact ⟨bb, hbb, rfl, rfl, rfl, rfl⟩

lemma block_eq (h : Inserted f g header pre outside hh new) {b : BlockId} {bb : Block}
    (hb : f.block? b = some bb) : ∃ bb', g.block? b = some bb' ∧ bb'.phis = bb.phis ∧
      bb'.body = bb.body := by
  rw [h.old b (h.ne_of_block hb), hb]
  exact ⟨_, rfl, rfl, rfl⟩

lemma succs_preheader (h : Inserted f g header pre outside hh new) : g.succs pre = [header] :=
  succs_of_terminator h.preheader rfl

lemma preds_preheader (h : Inserted f g header pre outside hh new) : g.preds pre = outside :=
  preds_of_block h.preheader

/-- Where the edges of an old block go. -/
lemma mem_succs (h : Inserted f g header pre outside hh new) {b s : BlockId} (hb : b ≠ pre) :
    s ∈ g.succs b ↔ ∃ r ∈ f.succs b, s = if b ∈ outside ∧ r = header then pre else r := by
  unfold succs
  rw [h.old b hb]
  cases f.block? b with
  | none => simp
  | some bb =>
    simp only [Option.map_some, Option.elim_some, Block.successors]
    by_cases ho : b ∈ outside
    · rw [if_pos ho]
      cases bb.terminator with
      | none => simp
      | some t => simp [Terminator.mem_successors_retarget, ho]
    · rw [if_neg ho]
      simp [ho]

/-- Successors are blocks of the old function, or none of its blocks is the preheader. -/
lemma succ_ne (h : Inserted f g header pre outside hh new) (he : Entered f header outside hh)
    {b s : BlockId} (hs : s ∈ f.succs b) : s ≠ pre := by
  obtain ⟨ss, hss⟩ := he.tight.targets b s hs
  exact h.ne_of_block hss

lemma preds_old (h : Inserted f g header pre outside hh new) (he : Entered f header outside hh)
    {b : BlockId} (hb : b ≠ pre) : g.preds b =
      if b = header then (f.preds b).filter (!outside.contains ·) ++ [pre] else f.preds b := by
  unfold preds
  rw [h.old b hb]
  cases hbb : f.block? b with
  | none =>
    have hbh : b ≠ header := by
      rintro rfl
      rw [he.block] at hbb
      cases hbb
    simp [hbh]
  | some bb => rfl

/-- An edge of the new function between old blocks is an old one, and does not enter. -/
lemma edge_inv (h : Inserted f g header pre outside hh new) {b s : BlockId}
    (hb : b ≠ pre) (hs : s ≠ pre) (hedge : s ∈ g.succs b) :
    s ∈ f.succs b ∧ ¬ (b ∈ outside ∧ s = header) := by
  obtain ⟨r, hr, he⟩ := (h.mem_succs hb).1 hedge
  split at he
  · exact absurd he hs
  · rename_i hnot
    subst he
    exact ⟨hr, hnot⟩

/-- Only the entering blocks lead to the preheader. -/
lemma mem_outside (h : Inserted f g header pre outside hh new) (he : Entered f header outside hh)
    {b : BlockId} (hedge : pre ∈ g.succs b) : b ∈ outside := by
  have hb : b ≠ pre := by
    rintro rfl
    rw [h.succs_preheader, List.mem_singleton] at hedge
    exact h.ne_of_block he.block hedge.symm
  obtain ⟨r, hr, heq⟩ := (h.mem_succs hb).1 hedge
  split at heq
  · rename_i hin
    exact hin.1
  · exact absurd heq.symm (h.succ_ne he hr)

lemma edge_preheader (h : Inserted f g header pre outside hh new)
    (he : Entered f header outside hh) {b : BlockId} (hb : b ∈ outside) : pre ∈ g.succs b :=
  (h.mem_succs (h.ne_of_succ (he.edge hb))).2 ⟨header, he.edge hb, by rw [if_pos ⟨hb, rfl⟩]⟩

/-- Edges that do not enter stay. -/
lemma edge_keep (h : Inserted f g header pre outside hh new) {b s : BlockId}
    (hs : s ∈ f.succs b) (hnot : ¬ (b ∈ outside ∧ s = header)) : s ∈ g.succs b :=
  (h.mem_succs (h.ne_of_succ hs)).2 ⟨s, hs, by rw [if_neg hnot]⟩

lemma preheader_not_outside (h : Inserted f g header pre outside hh new)
    (he : Entered f header outside hh) : pre ∉ outside :=
  fun hp => h.ne_of_succ (he.edge hp) rfl

/-! ## Paths -/

/-- Without the preheader, a path is one of the old function. -/
lemma route (h : Inserted f g header pre outside hh new) (he : Entered f header outside hh)
    {l : List Nat} (hl : Route g.cfg.Edge g.cfg.entry l) :
    ∀ n r, l = n :: r →
      (n ≠ pre.index → Route f.cfg.Edge f.cfg.entry (n :: r.filter (· ≠ pre.index))) ∧
      (n = pre.index → ∃ p : BlockId, ∃ r', r = p.index :: r' ∧ p ∈ outside ∧
        Route f.cfg.Edge f.cfg.entry (p.index :: r'.filter (· ≠ pre.index))) := by
  induction hl with
  | start =>
    intro n r hr
    cases hr
    refine ⟨fun _ => .start, fun hn => ?_⟩
    obtain ⟨ee, hee⟩ := he.wired.start
    exact absurd (BlockId.index_inj.1 hn) (h.ne_of_block hee)
  | @step m n r walk last ih =>
    intro n' r' hr
    cases hr
    have hedge : (⟨n⟩ : BlockId) ∈ g.succs ⟨m⟩ := edge_iff.1 last
    obtain ⟨hold, hnew⟩ := ih m r rfl
    by_cases hm : m = pre.index
    · -- from the preheader the path goes on to the header
      obtain ⟨p, r', rfl, hp, hroute⟩ := hnew hm
      have hmp : (⟨m⟩ : BlockId) = pre := BlockId.index_inj.1 hm
      rw [hmp, h.succs_preheader, List.mem_singleton] at hedge
      have hpne : p.index ≠ pre.index := by
        intro hpp
        exact h.preheader_not_outside he (BlockId.index_inj.1 hpp ▸ hp)
      refine ⟨fun _ => ?_, fun hn => ?_⟩
      · have hfilter : (m :: p.index :: r').filter (· ≠ pre.index) =
            p.index :: r'.filter (· ≠ pre.index) := by
          rw [List.filter_cons_of_neg (by simpa using hm),
            List.filter_cons_of_pos (by simpa using hpne)]
        rw [hfilter]
        refine hroute.step ?_
        have : header ∈ f.succs p := he.edge hp
        rw [show n = header.index from congrArg BlockId.index hedge]
        exact edge_iff.2 this
      · have : header = pre := by
          rw [← hedge]
          exact BlockId.index_inj.1 hn
        exact absurd this (h.ne_of_block he.block)
    · have hmne : (⟨m⟩ : BlockId) ≠ pre := fun hc => hm (congrArg BlockId.index hc)
      have hfilter : (m :: r).filter (· ≠ pre.index) = m :: r.filter (· ≠ pre.index) :=
        List.filter_cons_of_pos (by simpa using hm)
      refine ⟨fun hn => ?_, fun hn => ?_⟩
      · -- a step of the new function between old blocks is one of the old
        rw [hfilter]
        have hnne : (⟨n⟩ : BlockId) ≠ pre := fun hc => hn (congrArg BlockId.index hc)
        exact (hold hm).step (edge_iff (b := ⟨m⟩) (s := ⟨n⟩).2 (h.edge_inv hmne hnne hedge).1)
      · have hnp : (⟨n⟩ : BlockId) = pre := BlockId.index_inj.1 hn
        rw [hnp] at hedge
        exact ⟨⟨m⟩, r, rfl, h.mem_outside he hedge, hold hm⟩

/-- A path of the old function becomes one of the new by slipping in the preheader. -/
lemma lift (h : Inserted f g header pre outside hh new) (he : Entered f header outside hh)
    {l : List Nat} (hl : Route f.cfg.Edge f.cfg.entry l) :
    ∀ n r, l = n :: r → ∃ r', Route g.cfg.Edge g.cfg.entry (n :: r') ∧
      (∀ m ∈ r', m ∈ r ∨ m = pre.index) ∧ (header.index ∉ l → pre.index ∉ r') := by
  induction hl with
  | start =>
    intro n r hr
    cases hr
    exact ⟨[], .start, by simp, by simp⟩
  | @step m n r walk last ih =>
    intro n' r' hr
    cases hr
    obtain ⟨r', hroute, hmem, hclean⟩ := ih m r rfl
    have hedge : (⟨n⟩ : BlockId) ∈ f.succs ⟨m⟩ := edge_iff.1 last
    by_cases hin : (⟨m⟩ : BlockId) ∈ outside ∧ (⟨n⟩ : BlockId) = header
    · have hstep := hroute.step (edge_iff (b := ⟨m⟩) (s := pre).2 (h.edge_preheader he hin.1))
      have hlast : (⟨n⟩ : BlockId) ∈ g.succs pre := by
        rw [h.succs_preheader, hin.2]
        exact List.mem_singleton_self _
      refine ⟨pre.index :: m :: r', hstep.step (edge_iff (s := ⟨n⟩).2 hlast), ?_, ?_⟩
      · intro k hk
        rcases List.mem_cons.1 hk with rfl | hk
        · exact .inr rfl
        · rcases List.mem_cons.1 hk with rfl | hk
          · exact .inl List.mem_cons_self
          · exact (hmem k hk).imp_left (List.mem_cons_of_mem _)
      · intro hnot
        exact absurd (by rw [← hin.2]; exact List.mem_cons_self) hnot
    · have hstep := hroute.step (edge_iff (b := ⟨m⟩) (s := ⟨n⟩).2 (h.edge_keep hedge hin))
      refine ⟨m :: r', hstep, ?_, ?_⟩
      · intro k hk
        rcases List.mem_cons.1 hk with rfl | hk
        · exact .inl List.mem_cons_self
        · exact (hmem k hk).imp_left (List.mem_cons_of_mem _)
      · intro hnot hk
        rcases List.mem_cons.1 hk with hk | hk
        · exact h.ne_of_succ hedge (BlockId.index_inj.1 hk).symm
        · exact hclean (fun hc => hnot (List.mem_cons_of_mem _ hc)) hk

lemma reached_iff (h : Inserted f g header pre outside hh new) (he : Entered f header outside hh)
    {b : BlockId} (hb : b ≠ pre) : g.Reached b ↔ f.Reached b := by
  constructor
  · rintro ⟨l, hl⟩
    exact ⟨_, (h.route he hl b.index l rfl).1 fun hc => hb (BlockId.index_inj.1 hc)⟩
  · rintro ⟨l, hl⟩
    obtain ⟨r, hr, -⟩ := h.lift he hl b.index l rfl
    exact ⟨r, hr⟩

lemma reached_preheader (h : Inserted f g header pre outside hh new)
    (he : Entered f header outside hh) {p : BlockId} (hp : p ∈ outside) (hr : f.Reached p) :
    g.Reached pre := by
  have hne : p ≠ pre := fun hc => h.preheader_not_outside he (hc ▸ hp)
  exact ((h.reached_iff he hne).2 hr).step (edge_iff.2 (h.edge_preheader he hp))

/-- Old blocks dominate each other as before. -/
lemma dom_iff (h : Inserted f g header pre outside hh new) (he : Entered f header outside hh)
    {d b : BlockId} (hd : d ≠ pre) (hb : b ≠ pre) : g.Dom d b ↔ f.Dom d b := by
  have hdne : d.index ≠ pre.index := fun hc => hd (BlockId.index_inj.1 hc)
  constructor
  · intro hdom l hl
    obtain ⟨r, hr, hmem, -⟩ := h.lift he hl b.index l rfl
    rcases List.mem_cons.1 (hdom r hr) with hc | hc
    · exact hc ▸ List.mem_cons_self
    · exact List.mem_cons_of_mem _ ((hmem _ hc).resolve_right hdne)
  · intro hdom l hl
    have hroute := (h.route he hl b.index l rfl).1 fun hc => hb (BlockId.index_inj.1 hc)
    rcases List.mem_cons.1 (hdom _ hroute) with hc | hc
    · exact hc ▸ List.mem_cons_self
    · exact List.mem_cons_of_mem _ (List.mem_filter.1 hc).1

/-- What dominates all the entering blocks dominates the preheader. -/
lemma dom_preheader (h : Inserted f g header pre outside hh new)
    (he : Entered f header outside hh) {d : BlockId}
    (hd : ∀ p ∈ outside, f.Reached p → f.Dom d p) : g.Dom d pre := by
  intro l hl
  obtain ⟨p, r, rfl, hp, hroute⟩ := (h.route he hl pre.index l rfl).2 rfl
  rcases List.mem_cons.1 (hd p hp ⟨_, hroute⟩ _ hroute) with hc | hc
  · exact hc ▸ List.mem_cons_of_mem _ List.mem_cons_self
  · exact List.mem_cons_of_mem _ (List.mem_cons_of_mem _ (List.mem_filter.1 hc).1)

lemma allReached (h : Inserted f g header pre outside hh new) (he : Entered f header outside hh)
    (hall : f.AllReached) : g.AllReached := by
  intro b bb' hb'
  by_cases hb : b = pre
  · subst hb
    obtain ⟨p, hp⟩ := List.exists_mem_of_ne_nil _ he.entered
    obtain ⟨pp, hpp⟩ := exists_block_of_succ (he.edge hp)
    exact h.reached_preheader he hp (hall p pp hpp)
  · obtain ⟨bb, hbb, -⟩ := h.block_inv hb' hb
    exact (h.reached_iff he hb).2 (hall b bb hbb)

/-! ## Tables -/

/-- The header has a new predecessor. -/
lemma not_mem_preds (h : Inserted f g header pre outside hh new)
    (he : Entered f header outside hh) : pre ∉ hh.preds := by
  intro hp
  refine h.ne_of_pred he (b := header) ?_ rfl
  rwa [preds_of_block he.block]

/-- Edges are recorded at their targets. -/
lemma linked (h : Inserted f g header pre outside hh new) (he : Entered f header outside hh)
    {b s : BlockId} {ss' : Block} (hs' : g.block? s = some ss') (hedge : s ∈ g.succs b) :
    b ∈ ss'.preds := by
  by_cases hs : s = pre
  · subst hs
    rw [h.preheader] at hs'
    cases hs'
    exact h.mem_outside he hedge
  · obtain ⟨ss, hss, -, -, hpreds, -⟩ := h.block_inv hs' hs
    rw [hpreds]
    by_cases hb : b = pre
    · subst hb
      rw [h.succs_preheader, List.mem_singleton] at hedge
      rw [if_pos hedge]
      exact List.mem_append_right _ (List.mem_singleton_self _)
    · obtain ⟨hold, hnot⟩ := h.edge_inv hb hs hedge
      have hmem := he.wired.linked b s ss hss hold
      split
      · rename_i hsh
        refine List.mem_append_left _ (List.mem_filter.2 ⟨hmem, ?_⟩)
        have : b ∉ outside := fun hc => hnot ⟨hc, hsh⟩
        simpa using this
      · exact hmem

/-- No predecessor is recorded twice. -/
lemma predsOnce (h : Inserted f g header pre outside hh new) (he : Entered f header outside hh)
    {b : BlockId} {bb' : Block} (hb' : g.block? b = some bb') : bb'.preds.Nodup := by
  by_cases hb : b = pre
  · subst hb
    rw [h.preheader] at hb'
    cases hb'
    exact he.once
  · obtain ⟨bb, hbb, -, -, hpreds, -⟩ := h.block_inv hb' hb
    have honce := he.wired.predsOnce b bb hbb
    rw [hpreds]
    split
    · rename_i hbh
      subst hbh
      rw [he.block] at hbb
      cases hbb
      refine List.Nodup.append (honce.filter _) (List.nodup_singleton _) ?_
      intro x hx hx'
      rw [List.mem_singleton.1 hx'] at hx
      exact h.not_mem_preds he (List.mem_filter.1 hx).1
    · exact honce

/-- A phi of the header has an operand for the preheader, and none for the entering edges. -/
lemma split_perm (h : Inserted f g header pre outside hh new) (he : Entered f header outside hh)
    {i : InstId} (hi : i ∈ hh.phis) : ∃ node, g.inst? i = some ⟨.phi node, header⟩ ∧
      node.blocks.Perm (hh.preds.filter (!outside.contains ·) ++ [pre]) := by
  obtain ⟨node, hnode, hperm⟩ := he.wired.phis header hh he.block i hi
  obtain ⟨v, hv, -⟩ := h.split i hi node hnode
  have honce : node.blocks.Nodup := hperm.nodup_iff.2 (he.wired.predsOnce header hh he.block)
  have hnot : pre ∉ node.blocks := fun hc => h.not_mem_preds he (hperm.mem_iff.1 hc)
  obtain ⟨-, hblocks⟩ := not_mem_blocks_rerouted honce (h.preheader_not_outside he) hnot v
  have hfilter : node.blocks.filter (fun x => decide (x ∉ outside)) =
      node.blocks.filter (!outside.contains ·) := by
    refine List.filter_congr fun x _ => ?_
    by_cases hx : x ∈ outside <;> simp [hx]
  refine ⟨_, hv, ?_⟩
  rw [hblocks, honce.sdiff_eq_filter, hfilter]
  exact (hperm.filter _).append_right _

lemma wired (h : Inserted f g header pre outside hh new) (he : Entered f header outside hh) :
    g.Wired := by
  have hf := he.wired
  refine ⟨?_, ?_, fun b s ss' hs' hedge => h.linked he hs' hedge,
    fun b bb' hb' => h.predsOnce he hb', ?_, ?_⟩
  · obtain ⟨ee, hee⟩ := hf.start
    obtain ⟨ee', hee', -⟩ := h.block_eq hee
    exact ⟨ee', hee'⟩
  · intro b bb' hb'
    by_cases hb : b = pre
    · subst hb
      rw [h.preheader] at hb'
      cases hb'
      exact ⟨_, rfl⟩
    · obtain ⟨bb, hbb, -, -, -, hterm⟩ := h.block_inv hb' hb
      obtain ⟨t, ht⟩ := hf.ended b bb hbb
      rw [hterm, ht]
      split
      · exact ⟨_, rfl⟩
      · exact ⟨t, rfl⟩
  · intro b bb' hb' i hi
    by_cases hb : b = pre
    · subst hb
      rw [h.preheader] at hb'
      cases hb'
      obtain ⟨-, node, hnode, hm⟩ := h.new i hi
      exact ⟨node, hnode, hm.blocks ▸ List.Perm.refl _⟩
    · obtain ⟨bb, hbb, hphis, -, hpreds, -⟩ := h.block_inv hb' hb
      rw [hphis] at hi
      rw [hpreds]
      split
      · rename_i hbh
        subst hbh
        rw [he.block] at hbb
        cases hbb
        -- a phi of the header lost its operands from outside, and the header those predecessors
        exact h.split_perm he hi
      · rename_i hbh
        obtain ⟨node, hnode, hperm⟩ := hf.phis b bb hbb i hi
        refine ⟨node, h.keeps i _ hnode ?_, hperm⟩
        exact hf.not_phi_of_ne he.block (Ne.symm hbh) ⟨bb, hbb, List.mem_append_left _ hi⟩
  · intro b bb' hb' i hi
    by_cases hb : b = pre
    · subst hb
      rw [h.preheader] at hb'
      cases hb'
      cases hi
    · obtain ⟨bb, hbb, -, hbody, -, -⟩ := h.block_inv hb' hb
      rw [hbody] at hi
      obtain ⟨p, hp, hblock, hphi⟩ := hf.body b bb hbb i hi
      exact ⟨p, h.keeps i p hp (he.not_phi hp hphi), hblock, hphi⟩

lemma tight (h : Inserted f g header pre outside hh new) (he : Entered f header outside hh) :
    g.Tight := by
  refine ⟨?_, ?_⟩
  · intro b s hb
    by_cases hs : s = pre
    · subst hs
      rw [h.preds_preheader] at hb
      exact h.edge_preheader he hb
    · rw [h.preds_old he hs] at hb
      split at hb
      · rename_i hsh
        rcases List.mem_append.1 hb with hb | hb
        · obtain ⟨hb, hout⟩ := List.mem_filter.1 hb
          refine h.edge_keep (he.tight.edges b s hb) fun hc => ?_
          simp [hc.1] at hout
        · rw [List.mem_singleton.1 hb, h.succs_preheader, hsh]
          exact List.mem_singleton_self _
      · rename_i hsh
        exact h.edge_keep (he.tight.edges b s hb) fun hc => hsh hc.2
  · intro b s hs
    by_cases hsp : s = pre
    · exact ⟨_, hsp ▸ h.preheader⟩
    · have hold : ∃ ss, f.block? s = some ss := by
        by_cases hb : b = pre
        · subst hb
          rw [h.succs_preheader, List.mem_singleton] at hs
          exact ⟨hh, hs ▸ he.block⟩
        · exact he.tight.targets b s (h.edge_inv hb hsp hs).1
      obtain ⟨ss, hss⟩ := hold
      obtain ⟨ss', hss', -⟩ := h.block_eq hss
      exact ⟨ss', hss'⟩

/-! ## Reads -/

lemma lists (h : Inserted f g header pre outside hh new) {b : BlockId} {i : InstId}
    (hl : f.Lists b i) : g.Lists b i := by
  obtain ⟨bb, hb, hi⟩ := hl
  obtain ⟨bb', hb', hphis, hbody⟩ := h.block_eq hb
  refine ⟨bb', hb', ?_⟩
  unfold Block.insts
  rw [hphis, hbody]
  exact hi

lemma available (h : Inserted f g header pre outside hh new) (he : Entered f header outside hh)
    {b : BlockId} (hb : b ≠ pre) {before : List InstId} {i : InstId}
    (ha : f.Available b before i) : g.Available b before i := by
  rcases ha with hi | ⟨d, hne, hdom, hl⟩
  · exact .inl hi
  · obtain ⟨dd, hdd, -⟩ := id hl
    exact .inr ⟨d, hne, (h.dom_iff he (h.ne_of_block hdd) hb).2 hdom, h.lists hl⟩

/-- What the phis of the header receive from the preheader is there at its end. -/
lemma available_preheader (h : Inserted f g header pre outside hh new)
    (he : Entered f header outside hh) (hd : f.DominatedWhereReached) (hreach : g.Reached pre)
    {i j : InstId} (hi : i ∈ hh.phis) {node : Phi} (hnode : f.inst? i = some ⟨.phi node, header⟩)
    (hv : Receives g outside new node (.inst j)) : g.Available pre new j := by
  rcases hv with hagree | ⟨k, hk, hjk, -⟩
  · have habove : ∀ p ∈ outside, f.Reached p → ∃ d, f.Lists d j ∧ f.Dom d p := by
      intro p hp hr
      obtain ⟨pp, hpp⟩ := exists_block_of_succ (he.edge hp)
      have hread : f.Reads (.inst j) p pp.insts :=
        .inPhi he.block hi (phi?_of_inst hnode) hpp (he.edge hp) (hagree p hp)
      obtain ⟨d, hl, hdom, -⟩ := (hd.reads p _ j hread hr).exists_above hread.place
      exact ⟨d, hl, hdom⟩
    -- some entering block is reached, since the preheader is
    obtain ⟨l, hl⟩ := hreach
    obtain ⟨p, r, -, hp, hroute⟩ := (h.route he hl pre.index l rfl).2 rfl
    obtain ⟨d, hlist, -⟩ := habove p hp ⟨_, hroute⟩
    obtain ⟨dd, hdd, -⟩ := id hlist
    refine .inr ⟨d, h.ne_of_block hdd, h.dom_preheader he ?_, h.lists hlist⟩
    intro q hq hr
    obtain ⟨d', hlist', hdom'⟩ := habove q hq hr
    rw [he.wired.lists_unique hlist hlist']
    exact hdom'
  · exact .inl (Value.inst.inj hjk ▸ hk)

/-- Other blocks list the same instructions as before. -/
lemma insts_eq (h : Inserted f g header pre outside hh new) {b : BlockId} {bb' : Block}
    (hb' : g.block? b = some bb') (hb : b ≠ pre) :
    ∃ bb, f.block? b = some bb ∧ bb'.insts = bb.insts := by
  obtain ⟨bb, hbb, hphis, hbody, -⟩ := h.block_inv hb' hb
  refine ⟨bb, hbb, ?_⟩
  unfold Block.insts
  rw [hphis, hbody]

/-- What a phi of the header receives now: from the preheader the value that it was given for the
entering edges, and from others what it received before. -/
lemma split_incoming (h : Inserted f g header pre outside hh new)
    (he : Entered f header outside hh) {i : InstId} {node node' : Phi} (hi : i ∈ hh.phis)
    (hnode : f.inst? i = some ⟨.phi node, header⟩) (hnode' : g.phi? i = some node')
    {b : BlockId} {v : Value} (hin : node'.incoming? b = some v) :
    (b = pre → Receives g outside new node v) ∧
      (b ≠ pre → b ∉ outside → node.incoming? b = some v) := by
  obtain ⟨w, hw, hor⟩ := h.split i hi node hnode
  rw [phi?_of_inst hw] at hnode'
  cases hnode'
  obtain ⟨node₁, hnode₁, hperm⟩ := he.wired.phis header hh he.block i hi
  rw [hnode] at hnode₁
  cases hnode₁
  have hnot : pre ∉ (outside.foldl Phi.dropIncoming node).blocks := by
    rw [Phi.blocks_foldl_dropIncoming]
    exact fun hmem => h.not_mem_preds he (hperm.mem_iff.1 (List.diff_subset _ _ hmem))
  unfold rerouted at hin
  rw [Phi.incoming?_setIncoming hnot] at hin
  refine ⟨?_, ?_⟩
  · intro hb
    rw [if_pos hb] at hin
    cases hin
    exact hor
  · intro hb hbo
    rw [if_neg hb, Phi.incoming?_foldl_dropIncoming _ hbo] at hin
    exact hin

/-- What an instruction of a block reads is read there before: the preheader has phis only. -/
lemma reads_inBody_inv (h : Inserted f g header pre outside hh new)
    (he : Entered f header outside hh) {v : Value} {b : BlockId} {bb' : Block}
    (hb' : g.block? b = some bb') {before after : List InstId} {i : InstId} {p : PlacedInst}
    (hsplit : bb'.body = before ++ i :: after) (hp : g.inst? i = some p)
    (hmem : v ∈ p.inst.operands) : b ≠ pre ∧ f.Reads v b (bb'.phis ++ before) := by
  have hb : b ≠ pre := by
    rintro rfl
    rw [h.preheader] at hb'
    cases hb'
    simp at hsplit
  obtain ⟨bb, hbb, hphis, hbody, -⟩ := h.block_inv hb' hb
  rw [hbody] at hsplit
  have hi : i ∈ bb.body := hsplit ▸ List.mem_append_right _ List.mem_cons_self
  obtain ⟨q, hq, -, hphi⟩ := he.wired.body b bb hbb i hi
  rw [h.keeps i q hq (he.not_phi hq hphi)] at hp
  cases hp
  rw [hphis]
  exact ⟨hb, .inBody hbb hsplit hq hmem⟩

/-- What a terminator reads is read there before: the preheader jumps. -/
lemma reads_atEnd_inv (h : Inserted f g header pre outside hh new)
    (he : Entered f header outside hh) {v : Value} {b : BlockId} {bb' : Block}
    (hb' : g.block? b = some bb') {t' : Terminator} (ht' : bb'.terminator = some t')
    (hmem : v ∈ t'.operands) : b ≠ pre ∧ f.Reads v b bb'.insts := by
  have hb : b ≠ pre := by
    rintro rfl
    rw [h.preheader] at hb'
    cases hb'
    cases ht'
    cases hmem
  obtain ⟨bb, hbb, hphis, hbody, -, hterm⟩ := h.block_inv hb' hb
  obtain ⟨t, ht⟩ := he.wired.ended b bb hbb
  unfold Block.insts
  rw [hphis, hbody]
  refine ⟨hb, .atEnd hbb ht ?_⟩
  rw [hterm, ht] at ht'
  split at ht'
  · cases ht'
    rwa [Terminator.operands_retarget] at hmem
  · cases ht'
    exact hmem

section InPhi

variable {v : Value} {b c : BlockId} {bb' cc' : Block} {i : InstId} {node' : Phi}

/-- A phi of the preheader reads what a phi of the header read. -/
lemma reads_inNew_inv (h : Inserted f g header pre outside hh new)
    (he : Entered f header outside hh) (hi : i ∈ new) (hnode' : g.phi? i = some node')
    (hb' : g.block? b = some bb') (hedge : pre ∈ g.succs b) (hin : node'.incoming? b = some v) :
    b ≠ pre ∧ f.Reads v b bb'.insts := by
  obtain ⟨-, n, hn, hm⟩ := h.new i hi
  rw [phi?_of_inst hn] at hnode'
  cases hnode'
  obtain ⟨op, hop, hblock, hval⟩ := Phi.incoming?_some hin
  obtain ⟨k, hk, m, hm, hin'⟩ := hm.operands op hop
  have hb := h.mem_outside he hedge
  have hbne := h.ne_of_succ (he.edge hb)
  obtain ⟨pp, hpp, heq⟩ := h.insts_eq hb' hbne
  rw [hblock, hval] at hin'
  rw [heq]
  exact ⟨hbne, .inPhi he.block hk hm hpp (he.edge hb) hin'⟩

/-- A phi of the header reads what it read, or receives it from the preheader. -/
lemma reads_inHeader_inv (h : Inserted f g header pre outside hh new)
    (he : Entered f header outside hh) (hi : i ∈ hh.phis) (hnode' : g.phi? i = some node')
    (hb' : g.block? b = some bb') (hedge : header ∈ g.succs b)
    (hin : node'.incoming? b = some v) :
    b ≠ pre ∧ f.Reads v b bb'.insts ∨
      b = pre ∧ bb'.insts = new ∧ ∃ node, f.inst? i = some ⟨.phi node, header⟩ ∧
        Receives g outside new node v := by
  obtain ⟨node, hnode, -⟩ := he.wired.phis header hh he.block i hi
  obtain ⟨hpre, hold⟩ := h.split_incoming he hi hnode hnode' hin
  by_cases hb : b = pre
  · rw [hb, h.preheader] at hb'
    cases hb'
    exact .inr ⟨hb, List.append_nil _, node, hnode, hpre hb⟩
  · obtain ⟨hedge, hnot⟩ := h.edge_inv hb (h.ne_of_block he.block) hedge
    obtain ⟨pp, hpp, heq⟩ := h.insts_eq hb' hb
    rw [heq]
    exact .inl ⟨hb, .inPhi he.block hi (phi?_of_inst hnode) hpp hedge
      (hold hb fun hbo => hnot ⟨hbo, rfl⟩)⟩

/-- The phis of other blocks are left alone. -/
lemma reads_inOther_inv (h : Inserted f g header pre outside hh new)
    (he : Entered f header outside hh) (hc : c ≠ pre) (hch : c ≠ header)
    (hc' : g.block? c = some cc') (hi : i ∈ cc'.phis) (hnode' : g.phi? i = some node')
    (hb' : g.block? b = some bb') (hedge : c ∈ g.succs b) (hin : node'.incoming? b = some v) :
    b ≠ pre ∧ f.Reads v b bb'.insts := by
  obtain ⟨cc, hcc, hphis, -, -⟩ := h.block_inv hc' hc
  rw [hphis] at hi
  obtain ⟨node, hnode, -⟩ := he.wired.phis c cc hcc i hi
  have hnot : i ∉ hh.phis :=
    he.wired.not_phi_of_ne he.block (Ne.symm hch) ⟨cc, hcc, List.mem_append_left _ hi⟩
  rw [phi?_of_inst (h.keeps i _ hnode hnot)] at hnode'
  cases hnode'
  have hb : b ≠ pre := by
    rintro rfl
    rw [h.succs_preheader, List.mem_singleton] at hedge
    exact hch hedge
  obtain ⟨hedge, -⟩ := h.edge_inv hb hc hedge
  obtain ⟨pp, hpp, heq⟩ := h.insts_eq hb' hb
  rw [heq]
  exact ⟨hb, .inPhi hcc hi (phi?_of_inst hnode) hpp hedge hin⟩

end InPhi

/-- What is read now was read at the same place before, or the header receives it from the
preheader. -/
lemma reads_inv (h : Inserted f g header pre outside hh new) (he : Entered f header outside hh)
    {v : Value} {b : BlockId} {before : List InstId} (hread : g.Reads v b before) :
    b ≠ pre ∧ f.Reads v b before ∨
      b = pre ∧ before = new ∧ ∃ i ∈ hh.phis, ∃ node, f.inst? i = some ⟨.phi node, header⟩ ∧
        Receives g outside new node v := by
  cases hread with
  | inBody hb' hsplit hp hmem => exact .inl (h.reads_inBody_inv he hb' hsplit hp hmem)
  | atEnd hb' ht' hmem => exact .inl (h.reads_atEnd_inv he hb' ht' hmem)
  | @inPhi c _ cc' _ i _ hc' hi hnode' hb' hedge hin =>
    by_cases hc : c = pre
    · subst hc
      rw [h.preheader] at hc'
      cases hc'
      exact .inl (h.reads_inNew_inv he hi hnode' hb' hedge hin)
    · by_cases hch : c = header
      · subst hch
        obtain ⟨cc, hcc, hphis, -, -⟩ := h.block_inv hc' hc
        rw [he.block] at hcc
        cases hcc
        rw [hphis] at hi
        rcases h.reads_inHeader_inv he hi hnode' hb' hedge hin with hold | ⟨hb, hnew, hor⟩
        · exact .inl hold
        · exact .inr ⟨hb, hnew, i, hi, hor⟩
      · exact .inl (h.reads_inOther_inv he hc hch hc' hi hnode' hb' hedge hin)

/-- Inserting a preheader keeps uses dominated. -/
lemma dominated (h : Inserted f g header pre outside hh new) (he : Entered f header outside hh)
    (hd : f.DominatedWhereReached) : g.DominatedWhereReached := by
  refine ⟨?_, ?_⟩
  · intro b bb' hb' hreach
    by_cases hb : b = pre
    · subst hb
      rw [h.preheader] at hb'
      cases hb'
      exact List.nodup_nil
    · obtain ⟨bb, hbb, -, hbody, -⟩ := h.block_inv hb' hb
      rw [hbody]
      exact hd.once b bb hbb ((h.reached_iff he hb).1 hreach)
  · intro b before j hread hreach
    rcases h.reads_inv he hread with ⟨hb, hold⟩ | ⟨rfl, rfl, i, hi, node, hnode, hor⟩
    · exact h.available he hb (hd.reads b before j hold ((h.reached_iff he hb).1 hreach))
    · exact h.available_preheader he hd hreach hi hnode hor

/-- Arguments among the operands were operands before. -/
lemma argsKnown (h : Inserted f g header pre outside hh new) (he : Entered f header outside hh)
    (hk : f.ArgsKnown) : g.ArgsKnown := by
  have hf := he.wired
  have hphis : ∀ i ∈ hh.phis, ∀ node, f.inst? i = some ⟨.phi node, header⟩ → ∀ n,
      Value.arg n ∈ node.values → n < f.numArgs := by
    intro i hi node hnode n hn
    exact hk header hh he.block n
      (mem_blockOperands.2 (.inl ⟨i, List.mem_append_left _ hi, _, hnode, hn⟩))
  intro b bb' hb' n hn
  rw [h.numArgs]
  by_cases hb : b = pre
  · subst hb
    rw [h.preheader] at hb'
    cases hb'
    rcases mem_blockOperands.1 hn with ⟨i, hi, p, hp, hmem⟩ | ⟨t, ht, hmem⟩
    · rw [Block.insts, List.append_nil] at hi
      obtain ⟨-, node, hnode, hm⟩ := h.new i hi
      rw [hnode] at hp
      cases hp
      -- a phi of the preheader receives what a phi of the header received
      obtain ⟨op, hop, hval⟩ := List.mem_map.1 hmem
      obtain ⟨k, hk', n', hn', hin⟩ := hm.operands op hop
      rw [hval] at hin
      obtain ⟨c, hc⟩ := phi?_some hn'
      obtain ⟨node', hnode', -⟩ := hf.phis header hh he.block k hk'
      rw [hnode'] at hc
      cases hc
      exact hphis k hk' n' hnode' n (Phi.mem_values_of_incoming? hin)
    · cases ht
      cases hmem
  · obtain ⟨bb, hbb, hph, hbody, -, hterm⟩ := h.block_inv hb' hb
    rcases mem_blockOperands.1 hn with ⟨i, hi, p, hp, hmem⟩ | ⟨t', ht', hmem⟩
    · have hi' : i ∈ bb.insts := by
        unfold Block.insts at hi ⊢
        rwa [hph, hbody] at hi
      by_cases hih : i ∈ hh.phis
      · obtain ⟨node, hnode, -⟩ := hf.phis header hh he.block i hih
        obtain ⟨v, hv, hor⟩ := h.split i hih node hnode
        rw [hv] at hp
        cases hp
        obtain ⟨op, hop, hval⟩ := List.mem_map.1 hmem
        -- a phi that was split receives something old, or from the preheader what the edges brought
        rcases Phi.mem_setOperand hop with rfl | hop
        · rcases hor with hagree | ⟨k, -, hvk, -⟩
          · obtain ⟨p, hp⟩ := List.exists_mem_of_ne_nil _ he.entered
            have := Phi.mem_values_of_incoming? (hagree p hp)
            exact hphis i hih node hnode n (hval ▸ this)
          · rw [hvk] at hval
            cases hval
        · exact hphis i hih node hnode n
            (Phi.values_foldl_dropIncoming (List.mem_map.2 ⟨op, hop, hval⟩))
      · obtain ⟨q, hq, -⟩ := hf.block_of_lists ⟨bb, hbb, hi'⟩
        rw [h.keeps i q hq hih] at hp
        cases hp
        exact hk b bb hbb n (mem_blockOperands.2 (.inl ⟨i, hi', p, hq, hmem⟩))
    · obtain ⟨t, ht⟩ := hf.ended b bb hbb
      refine hk b bb hbb n (mem_blockOperands.2 (.inr ⟨t, ht, ?_⟩))
      rw [hterm, ht] at ht'
      split at ht'
      · cases ht'
        rwa [Terminator.operands_retarget] at hmem
      · cases ht'
        exact hmem

end Inserted

end Preheaders

end SsaBackend
