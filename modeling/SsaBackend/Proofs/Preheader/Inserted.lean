import SsaBackend.Pass.Preheaders
import SsaBackend.Proofs.Func.Thinned

/-!
# What inserting a preheader does

The insertion leads the entering edges of a header to a new block, and moves what the phis of
the header received over them into that block. `Preheaders.Inserted` says in one place what the
tables hold afterwards (`Preheaders.Entered.inserted`): an edge that entered the header now leads
to the preheader, and a phi of the header receives from the preheader the one value on which the
entering edges agreed, or a phi of the preheader that merges them.
-/

namespace SsaBackend

namespace Preheaders

open Func

variable {f g : Func} {header pre : BlockId} {outside : List BlockId}

/-! ## Rerouting -/

lemma block?_foldl_reroute (l : List BlockId) (g : Func) (hnodup : l.Nodup) (hpre : pre ∉ l)
    (hnew : ∀ bb, g.block? pre = some bb → ∀ p ∈ l, p ∉ bb.preds) (b : BlockId) :
    (l.foldl (reroute header pre) g).block? b = (g.block? b).map fun bb =>
      { bb with
        terminator := if b ∈ l then bb.terminator.map (·.retarget header pre) else bb.terminator
        preds := if b = pre then bb.preds ++ l else bb.preds } := by
  induction l generalizing g with
  | nil => simp
  | cons p rest ih =>
    obtain ⟨hp, hrest⟩ := List.nodup_cons.1 hnodup
    rw [List.mem_cons, not_or] at hpre
    have hone : ∀ c, (reroute header pre g p).block? c = (g.block? c).map fun bb =>
        { bb with
          terminator := if c = p then bb.terminator.map (·.retarget header pre) else bb.terminator
          preds := if c = pre then bb.preds ++ [p] else bb.preds } := by
      intro c
      unfold reroute
      rw [block?_modifyBlock, block?_modifyBlock]
      cases hc : g.block? c with
      | none => simp
      | some cc =>
        by_cases h1 : pre = c
        · subst h1
          have hnot := hnew cc hc p List.mem_cons_self
          simp [Block.addPred, hnot, hpre.1, Ne.symm hpre.1]
        · by_cases h2 : p = c
          · simp [h1, h2, Ne.symm h1]
          · simp [h1, h2, Ne.symm h1, Ne.symm h2]
    rw [List.foldl_cons, ih _ hrest hpre.2, hone]
    · cases g.block? b with
      | none => rfl
      | some bb =>
        simp only [Option.map_some, Option.some.injEq, Block.mk.injEq, true_and]
        by_cases hbp : b = p
        · subst hbp
          simp [hp, Ne.symm hpre.1]
        · by_cases hbpre : b = pre
          · subst hbpre
            simp [hpre.1, hpre.2]
          · simp [hbp, hbpre]
    · intro bb hbb q hq
      rw [hone] at hbb
      obtain ⟨cc, hcc, rfl⟩ := Option.map_eq_some_iff.1 hbb
      simp only [if_true, List.mem_append, List.mem_singleton, not_or]
      refine ⟨hnew cc hcc q (List.mem_cons_of_mem _ hq), ?_⟩
      rintro rfl
      exact hp hq

lemma insts_foldl_reroute (l : List BlockId) (g : Func) :
    (l.foldl (reroute header pre) g).insts = g.insts ∧
      (l.foldl (reroute header pre) g).blockCapacity = g.blockCapacity ∧
      (l.foldl (reroute header pre) g).numArgs = g.numArgs := by
  induction l generalizing g with
  | nil => exact ⟨rfl, rfl, rfl⟩
  | cons p rest ih =>
    obtain ⟨hinsts, hcap, hargs⟩ := ih (reroute header pre g p)
    refine ⟨hinsts, hcap.trans ?_, hargs⟩
    unfold reroute
    rw [blockCapacity_modifyBlock, blockCapacity_modifyBlock]

/-! ## Splitting phis -/

/-- What a phi receives over edges that it has operands for. -/
lemma entering_spec {node : Phi} {l : List BlockId} (h : ∀ p ∈ l, p ∈ node.blocks) :
    (entering node l).map (·.block) = l ∧
      ∀ op ∈ entering node l, node.incoming? op.block = some op.value := by
  induction l with
  | nil => exact ⟨rfl, by simp [entering]⟩
  | cons p rest ih =>
    obtain ⟨v, hv⟩ := Phi.exists_incoming? (h p List.mem_cons_self)
    obtain ⟨hblocks, hvals⟩ := ih fun q hq => h q (List.mem_cons_of_mem _ hq)
    have hcons : entering node (p :: rest) = ⟨p, v⟩ :: entering node rest := by
      unfold entering
      rw [List.filterMap_cons, hv]
      rfl
    rw [hcons]
    refine ⟨by rw [List.map_cons, hblocks], ?_⟩
    intro op hop
    rcases List.mem_cons.1 hop with rfl | hop
    · exact hv
    · exact hvals op hop

/-- The new phi receives over each of the edges what the old one received. -/
lemma incoming?_entering {node : Phi} {l : List BlockId} (h : ∀ p ∈ l, p ∈ node.blocks)
    (hnodup : l.Nodup) {p : BlockId} (hp : p ∈ l) :
    (⟨entering node l⟩ : Phi).incoming? p = node.incoming? p := by
  obtain ⟨hblocks, hvals⟩ := entering_spec h
  have hnodup' : (⟨entering node l⟩ : Phi).blocks.Nodup := by
    rw [show (⟨entering node l⟩ : Phi).blocks = l from hblocks]
    exact hnodup
  rw [← hblocks] at hp
  obtain ⟨op, hop, rfl⟩ := List.mem_map.1 hp
  rw [hvals op hop]
  exact Phi.incoming?_of_mem hnodup' hop

lemma entering_of_not_mem {node : Phi} {l : List BlockId} (h : ∀ p ∈ l, p ∉ node.blocks) :
    entering node l = [] := by
  unfold entering
  rw [List.filterMap_eq_nil_iff]
  intro p hp
  have hnone : node.incoming? p = none := by
    rw [← Option.not_isSome_iff_eq_none, Phi.isSome_incoming?]
    exact h p hp
  rw [hnone]
  rfl

lemma agreed?_some {ops : List PhiOperand} {v : Value} (h : agreed? ops = some v) :
    ∀ op ∈ ops, op.value = v := by
  unfold agreed? at h
  split at h
  · cases h
  · rename_i op rest
    split at h
    · rename_i hall
      cases h
      rw [List.all_eq_true] at hall
      intro o ho
      rcases List.mem_cons.1 ho with rfl | ho
      · rfl
      · simpa using hall o ho
    · cases h

/-- Adding a phi to a block that is there. -/
lemma addPhi_appended {b : BlockId} {bb : Block} (hb : g.block? b = some bb) (node : Phi) :
    Appended g (addPhi g b node) b (.phi node) := by
  obtain ⟨g', hrun, happ⟩ := appendInst_eq (.phi node) hb
  have he : g' = addPhi g b node := by
    unfold appendInst getBlock at hrun
    rw [hb] at hrun
    cases hrun
    rfl
  exact he ▸ happ

/-- A header phi once the entering edges lead to the preheader. -/
def rerouted (outside : List BlockId) (pre : BlockId) (v : Value) (node : Phi) : Phi :=
  (outside.foldl Phi.dropIncoming node).setIncoming pre v

/-- What the phis of a preheader are: one operand for each entering edge, each received before by
one and the same phi of the header. -/
structure Merges (f : Func) (outside : List BlockId) (phis : List InstId) (node : Phi) : Prop where
  blocks : node.blocks = outside
  operands : ∀ op ∈ node.operands, ∃ i ∈ phis, ∃ n, f.phi? i = some n ∧
    n.incoming? op.block = some op.value

/-- What a phi of the header receives from the preheader: the value on which the entering edges
agreed, or one of the phis `new` of the preheader, which merges what they brought. -/
def Receives (g : Func) (outside : List BlockId) (new : List InstId) (node : Phi) (v : Value) :
    Prop :=
  (∀ p ∈ outside, node.incoming? p = some v) ∨
    ∃ k ∈ new, v = .inst k ∧ ∃ n, g.phi? k = some n ∧
      ∀ p ∈ outside, n.incoming? p = node.incoming? p

/-- The phis of the preheader that are there stay. -/
lemma Receives.mono {g' : Func} {new new' : List InstId} {node : Phi} {v : Value}
    (h : Receives g outside new node v) (hnew : new ⊆ new')
    (hkeep : ∀ k ∈ new, ∀ n, g.phi? k = some n → g'.phi? k = some n) :
    Receives g' outside new' node v := by
  refine h.imp_right ?_
  rintro ⟨k, hk, hv, n, hn, hin⟩
  exact ⟨k, hnew hk, hv, n, hkeep k hk n hn, hin⟩

/-- Splitting is under way: of the phis of the header those in `done` are split, the others are
as they were, and the preheader has the phis `new`. -/
structure Splitting (f g₀ g : Func) (header pre : BlockId) (outside : List BlockId)
    (phis done new : List InstId) : Prop where
  old : ∀ b, b ≠ pre → g.block? b = g₀.block? b
  preheader : g.block? pre = (g₀.block? pre).map ({ · with phis := new })
  keeps : ∀ i p, f.inst? i = some p → i ∉ done → g.inst? i = some p
  live : ∀ i p, f.inst? i = some p → ∃ q, g.inst? i = some q
  split : ∀ i ∈ done, ∀ node, f.inst? i = some ⟨.phi node, header⟩ →
    ∃ v, g.inst? i = some ⟨.phi (rerouted outside pre v node), header⟩ ∧
      Receives g outside new node v
  new : ∀ k ∈ new, f.inst? k = none ∧ ∃ node, g.inst? k = some ⟨.phi node, pre⟩ ∧
    Merges f outside phis node
  capacity : g.blockCapacity = g₀.blockCapacity
  numArgs : g.numArgs = g₀.numArgs

section Splitting

variable {g₀ : Func} {phis done new : List InstId} {i : InstId} {node : Phi}

/-- A phi that was split has no operands from outside left. -/
lemma not_mem_blocks_rerouted (hnodup : node.blocks.Nodup) (hpre : pre ∉ outside)
    (hnew : pre ∉ node.blocks) (v : Value) :
    (∀ p ∈ outside, p ∉ (rerouted outside pre v node).blocks) ∧
      (rerouted outside pre v node).blocks = node.blocks.diff outside ++ [pre] := by
  have hdrop := Phi.blocks_foldl_dropIncoming outside node
  have hnot : pre ∉ (outside.foldl Phi.dropIncoming node).blocks := by
    rw [hdrop]
    exact fun h => hnew (List.diff_subset _ _ h)
  have hblocks : (rerouted outside pre v node).blocks = node.blocks.diff outside ++ [pre] := by
    unfold rerouted
    rw [Phi.blocks_setIncoming hnot, hdrop]
  refine ⟨?_, hblocks⟩
  intro p hp hmem
  rw [hblocks, hnodup.sdiff_eq_filter] at hmem
  rcases List.mem_append.1 hmem with hmem | hmem
  · have := (List.mem_filter.1 hmem).2
    simp [hp] at this
  · exact hpre (List.mem_singleton.1 hmem ▸ hp)

lemma foldl_dropIncoming_of_not_mem {l : List BlockId} (h : ∀ p ∈ l, p ∉ node.blocks) :
    l.foldl Phi.dropIncoming node = node := by
  induction l with
  | nil => rfl
  | cons p rest ih =>
    rw [List.foldl_cons, Phi.dropIncoming_of_not_mem (h p List.mem_cons_self)]
    exact ih fun q hq => h q (List.mem_cons_of_mem _ hq)

/-- The phi `i` without its operands from outside: what is left of it before it receives from the
preheader. -/
def emptied (outside : List BlockId) (g : Func) (i : InstId) : Func :=
  g.modifyPhi i fun phi => outside.foldl Phi.dropIncoming phi

lemma inst?_emptied (hg : g.inst? i = some ⟨.phi node, header⟩) :
    (emptied outside g i).inst? i =
      some ⟨.phi (outside.foldl Phi.dropIncoming node), header⟩ := by
  unfold emptied
  rw [inst?_modifyPhi _ hg, if_pos rfl]

lemma inst?_emptied_ne {j : InstId} (hj : j ≠ i) : (emptied outside g i).inst? j = g.inst? j :=
  inst?_modifyPhi_ne _ hj

lemma blockCapacity_emptied : (emptied outside g i).blockCapacity = g.blockCapacity := by
  simp [emptied, modifyPhi, modifyInst, blockCapacity]

lemma nextInst_emptied_fresh (p : PlacedInst) :
    g.inst? (emptied outside g i).nextInst ≠ some p := by
  intro hgk
  have hlt := lt_instCapacity hgk
  have hcap : (emptied outside g i).nextInst.index = g.instCapacity := instCapacity_modifyPhi ..
  omega

/-- A phi that is listed twice is split once. -/
lemma Splitting.again (h : Splitting f g₀ g header pre outside phis done new) (hi : i ∈ done)
    (hf : f.inst? i = some ⟨.phi node, header⟩) (hnodup : node.blocks.Nodup)
    (hpre : pre ∉ outside) (hnew : pre ∉ node.blocks) :
    Splitting f g₀ (splitPhi outside pre g i) header pre outside phis done new := by
  obtain ⟨v, hv, -⟩ := h.split i hi node hf
  obtain ⟨hnot, -⟩ := not_mem_blocks_rerouted hnodup hpre hnew v
  have hops : (g.phi? i).elim [] (entering · outside) = [] := by
    unfold phi?
    rw [hv]
    exact entering_of_not_mem hnot
  have he : splitPhi outside pre g i = emptied outside g i := by
    unfold splitPhi
    rw [hops]
    rfl
  have hinst : ∀ j, (emptied outside g i).inst? j = g.inst? j := by
    intro j
    by_cases hj : j = i
    · rw [hj, inst?_emptied hv, foldl_dropIncoming_of_not_mem hnot, hv]
    · exact inst?_emptied_ne hj
  rw [he]
  refine ⟨h.old, h.preheader, ?_, ?_, ?_, ?_, h.capacity, h.numArgs⟩
  · intro j p hj hd
    rw [hinst]
    exact h.keeps j p hj hd
  · intro j p hj
    rw [hinst]
    exact h.live j p hj
  · intro j hj n hn
    obtain ⟨u, hu, hrec⟩ := h.split j hj n hn
    refine ⟨u, by rw [hinst, hu], hrec.mono (fun _ hk => hk) fun k _ m hm => ?_⟩
    unfold phi? at hm ⊢
    rwa [hinst]
  · intro k hk
    rw [hinst]
    exact h.new k hk

/-- One phi is split, the preheader gets the phis `extra`, and everything else stays. -/
lemma Splitting.extend (h : Splitting f g₀ g header pre outside phis done new)
    (hf : f.inst? i = some ⟨.phi node, header⟩) {g' : Func} {extra : List InstId} {v : Value}
    (hold : ∀ b, b ≠ pre → g'.block? b = g.block? b)
    (hpre : g'.block? pre = (g.block? pre).map ({ · with phis := new ++ extra }))
    (hkeep : ∀ j p, j ≠ i → g.inst? j = some p → g'.inst? j = some p)
    (hnow : g'.inst? i = some ⟨.phi (rerouted outside pre v node), header⟩)
    (hv : Receives g' outside extra node v)
    (hextra : ∀ k ∈ extra, f.inst? k = none ∧ ∃ n, g'.inst? k = some ⟨.phi n, pre⟩ ∧
      Merges f outside phis n)
    (hcap : g'.blockCapacity = g.blockCapacity) (hargs : g'.numArgs = g.numArgs) :
    Splitting f g₀ g' header pre outside phis (i :: done) (new ++ extra) := by
  refine ⟨fun b hb => (hold b hb).trans (h.old b hb), ?_, ?_, ?_, ?_, ?_, hcap.trans h.capacity,
    hargs.trans h.numArgs⟩
  · rw [hpre, h.preheader, Option.map_map]
    rfl
  · intro j p hj hd
    rw [List.mem_cons, not_or] at hd
    exact hkeep j p hd.1 (h.keeps j p hj hd.2)
  · intro j p hj
    by_cases hji : j = i
    · exact ⟨_, hji ▸ hnow⟩
    · obtain ⟨q, hq⟩ := h.live j p hj
      exact ⟨q, hkeep j q hji hq⟩
  · intro j hj n hn
    by_cases hji : j = i
    · subst hji
      rw [hf] at hn
      cases hn
      exact ⟨v, hnow, hv.mono (List.subset_append_right ..) fun _ _ _ hm => hm⟩
    · obtain ⟨w, hw, hrec⟩ := h.split j ((List.mem_cons.1 hj).resolve_left hji) n hn
      refine ⟨w, hkeep j _ hji hw, hrec.mono (List.subset_append_left ..) fun k hk m hm => ?_⟩
      obtain ⟨c, hc⟩ := phi?_some hm
      refine phi?_of_inst (hkeep k _ ?_ hc)
      rintro rfl
      rw [(h.new k hk).1] at hf
      cases hf
  · intro k hk
    rcases List.mem_append.1 hk with hk | hk
    · obtain ⟨hnone, n, hn, hm⟩ := h.new k hk
      refine ⟨hnone, n, hkeep k _ ?_ hn, hm⟩
      rintro rfl
      rw [hf] at hnone
      cases hnone
    · exact hextra k hk

/-- What splitting does to a phi that has operands from outside. -/
lemma splitPhi_eq (hg : g.phi? i = some node) (hnil : entering node outside ≠ []) :
    splitPhi outside pre g i =
      match agreed? (entering node outside) with
      | some v => (emptied outside g i).modifyPhi i (·.setIncoming pre v)
      | none => (addPhi (emptied outside g i) pre ⟨entering node outside⟩).modifyPhi i
          (·.setIncoming pre (.inst (emptied outside g i).nextInst)) := by
  unfold splitPhi
  rw [hg, Option.elim_some]
  cases hops : entering node outside with
  | nil => exact absurd hops hnil
  | cons op ops => rfl

/-- Where the entering edges agree, the header receives what they agree on. -/
lemma Splitting.agree (h : Splitting f g₀ g header pre outside phis done new) (hd : i ∉ done)
    (hf : f.inst? i = some ⟨.phi node, header⟩) (hsub : ∀ p ∈ outside, p ∈ node.blocks)
    {v : Value} (hag : agreed? (entering node outside) = some v) :
    Splitting f g₀ ((emptied outside g i).modifyPhi i (·.setIncoming pre v)) header pre outside
      phis (i :: done) (new ++ []) := by
  obtain ⟨hblocks, hvals⟩ := entering_spec hsub
  refine h.extend hf (v := v) (fun b _ => rfl) ?_ ?_ ?_ (.inl ?_) (by simp) ?_ rfl
  · show g.block? pre = _
    rw [h.preheader, Option.map_map, List.append_nil]
    rfl
  · intro j p hj hp
    rw [inst?_modifyPhi_ne _ hj, inst?_emptied_ne hj, hp]
  · rw [inst?_modifyPhi _ (inst?_emptied (h.keeps i _ hf hd)), if_pos rfl]
    rfl
  · intro p hp
    rw [← hblocks] at hp
    obtain ⟨op, hop, rfl⟩ := List.mem_map.1 hp
    rw [hvals op hop, agreed?_some hag op hop]
  · show (emptied outside g i).blockCapacity = _
    exact blockCapacity_emptied

/-- Where they do not agree, a new phi of the preheader merges what they bring. -/
lemma Splitting.merge (h : Splitting f g₀ g header pre outside phis done new) (hi : i ∈ phis)
    (hd : i ∉ done) (hf : f.inst? i = some ⟨.phi node, header⟩)
    (hsub : ∀ p ∈ outside, p ∈ node.blocks) (hout : outside.Nodup) {pp : Block}
    (hpp : g₀.block? pre = some pp) {k : InstId} (hk : k = (emptied outside g i).nextInst) :
    Splitting f g₀ ((addPhi (emptied outside g i) pre ⟨entering node outside⟩).modifyPhi i
      (·.setIncoming pre (.inst k))) header pre outside phis (i :: done) (new ++ [k]) := by
  have hg := h.keeps i _ hf hd
  have hphi : f.phi? i = some node := phi?_of_inst hf
  obtain ⟨hblocks, hvals⟩ := entering_spec hsub
  have hpb : (emptied outside g i).block? pre = some { pp with phis := new } := by
    show g.block? pre = _
    rw [h.preheader, hpp]
    rfl
  have happ := addPhi_appended hpb ⟨entering node outside⟩
  have hinst := happ.inst
  rw [← hk] at hinst
  have hfresh : ∀ p, g.inst? k ≠ some p := hk ▸ nextInst_emptied_fresh
  have hki : k ≠ i := fun hki => hfresh _ (hki ▸ hg)
  have hmerge : ((addPhi (emptied outside g i) pre ⟨entering node outside⟩).modifyPhi i
      (·.setIncoming pre (.inst k))).inst? k = some ⟨.phi ⟨entering node outside⟩, pre⟩ := by
    rw [inst?_modifyPhi_ne _ hki, hinst, if_pos rfl]
  refine h.extend hf (v := .inst k) ?_ ?_ ?_ ?_
    (.inr ⟨k, List.mem_singleton_self _, rfl, _, phi?_of_inst hmerge, ?_⟩) ?_ ?_ rfl
  · intro b hb
    rw [block?_modifyPhi, happ.block, if_neg (Ne.symm hb)]
    rfl
  · rw [block?_modifyPhi, happ.block, if_pos rfl, hpb, h.preheader, hpp, ← hk]
    rfl
  · intro j p hj hp
    have hjk : j ≠ k := fun hjk => hfresh p (hjk ▸ hp)
    rw [inst?_modifyPhi_ne _ hj, hinst, if_neg hjk, inst?_emptied_ne hj, hp]
  · rw [inst?_modifyPhi _ (by rw [hinst, if_neg (Ne.symm hki), inst?_emptied hg]), if_pos rfl]
    rfl
  · intro p hp
    exact incoming?_entering hsub hout hp
  · intro l hl
    rw [List.mem_singleton.1 hl]
    refine ⟨?_, ⟨entering node outside⟩, hmerge, hblocks, ?_⟩
    · cases hfk : f.inst? k with
      | none => rfl
      | some p =>
        obtain ⟨q, hq⟩ := h.live k p hfk
        exact absurd hq (hfresh q)
    · intro op hop
      exact ⟨i, hi, node, hphi, hvals op hop⟩
  · show ((emptied outside g i).modifyBlock pre _).blockCapacity = _
    rw [blockCapacity_modifyBlock, blockCapacity_emptied]

/-- A phi that was not split yet is split now. -/
lemma Splitting.step (h : Splitting f g₀ g header pre outside phis done new) (hi : i ∈ phis)
    (hd : i ∉ done) (hf : f.inst? i = some ⟨.phi node, header⟩)
    (hsub : ∀ p ∈ outside, p ∈ node.blocks) (hne : outside ≠ []) (hout : outside.Nodup)
    {pp : Block} (hpp : g₀.block? pre = some pp) :
    ∃ new', Splitting f g₀ (splitPhi outside pre g i) header pre outside phis (i :: done) new' := by
  have hnil : entering node outside ≠ [] := by
    intro he
    have hblocks := (entering_spec hsub).1
    rw [he] at hblocks
    exact hne hblocks.symm
  rw [splitPhi_eq (phi?_of_inst (h.keeps i _ hf hd)) hnil]
  split
  · rename_i v hag
    exact ⟨_, h.agree hd hf hsub hag⟩
  · exact ⟨_, h.merge hi hd hf hsub hout hpp rfl⟩

/-- All phis of a list are split, one after the other. -/
lemma Splitting.foldl {l : List InstId} (hl : ∀ i ∈ l, i ∈ phis)
    (hphis : ∀ i ∈ phis, ∃ node, f.inst? i = some ⟨.phi node, header⟩ ∧ node.blocks.Nodup ∧
      (∀ p ∈ outside, p ∈ node.blocks) ∧ pre ∉ node.blocks)
    (hne : outside ≠ []) (hout : outside.Nodup) (hpre : pre ∉ outside) {pp : Block}
    (hpp : g₀.block? pre = some pp) (h : Splitting f g₀ g header pre outside phis done new) :
    ∃ done' new', Splitting f g₀ (l.foldl (splitPhi outside pre) g) header pre outside phis
      done' new' ∧ (∀ i, i ∈ done' ↔ i ∈ done ∨ i ∈ l) := by
  induction l generalizing g done new with
  | nil => exact ⟨done, new, h, by simp⟩
  | cons i rest ih =>
    have hi := hl i List.mem_cons_self
    obtain ⟨node, hf, hnodup, hsub, hnew⟩ := hphis i hi
    have hrest : ∀ j ∈ rest, j ∈ phis := fun j hj => hl j (List.mem_cons_of_mem _ hj)
    by_cases hd : i ∈ done
    · obtain ⟨done', new', h', hmem⟩ := ih hrest (h.again hd hf hnodup hpre hnew)
      refine ⟨done', new', h', fun j => (hmem j).trans ?_⟩
      rw [List.mem_cons]
      constructor
      · exact Or.imp_right .inr
      · rintro (hj | rfl | hj)
        · exact .inl hj
        · exact .inl hd
        · exact .inr hj
    · obtain ⟨new₁, h₁⟩ := h.step hi hd hf hsub hne hout hpp
      obtain ⟨done', new', h', hmem⟩ := ih hrest h₁
      refine ⟨done', new', h', fun j => (hmem j).trans ?_⟩
      rw [List.mem_cons, List.mem_cons]
      tauto

end Splitting

/-! ## The whole insertion -/

/-- The function `g` is `f` with the preheader `pre`, whose phis are `new`, in front of the header
`header` with block `hh`. The edges from `outside` lead to the preheader. -/
structure Inserted (f g : Func) (header pre : BlockId) (outside : List BlockId) (hh : Block)
    (new : List InstId) : Prop where
  fresh : f.block? pre = none
  old : ∀ b, b ≠ pre → g.block? b = (f.block? b).map fun bb =>
    { bb with
      terminator :=
        if b ∈ outside then bb.terminator.map (·.retarget header pre) else bb.terminator
      preds := if b = header then bb.preds.filter (!outside.contains ·) ++ [pre] else bb.preds }
  preheader : g.block? pre = some ⟨new, [], some (.jump header), outside⟩
  keeps : ∀ i p, f.inst? i = some p → i ∉ hh.phis → g.inst? i = some p
  split : ∀ i ∈ hh.phis, ∀ node, f.inst? i = some ⟨.phi node, header⟩ →
    ∃ v, g.inst? i = some ⟨.phi (rerouted outside pre v node), header⟩ ∧
      Receives g outside new node v
  new : ∀ k ∈ new, f.inst? k = none ∧ ∃ node, g.inst? k = some ⟨.phi node, pre⟩ ∧
    Merges f outside hh.phis node
  capacity : g.blockCapacity = f.blockCapacity + 1
  numArgs : g.numArgs = f.numArgs

/-- The header and the edges that enter it, of a function without loose ends. -/
structure Entered (f : Func) (header : BlockId) (outside : List BlockId) (hh : Block) : Prop where
  wired : f.Wired
  tight : f.Tight
  notEntry : header ≠ f.entry
  block : f.block? header = some hh
  preds : ∀ p ∈ outside, p ∈ hh.preds
  once : outside.Nodup
  entered : outside ≠ []

/-- The function with the entering edges led to a new block. -/
def withPreheader (f : Func) (c : Candidate) : Func :=
  attach c f.nextBlock (c.outside.foldl (reroute c.header f.nextBlock) f.addBlock)

/-- The function with the entering edges led to a new block and no more recorded at the header,
whose phis are not split yet. -/
def detached (f : Func) (header : BlockId) (outside : List BlockId) : Func :=
  (outside.foldl (reroute header f.nextBlock) f.addBlock).modifyBlock header
    fun b => { b with preds := b.preds.filter (!outside.contains ·) }

namespace Entered

variable {hh : Block}

lemma ne_nextBlock (h : Entered f header outside hh) : header ≠ f.nextBlock := by
  rintro rfl
  have hb := h.block
  rw [block?_nextBlock] at hb
  cases hb

/-- A predecessor is a block, and so it is not the next one. -/
lemma nextBlock_not_mem (h : Entered f header outside hh) : f.nextBlock ∉ hh.preds := by
  intro hp
  have hpred : f.nextBlock ∈ f.preds header := by rwa [Func.preds_of_block h.block]
  exact ne_nextBlock_of_hasBlock (hasBlock_of_succs (h.tight.edges _ header hpred)) rfl

/-- The phis of the header have operands for the entering edges, and none for the new block. -/
lemma phis (h : Entered f header outside hh) : ∀ i ∈ hh.phis, ∃ node,
    f.inst? i = some ⟨.phi node, header⟩ ∧ node.blocks.Nodup ∧
      (∀ p ∈ outside, p ∈ node.blocks) ∧ f.nextBlock ∉ node.blocks := by
  intro i hi
  obtain ⟨node, hnode, hperm⟩ := h.wired.phis header hh h.block i hi
  refine ⟨node, hnode, hperm.nodup_iff.2 (h.wired.predsOnce header hh h.block), ?_, ?_⟩
  · intro p hp
    exact hperm.mem_iff.2 (h.preds p hp)
  · exact fun hp => h.nextBlock_not_mem (hperm.mem_iff.1 hp)

lemma block?_rerouted (h : Entered f header outside hh) (b : BlockId) :
    (outside.foldl (reroute header f.nextBlock) f.addBlock).block? b =
      (if b = f.nextBlock then some {} else f.block? b).map fun bb =>
        { bb with
          terminator := if b ∈ outside then bb.terminator.map (·.retarget header f.nextBlock)
            else bb.terminator
          preds := if b = f.nextBlock then bb.preds ++ outside else bb.preds } := by
  rw [block?_foldl_reroute outside f.addBlock h.once
    (fun hp => h.nextBlock_not_mem (h.preds _ hp)) ?_ b, block?_addBlock]
  intro bb hbb
  rw [block?_addBlock, if_pos rfl] at hbb
  cases hbb
  simp

lemma block?_detached (h : Entered f header outside hh) {b : BlockId} (hb : b ≠ f.nextBlock) :
    (detached f header outside).block? b = (f.block? b).map fun bb =>
      { bb with
        terminator := if b ∈ outside then bb.terminator.map (·.retarget header f.nextBlock)
          else bb.terminator
        preds := if b = header then bb.preds.filter (!outside.contains ·) else bb.preds } := by
  unfold detached
  rw [block?_modifyBlock, h.block?_rerouted, if_neg hb]
  cases f.block? b with
  | none => simp
  | some bb =>
    by_cases hbh : header = b
    · simp [hbh, hb]
    · simp [hbh, Ne.symm hbh, hb]

lemma nextBlock_detached (h : Entered f header outside hh) :
    (detached f header outside).block? f.nextBlock = some { preds := outside } := by
  unfold detached
  rw [block?_modifyBlock, if_neg h.ne_nextBlock, h.block?_rerouted, if_pos rfl]
  simp

lemma inst?_detached (i : InstId) : (detached f header outside).inst? i = f.inst? i := by
  show (outside.foldl (reroute header f.nextBlock) f.addBlock).insts[i.index]?.join = _
  rw [(insts_foldl_reroute outside f.addBlock).1]
  rfl

lemma inserted (h : Entered f header outside hh) :
    ∃ new, Inserted f (withPreheader f ⟨header, outside⟩) header f.nextBlock outside hh new := by
  have hheadne := h.ne_nextBlock
  have hpre : f.nextBlock ∉ outside := fun hp => h.nextBlock_not_mem (h.preds _ hp)
  obtain ⟨-, hcap, hargs⟩ := @insts_foldl_reroute header f.nextBlock outside f.addBlock
  have hphis : ((outside.foldl (reroute header f.nextBlock) f.addBlock).block? header).elim []
      (·.phis) = hh.phis := by
    rw [h.block?_rerouted, if_neg hheadne, h.block]
    rfl
  have hstart : Splitting f (detached f header outside) (detached f header outside) header
      f.nextBlock outside hh.phis [] [] := by
    refine ⟨fun _ _ => rfl, by rw [h.nextBlock_detached]; rfl, ?_, ?_, by simp, by simp, rfl, rfl⟩
    · intro i p hi _
      rw [inst?_detached, hi]
    · intro i p hi
      exact ⟨p, by rw [inst?_detached, hi]⟩
  -- after rerouting the phis of the header are split, all of them
  obtain ⟨done, new, hsplit, hdone⟩ :=
    Splitting.foldl (fun i hi => hi) h.phis h.entered h.once hpre h.nextBlock_detached hstart
  have hdone' : ∀ i, i ∈ done ↔ i ∈ hh.phis := by
    intro i
    rw [hdone]
    simp
  -- then the new block is ended, and listed at the header
  have he : withPreheader f ⟨header, outside⟩ =
      ((hh.phis.foldl (splitPhi outside f.nextBlock) (detached f header outside)).modifyBlock
        f.nextBlock ({ · with terminator := some (.jump header) })).modifyBlock header
          (·.addPred f.nextBlock) := by
    unfold withPreheader attach
    rw [hphis]
    rfl
  rw [he]
  refine ⟨new, block?_nextBlock f, ?_, ?_, ?_, ?_, hsplit.new, ?_, ?_⟩
  · intro b hb
    rw [block?_modifyBlock, block?_modifyBlock, if_neg (Ne.symm hb), hsplit.old b hb,
      h.block?_detached hb]
    by_cases hbh : header = b
    · subst hbh
      -- it was not listed there, so it comes last
      have hnot : f.nextBlock ∉ hh.preds.filter (!outside.contains ·) :=
        fun hp => h.nextBlock_not_mem (List.mem_filter.1 hp).1
      simp only [if_true, h.block, Option.map_some]
      unfold Block.addPred
      rw [if_neg hnot]
    · simp only [if_neg hbh, if_neg (Ne.symm hbh)]
  · rw [block?_modifyBlock, if_neg hheadne, block?_modifyBlock, if_pos rfl, hsplit.preheader,
      h.nextBlock_detached]
    rfl
  · intro i p hi hnot
    exact hsplit.keeps i p hi fun hd => hnot ((hdone' i).1 hd)
  · intro i hi node hnode
    obtain ⟨v, hv, hrec⟩ := hsplit.split i ((hdone' i).2 hi) node hnode
    exact ⟨v, hv, hrec⟩
  · rw [blockCapacity_modifyBlock, blockCapacity_modifyBlock, hsplit.capacity]
    unfold detached
    rw [blockCapacity_modifyBlock, hcap]
    simp [addBlock, blockCapacity]
  · exact hsplit.numArgs.trans hargs

end Entered

end Preheaders

end SsaBackend
