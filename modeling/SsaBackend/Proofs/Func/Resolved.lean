import Mathlib.Logic.Relation
import SsaBackend.Proofs.Func.FoldedPhis

/-!
# Where replacements lead

Following replacements to their end comes to the same as making them one after another
(`Replacement.Chained.resolve_concat`). So folding maps all operands by `Replacement.resolve`
(`Func.Folded.inst_eq`, `Func.Folded.terminator?_eq`), and the operands of a phi that was replaced
lead where the phi itself leads (`Func.Folded.resolve_value`).
-/

namespace SsaBackend

open Relation

namespace Replacement

variable {rs : List Replacement} {r : Replacement} {u v : Value}

/-- One value leads to the next. -/
def Leads (rs : List Replacement) (v u : Value) : Prop := next? rs v = some u

lemma next?_eq_none : next? rs v = none ↔ ∀ r ∈ rs, v ≠ .inst r.phi := by
  induction rs with
  | nil => cases v <;> simp [next?, Value.inst?, find?]
  | cons r rest ih =>
    rw [next?_cons]
    split
    · rename_i hv
      simp [hv]
    · rename_i hv
      simp [ih, hv]

/-- A value that was not replaced leads nowhere else. -/
lemma resolve_eq_self (h : ∀ r ∈ rs, v ≠ .inst r.phi) : resolve rs v = v :=
  repeatUpTo_of_none (next?_eq_none.2 h) _

/-- One leads to the end. -/
lemma leads_resolve (rs : List Replacement) (v : Value) :
    ReflTransGen (Leads rs) v (resolve rs v) :=
  repeatUpTo_induct (ReflTransGen (Leads rs) v) (fun _ _ h hnext => h.tail hnext) _ _ .refl

/-- Where a way ends, there it leads. -/
lemma Chained.resolve_eq (h : Chained rs) (hway : ReflTransGen (Leads rs) v u)
    (hend : ∀ r ∈ rs, u ≠ .inst r.phi) : resolve rs v = u := by
  have key : ∀ n, ahead v rs ≤ n → repeatUpTo (next? rs) n v = u := by
    induction hway using ReflTransGen.head_induction_on with
    | refl => exact fun n _ => repeatUpTo_of_none (next?_eq_none.2 hend) n
    | head hnext _ ih =>
      intro n hn
      have hlt := h.ahead_lt hnext
      obtain ⟨n, rfl⟩ : ∃ k, n = k + 1 := ⟨n - 1, by omega⟩
      rw [repeatUpTo, hnext]
      exact ih n (by omega)
  exact key rs.length (ahead_le v rs)

lemma Chained.of_concat (h : Chained (rs ++ [r])) : Chained rs :=
  ⟨(List.pairwise_append.1 h.forward).1, fun r' hr' => h.apart r' (List.mem_append_left _ hr')⟩

lemma next?_concat (rs : List Replacement) (r : Replacement) (v : Value) :
    next? (rs ++ [r]) v = (next? rs v).or (if v = .inst r.phi then some r.same else none) := by
  induction rs with
  | nil =>
    have hnone : next? [] v = none := next?_eq_none.2 fun _ hr => by cases hr
    rw [List.nil_append, next?_cons, hnone]
    rfl
  | cons r₀ rest ih =>
    rw [List.cons_append, next?_cons, next?_cons, ih]
    split <;> rfl

/-- One more replacement is made at the end of the way. -/
lemma Chained.resolve_concat (h : Chained (rs ++ [r])) (v : Value) :
    resolve (rs ++ [r]) v = Value.subst (.inst r.phi) r.same (resolve rs v) := by
  have hbefore := h.of_concat.resolve_ne v
  have hway : ReflTransGen (Leads (rs ++ [r])) v (resolve rs v) := by
    refine ReflTransGen.mono (r := Leads rs) ?_ _ _ (leads_resolve rs v)
    intro v u hlead
    unfold Leads at *
    rw [next?_concat, hlead]
    rfl
  obtain ⟨-, -, hlast⟩ := List.pairwise_append.1 h.forward
  unfold Value.subst
  split
  · rename_i hr
    refine h.resolve_eq (hway.tail ?_) ?_
    · unfold Leads
      rw [next?_concat, next?_eq_none.2 hbefore, if_pos hr]
      rfl
    · intro r' hr'
      rcases List.mem_append.1 hr' with hr' | hr'
      · exact (hlast r' hr' r (List.mem_singleton_self r)).2
      · rw [List.mem_singleton.1 hr']
        exact h.apart r (List.mem_append_right _ (List.mem_singleton_self r))
  · rename_i hr
    refine h.resolve_eq hway ?_
    intro r' hr'
    rcases List.mem_append.1 hr' with hr' | hr'
    · exact hbefore r' hr'
    · rw [List.mem_singleton.1 hr']
      exact hr

lemma resolve_nil : resolve [] = id := rfl

end Replacement

namespace Func

open Replacement

namespace Folded

variable {f g : Func} {rs : List Replacement} {i : InstId} {b : BlockId}

/-- The instructions that are left were there before, and their operands were followed to their
ends. -/
lemma inst_inv (h : Folded f g rs) (hf : f.ListsPlaced) {q : PlacedInst}
    (hq : g.inst? i = some q) : (∀ r ∈ rs, r.phi ≠ i) ∧ ∃ p, f.inst? i = some p ∧
      q = { p with inst := p.inst.mapOperands (resolve rs) } := by
  induction h generalizing q with
  | refl => exact ⟨by simp, q, hq, by rw [resolve_nil, Inst.mapOperands_id]⟩
  | @step g rs k node same before hphi ht ih =>
    have hchained := ((before.step hphi ht).chained hf).1
    obtain ⟨hne, mid, hmid, hblock, hinst⟩ := ((before.listsPlaced hf).replaced k same).inst_inv hq
    obtain ⟨hnot, p, hp, rfl⟩ := ih hmid
    refine ⟨?_, p, hp, ?_⟩
    · intro r hr
      rcases List.mem_append.1 hr with hr | hr
      · exact hnot r hr
      · rw [List.mem_singleton.1 hr]
        exact Ne.symm hne
    · have hsame : resolve (rs ++ [⟨k, same⟩]) =
          fun v => Value.subst (.inst k) same (resolve rs v) := funext hchained.resolve_concat
      obtain ⟨inst, c⟩ := q
      obtain rfl : inst = _ := hinst
      obtain rfl : c = p.block := hblock
      rw [hsame, Inst.mapOperands_mapOperands]

lemma capacity_eq (h : Folded f g rs) : g.instCapacity = f.instCapacity := by
  induction h with
  | refl => rfl
  | step _ _ _ ih => rw [instCapacity_replaced, ih]

/-- Instructions that are not replaced are there still. -/
lemma inst_eq (h : Folded f g rs) (hf : f.ListsPlaced) {p : PlacedInst} (hp : f.inst? i = some p)
    (hnot : ∀ r ∈ rs, r.phi ≠ i) :
    g.inst? i = some { p with inst := p.inst.mapOperands (resolve rs) } := by
  cases hq : g.inst? i with
  | none =>
    have hlt : i.index < g.instCapacity := h.capacity_eq ▸ lt_instCapacity hp
    rcases (h.gone_iff i).1 ⟨hlt, hq⟩ with hgone | ⟨r, hr, he⟩
    · rw [hgone.2] at hp
      cases hp
    · exact absurd he (hnot r hr)
  | some q =>
    obtain ⟨-, p', hp', rfl⟩ := h.inst_inv hf hq
    rw [hp] at hp'
    cases hp'
    rfl

/-- So were the phis. -/
lemma phi_inv (h : Folded f g rs) (hf : f.ListsPlaced) {node' : Phi} (hi : g.phi? i = some node') :
    ∃ node, f.phi? i = some node ∧ node' = node.mapValues (resolve rs) := by
  obtain ⟨b, hq⟩ := phi?_some hi
  obtain ⟨-, ⟨inst, c⟩, hp, hinst⟩ := h.inst_inv hf hq
  obtain ⟨hinst, rfl⟩ := PlacedInst.mk.inj hinst
  cases inst <;> cases hinst
  exact ⟨_, phi?_of_inst hp, rfl⟩

/-- The operands of a phi that is replaced lead where the phi leads. -/
lemma resolve_value (h : Folded f g rs) (hf : f.ListsPlaced) :
    ∀ r ∈ rs, ∃ node, f.phi? r.phi = some node ∧
      ∀ v ∈ node.values, resolve rs v = resolve rs (.inst r.phi) := by
  induction h with
  | refl => simp
  | @step g rs k node same before hphi ht ih =>
    have hchained := ((before.step hphi ht).chained hf).1
    intro r hr
    simp only [hchained.resolve_concat]
    rcases List.mem_append.1 hr with hr | hr
    · obtain ⟨node₀, hnode₀, hall⟩ := ih r hr
      exact ⟨node₀, hnode₀, fun v hv => congrArg _ (hall v hv)⟩
    · obtain rfl := List.mem_singleton.1 hr
      obtain ⟨node₀, hnode₀, rfl⟩ := before.phi_inv hf hphi
      refine ⟨node₀, hnode₀, ?_⟩
      intro v hv
      have hnot : ∀ r ∈ rs, Value.inst k ≠ .inst r.phi := by
        intro r hr he
        obtain ⟨-, hnone⟩ := (before.gone_iff k).2 (.inr ⟨r, hr, (Value.inst.inj he).symm⟩)
        obtain ⟨b, hinst⟩ := phi?_some hphi
        rw [hinst] at hnone
        cases hnone
      have hmem : resolve rs v ∈ (node₀.mapValues (resolve rs)).values := by
        unfold Phi.values Phi.mapValues
        obtain ⟨op, hop, rfl⟩ := List.mem_map.1 hv
        exact List.mem_map_of_mem (List.mem_map_of_mem hop)
      rw [resolve_eq_self hnot]
      unfold Value.subst
      rw [if_pos rfl]
      rcases (Phi.trivial?_some ht).1 _ hmem with he | he
      · rw [if_pos he]
      · rw [if_neg (he ▸ Phi.trivial?_ne ht)]
        exact he

/-- What the instructions are: all but the phis that were replaced, with their operands followed to
their ends. -/
lemma inst?_eq (h : Folded f g rs) (hf : f.ListsPlaced) (i : InstId) :
    g.inst? i = if ∃ r ∈ rs, r.phi = i then none
      else (f.inst? i).map fun p => { p with inst := p.inst.mapOperands (resolve rs) } := by
  split
  · rename_i hr
    exact ((h.gone_iff i).2 (.inr hr)).2
  · rename_i hr
    have hnot : ∀ r ∈ rs, r.phi ≠ i := fun r hmem he => hr ⟨r, hmem, he⟩
    cases hp : f.inst? i with
    | some p => exact h.inst_eq hf hp hnot
    | none =>
      refine Option.eq_none_iff_forall_ne_some.2 fun q hq => ?_
      obtain ⟨-, p, hp', -⟩ := h.inst_inv hf hq
      rw [hp] at hp'
      cases hp'

/-- What the blocks are: the phis that were replaced are listed no more, and the operands of the ways
out are followed to their ends. -/
lemma block?_eq (h : Folded f g rs) (hf : f.ListsPlaced) (b : BlockId) :
    g.block? b = (f.block? b).map fun bb => { bb with
      phis := bb.phis.filter fun i => ∀ r ∈ rs, r.phi ≠ i
      body := bb.body.filter fun i => ∀ r ∈ rs, r.phi ≠ i
      terminator := bb.terminator.map (·.mapOperands (resolve rs)) } := by
  induction h with
  | refl =>
    cases f.block? b with
    | none => rfl
    | some bb =>
      have hend : bb.terminator.map (·.mapOperands (resolve [])) = bb.terminator := by
        cases bb.terminator with
        | none => rfl
        | some t => rw [Option.map_some, resolve_nil, Terminator.mapOperands_id]
      simp [hend]
  | @step g rs k node same before hphi ht ih =>
    have hchained := ((before.step hphi ht).chained hf).1
    have hlist : ∀ l : List InstId, (l.filter fun i => ∀ r ∈ rs, r.phi ≠ i).filter (· ≠ k) =
        l.filter fun i => ∀ r ∈ rs ++ [⟨k, same⟩], r.phi ≠ i := by
      intro l
      rw [List.filter_filter]
      refine List.filter_congr fun i _ => ?_
      rw [← Bool.decide_and]
      refine decide_eq_decide.2 ?_
      simp only [List.forall_mem_append, List.forall_mem_singleton]
      exact ⟨fun hi => ⟨hi.2, Ne.symm hi.1⟩, fun hi => ⟨Ne.symm hi.2, hi.1⟩⟩
    have hsame : resolve (rs ++ [⟨k, same⟩]) =
        fun v => Value.subst (.inst k) same (resolve rs v) := funext hchained.resolve_concat
    rw [((before.listsPlaced hf).replaced k same).block, ih, Option.map_map]
    cases f.block? b with
    | none => rfl
    | some bb =>
      simp only [Option.map_some, Option.map_map, hlist, hsame,
        Terminator.mapOperands_mapOperands, Function.comp_def]

/-- The ways out of the blocks are the same, with their operands followed to their ends. -/
lemma terminator?_eq (h : Folded f g rs) (hf : f.ListsPlaced) (b : BlockId) :
    g.terminator? b = (f.terminator? b).map (·.mapOperands (resolve rs)) :=
  terminator?_eq_of_map (h.block?_eq hf b) fun _ => rfl

/-- Replaced are the phis that are gone. -/
lemma replaced_iff (h : Folded f g rs) (hf : f.ListsPlaced) (i : InstId) :
    (∃ r ∈ rs, r.phi = i) ↔ (∃ node, f.phi? i = some node) ∧ g.inst? i = none := by
  have hinst := h.inst?_eq hf i
  constructor
  · intro hr
    refine ⟨?_, by rw [hinst, if_pos hr]⟩
    obtain ⟨r, hr, rfl⟩ := hr
    obtain ⟨node, hnode, -⟩ := h.resolve_value hf r hr
    exact ⟨node, hnode⟩
  · rintro ⟨⟨node, hnode⟩, hgone⟩
    by_contra hnot
    obtain ⟨c, hi⟩ := phi?_some hnode
    rw [hinst, if_neg hnot, hi] at hgone
    cases hgone

/-- All operands were followed to their ends, and no chain ends at a phi that was replaced. -/
lemma unused (h : Folded f g rs) (hf : f.ListsPlaced) {r : Replacement} (hr : r ∈ rs) :
    (∀ i q, g.inst? i = some q → Value.inst r.phi ∉ q.inst.operands) ∧
      ∀ b t, g.terminator? b = some t → Value.inst r.phi ∉ t.operands := by
  obtain ⟨hchained, hcut⟩ := h.chained hf
  refine ⟨hcut r hr, fun b t ht hmem => ?_⟩
  rw [h.terminator?_eq hf] at ht
  obtain ⟨t₀, -, rfl⟩ := Option.map_eq_some_iff.1 ht
  rw [Terminator.operands_mapOperands] at hmem
  obtain ⟨v, -, hv⟩ := List.mem_map.1 hmem
  exact hchained.resolve_ne v r hr hv

/-- Blocks keep the other instructions. -/
lemma mem_body (h : Folded f g rs) (hf : f.ListsPlaced) {bb : Block} (hb : f.block? b = some bb)
    (hi : i ∈ bb.body) (hnot : ∀ r ∈ rs, r.phi ≠ i) :
    ∃ bb', g.block? b = some bb' ∧ i ∈ bb'.body := by
  rw [h.block?_eq hf, hb]
  exact ⟨_, rfl, List.mem_filter.2 ⟨hi, decide_eq_true hnot⟩⟩

end Folded

end Func

end SsaBackend
