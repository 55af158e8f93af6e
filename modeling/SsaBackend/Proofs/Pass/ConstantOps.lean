import Mathlib.Data.List.Nodup
import Mathlib.Logic.Relation
import SsaBackend.Pass.ConstantOps
import SsaBackend.Proofs.Func.NoTrivialPhis

/-!
# Folding constant operations keeps a function sound

An instruction amounts to a constant or, if it is a select, to one of the values between which
it chooses. The first is always a good replacement. The second is an operand, so uses stay
dominated; but in blocks that are never run a select may choose itself, directly or through
other selects, and replacing it by itself leaves uses of an instruction that is gone.
`Func.PicksEnd` says that no select does, and then all operands stay known
(`ConstantOps.run_folds`) and the rounds come to an end (`ConstantOps.foldAll_ends`). Where the
entry leads, selects never choose themselves (`Func.picksEnd_of_dominated`).

Running an instruction gives it the value it amounts to (`Inst.exec_of_fold?`). In the course of
a round that stays so as long as the value was not replaced itself (`ConstantOps.Amounts`), so
replacing the candidates one after the other keeps the meaning (`ConstantOps.Folds`).
-/

namespace SsaBackend

namespace Inst

/-- The values between which a select chooses. -/
def picks : Inst → List Value
  | select _ a b => [a, b]
  | _ => []

lemma picks_mapOperands (g : Value → Value) (inst : Inst) :
    (inst.mapOperands g).picks = inst.picks.map g := by
  cases inst <;> rfl

lemma mem_operands_of_picks {inst : Inst} {v : Value} (h : v ∈ inst.picks) :
    v ∈ inst.operands := by
  cases inst with
  | select c a b => exact List.mem_cons_of_mem _ h
  | _ => cases h

/-- An instruction whose value is known amounts to a constant or to what a select picks. -/
lemma fold?_some {inst : Inst} {v : Value} (h : inst.fold? = some v) :
    (∃ c, v = .const c) ∨ v ∈ inst.picks := by
  cases inst with
  | binary op a b =>
    obtain ⟨x, -, h⟩ := Option.bind_eq_some_iff.1 h
    obtain ⟨y, -, h⟩ := Option.bind_eq_some_iff.1 h
    obtain ⟨c, -, rfl⟩ := Option.map_eq_some_iff.1 h
    exact .inl ⟨c, rfl⟩
  | compare p a b =>
    obtain ⟨x, -, h⟩ := Option.bind_eq_some_iff.1 h
    obtain ⟨y, -, h⟩ := Option.bind_eq_some_iff.1 h
    cases h
    exact .inl ⟨_, rfl⟩
  | cast op w bits =>
    obtain ⟨c, -, rfl⟩ := Option.map_eq_some_iff.1 h
    exact .inl ⟨_, rfl⟩
  | select c a b =>
    right
    simp only [fold?] at h
    split at h
    · cases h
      exact List.mem_cons_self
    · obtain ⟨k, -, rfl⟩ := Option.map_eq_some_iff.1 h
      simp only [picks]
      split
      · exact List.mem_cons_self
      · exact List.mem_cons_of_mem _ List.mem_cons_self
  | _ => cases h

end Inst

/-! ## Constants have the values that running gives -/

/-- Logic on truth values is logic on the words they count as. -/
lemma BinaryOp.onWords?_of_onBools? {op : BinaryOp} {a b c : Bool} (h : op.onBools? a b = some c) :
    op.onWords? (Const.bool a).toInt64 (Const.bool b).toInt64 = some (Const.bool c).toInt64 := by
  cases op with
  | and | or | xor =>
    cases h
    cases a <;> cases b <;> decide
  | _ => cases h

lemma BinaryOp.onWords?_of_fold? {op : BinaryOp} {x y c : Const} (h : op.fold? x y = some c) :
    op.onWords? x.toInt64 y.toInt64 = some c.toInt64 := by
  have hwords : (op.onWords? x.toInt64 y.toInt64).map Const.int = some c →
      op.onWords? x.toInt64 y.toInt64 = some c.toInt64 := by
    intro h
    obtain ⟨v, hv, rfl⟩ := Option.map_eq_some_iff.1 h
    exact hv
  cases x with
  | int v => exact hwords h
  | bool a =>
    cases y with
    | int v => exact hwords h
    | bool b =>
      rw [fold?] at h
      split at h
      · rename_i r hr
        cases h
        exact onWords?_of_onBools? hr
      · exact hwords h

lemma Value.const?_some {v : Value} {k : Const} (h : v.const? = some k) : v = .const k := by
  cases v with
  | const c =>
    cases h
    rfl
  | _ => cases h

/-- Running an instruction whose value is known gives it that value and is not seen. -/
lemma Inst.exec_of_fold? {inst : Inst} {v : Value} (h : inst.fold? = some v) (w : World) (env : Env)
    (seen : List Effect) : inst.exec w env seen = some (v.eval w env, seen) := by
  cases inst with
  | binary op a b =>
    obtain ⟨x, hx, h⟩ := Option.bind_eq_some_iff.1 h
    obtain ⟨y, hy, h⟩ := Option.bind_eq_some_iff.1 h
    obtain ⟨c, hc, rfl⟩ := Option.map_eq_some_iff.1 h
    rw [Value.const?_some hx, Value.const?_some hy]
    simp only [exec, World.binary, Value.eval, BinaryOp.onWords?_of_fold? hc, Option.map_some]
  | compare p a b =>
    obtain ⟨x, hx, h⟩ := Option.bind_eq_some_iff.1 h
    obtain ⟨y, hy, h⟩ := Option.bind_eq_some_iff.1 h
    cases h
    rw [Value.const?_some hx, Value.const?_some hy]
    rfl
  | cast op u bits =>
    obtain ⟨c, hc, rfl⟩ := Option.map_eq_some_iff.1 h
    rw [Value.const?_some hc]
    rfl
  | select c a b =>
    simp only [fold?] at h
    split at h
    · rename_i hab
      cases h
      simp only [exec, hab, ite_self]
    · obtain ⟨k, hk, rfl⟩ := Option.map_eq_some_iff.1 h
      rw [Value.const?_some hk]
      simp only [exec, Value.eval, Const.toInt64_ne_zero]
      split <;> rfl
  | _ => cases h

namespace Func

/-- The select `i` of some block chooses between `j` and another value. -/
def Picks (f : Func) (i j : InstId) : Prop :=
  ∃ b bb p, f.block? b = some bb ∧ i ∈ bb.body ∧ f.inst? i = some p ∧ Value.inst j ∈ p.inst.picks

/-- No select chooses itself, directly or through other selects. -/
def PicksEnd (f : Func) : Prop := ∀ i, ¬ Relation.TransGen f.Picks i i

/-! ## Where the entry leads -/

/-- The instruction `j` is available at the first place where a block lists `i`. -/
def Precedes (f : Func) (j i : InstId) : Prop :=
  ∃ b bb before after, f.block? b = some bb ∧ bb.insts = before ++ i :: after ∧ i ∉ before ∧
    f.Available b before j

/-- What comes before an instruction is another one. -/
lemma Precedes.ne {f : Func} (hf : f.Framed) {i j : InstId} (h : f.Precedes j i) : j ≠ i := by
  rintro rfl
  obtain ⟨b, bb, before, after, hb, hsplit, hnot, hmem | ⟨d, hd, -, hl⟩⟩ := h
  · exact hnot hmem
  · have hlist : f.Lists b j := ⟨bb, hb, hsplit ▸ List.mem_append_right _ List.mem_cons_self⟩
    exact hd (hf.lists_unique hl hlist)

lemma Precedes.trans {f : Func} (hf : f.Framed) (hall : f.AllReached) {i j k : InstId}
    (hkj : f.Precedes k j) (hji : f.Precedes j i) : f.Precedes k i := by
  obtain ⟨c, cc, above, below, hc, hsplit', hnot', hk⟩ := hkj
  obtain ⟨b, bb, before, after, hb, hsplit, hnot, hj⟩ := hji
  refine ⟨b, bb, before, after, hb, hsplit, hnot, ?_⟩
  have hplace : ∃ bb, f.block? b = some bb ∧ before <+: bb.insts :=
    ⟨bb, hb, hsplit ▸ List.prefix_append ..⟩
  have hlistj : f.Lists c j := ⟨cc, hc, hsplit' ▸ List.mem_append_right _ List.mem_cons_self⟩
  obtain ⟨d, hlist, hdom, hbelow⟩ := hj.exists_above hplace
  have hdc := hf.lists_unique hlist hlistj
  subst hdc
  have habove : ∀ x ∈ above, f.Lists d x := by
    intro x hx
    exact ⟨cc, hc, hsplit' ▸ List.mem_append_left _ hx⟩
  refine hk.below habove hdom (hbelow.imp_right fun ⟨he, hmem⟩ => ⟨he, ?_⟩) (hall b bb hb)
  -- in one block: `j` is in front of `i`, and so is what is in front of `j`
  subst he
  rw [hb] at hc
  cases hc
  have heq : before ++ i :: after = above ++ j :: below := by rw [← hsplit, hsplit']
  rcases List.append_eq_append_iff.1 heq with ⟨l, hl, -⟩ | ⟨l, hl, -⟩
  · exact absurd (hl ▸ List.mem_append_left _ hmem) hnot'
  · rw [hl]
    exact List.subset_append_left ..

/-- In a function all of whose blocks are reached, selects do not choose themselves. -/
lemma picksEnd_of_dominated {f : Func} (hf : f.Framed) (hd : f.DominatedWhereReached)
    (hall : f.AllReached) : f.PicksEnd := by
  have hone : ∀ i j, f.Picks i j → f.Precedes j i := by
    rintro i j ⟨b, bb, p, hb, hi, hp, hpick⟩
    obtain ⟨before, after, hsplit⟩ := List.append_of_mem hi
    have honce := hd.once b bb hb (hall b bb hb)
    have hbefore : i ∉ before := by
      rw [hsplit] at honce
      intro hmem
      exact (List.nodup_append.1 honce).2.2 i hmem i List.mem_cons_self rfl
    refine ⟨b, bb, bb.phis ++ before, after, hb, ?_, ?_, ?_⟩
    · unfold Block.insts
      rw [hsplit, List.append_assoc]
    · rw [List.mem_append, not_or]
      exact ⟨hf.not_mem_phis hb hi, hbefore⟩
    · exact hd.reads b _ j (.inBody hb hsplit hp (Inst.mem_operands_of_picks hpick)) (hall b bb hb)
  have hmany : ∀ i j, Relation.TransGen f.Picks i j → f.Precedes j i := by
    intro i j h
    induction h with
    | single h => exact hone _ _ h
    | tail _ h ih => exact (hone _ _ h).trans hf hall ih
  intro i h
  exact (hmany i i h).ne hf rfl

end Func

namespace ConstantOps

open Func

variable {f g : Func} {c : InstId × Value} {i : InstId} {v : Value}

/-! ## Candidates -/

/-- What the value names is there. -/
def Lives (f : Func) (v : Value) : Prop := ∀ j, v = .inst j → ∃ q, f.inst? j = some q

/-- The candidate is an instruction of a block, what it amounts to is picked by it, as long as
both are there, and is what running it gives. -/
structure Amounts (f : Func) (c : InstId × Value) : Prop where
  listed : ∀ p, f.inst? c.1 = some p → ∃ b bb, f.block? b = some bb ∧ c.1 ∈ bb.body
  picked : ∀ j, c.2 = .inst j → ∀ q, f.inst? j = some q → ∀ p, f.inst? c.1 = some p →
    Value.inst j ∈ p.inst.picks
  gives : Lives f c.2 → ∀ p, f.inst? c.1 = some p →
    ∀ w env seen, p.inst.exec w env seen = some (c.2.eval w env, seen)

lemma mem_candidates (h : c ∈ candidates f) :
    ∃ b bb p, f.block? b = some bb ∧ c.1 ∈ bb.body ∧ f.inst? c.1 = some p ∧
      p.inst.fold? = some c.2 := by
  unfold candidates at h
  obtain ⟨i, hi, hc⟩ := List.mem_filterMap.1 h
  obtain ⟨⟨b, bb⟩, hb, hmem⟩ := List.mem_flatMap.1 hi
  obtain ⟨p, hp, hfold⟩ := Option.bind_eq_some_iff.1 hc
  obtain ⟨v, hv, rfl⟩ := Option.map_eq_some_iff.1 hfold
  exact ⟨b, bb, p, mem_liveBlocks.1 hb, hmem, hp, hv⟩

lemma amounts_of_mem (h : c ∈ candidates f) : Amounts f c := by
  obtain ⟨b, bb, p, hb, hmem, hp, hfold⟩ := mem_candidates h
  refine ⟨fun _ _ => ⟨b, bb, hb, hmem⟩, ?_, ?_⟩
  · intro j hj q _ p' hp'
    rw [hp] at hp'
    cases hp'
    rcases Inst.fold?_some hfold with ⟨k, hk⟩ | hpick
    · rw [hj] at hk
      cases hk
    · exact hj ▸ hpick
  · intro _ p' hp'
    rw [hp] at hp'
    cases hp'
    exact Inst.exec_of_fold? hfold

lemma Amounts.replaced (h : Amounts f c) (hr : Func.Replaced f g i v) : Amounts g c := by
  refine ⟨?_, ?_, ?_⟩
  · intro q hq
    obtain ⟨hne, p, hp, -, -⟩ := hr.inst_inv hq
    obtain ⟨b, bb, hb, hmem⟩ := h.listed p hp
    exact ⟨b, _, hr.block_eq hb, List.mem_filter.2 ⟨hmem, by simpa using hne⟩⟩
  · intro j hj q hq p' hp'
    obtain ⟨hji, q₀, hq₀, -, -⟩ := hr.inst_inv hq
    obtain ⟨-, p, hp, -, hinst⟩ := hr.inst_inv hp'
    have hpick := h.picked j hj q₀ hq₀ p hp
    rw [hinst, Inst.picks_mapOperands]
    refine List.mem_map.2 ⟨.inst j, hpick, ?_⟩
    unfold Value.subst
    rw [if_neg fun he => hji (Value.inst.inj he)]
  · intro hlive p' hp' w env seen
    obtain ⟨-, p, hp, -, hinst⟩ := hr.inst_inv hp'
    have hlive' : Lives f c.2 := by
      intro j hj
      obtain ⟨q, hq⟩ := hlive j hj
      obtain ⟨-, q₀, hq₀, -⟩ := hr.inst_inv hq
      exact ⟨q₀, hq₀⟩
    -- with `v` in the place of `i` it computes what it did where `i` has the value of `v`
    have hsame : ∀ u ∈ p.inst.operands, (Value.subst (.inst i) v u).eval w env =
        u.eval w (env.set i (v.eval w env)) := by
      intro u _
      refine Value.eval_subst (fun j hj => (Env.set_ne _ _ hj).symm) fun _ => ?_
      exact (Env.set_self ..).symm
    have hval : c.2.eval w (env.set i (v.eval w env)) = c.2.eval w env := by
      apply Value.eval_congr
      intro j hj
      obtain ⟨q, hq⟩ := hlive j hj
      exact Env.set_ne _ _ (hr.inst_inv hq).1
    rw [hinst, Inst.exec_mapOperands hsame, h.gives hlive' p hp, hval]

/-! ## One replacement -/

/-- A candidate waits, or it is replaced by a value that is there. -/
lemma apply_cases (s : Progress) (c : InstId × Value) :
    apply s c = s ∨ Lives s.func c.2 ∧
      (apply s c).func = (s.func.replaceUses c.1 c.2).removeInst c.1 := by
  unfold apply
  split
  · exact .inl rfl
  · rename_i h
    refine .inr ⟨?_, rfl⟩
    intro j hj
    rw [hj] at h
    simp only [Value.inst?, Option.any_some, Option.isNone_iff_eq_none] at h
    exact Option.ne_none_iff_exists'.1 h

/-- Replacing a candidate keeps selects from choosing themselves: one that chose the candidate
now chooses what the candidate chose. -/
lemma picksEnd_replaced (hr : Func.Replaced f g i v) (hk : f.OperandsKnown) (ha : Amounts f (i, v))
    (hlive : Lives f v) (hend : f.PicksEnd) : g.PicksEnd := by
  have hone : ∀ k l, g.Picks k l → Relation.TransGen f.Picks k l := by
    rintro k l ⟨b, bb', q, hb', hmem, hq, hpick⟩
    obtain ⟨bb, hb, -, hbody, -, -⟩ := hr.block_inv hb'
    obtain ⟨-, p, hp, -, hinst⟩ := hr.inst_inv hq
    rw [hbody] at hmem
    have hkb := (List.mem_filter.1 hmem).1
    rw [hinst, Inst.picks_mapOperands] at hpick
    obtain ⟨u, hu, he⟩ := List.mem_map.1 hpick
    unfold Value.subst at he
    split at he
    · -- it chose the candidate, and that chose the value
      rename_i hui
      subst hui
      have hki : f.Picks k i := ⟨b, bb, p, hb, hkb, hp, hu⟩
      have hoperand : Value.inst i ∈ f.blockOperands bb :=
        mem_blockOperands.2
          (.inl ⟨k, List.mem_append_right _ hkb, p, hp, Inst.mem_operands_of_picks hu⟩)
      obtain ⟨pi, hpi⟩ := hk b bb hb _ hoperand
      obtain ⟨ql, hql⟩ := hlive l he
      obtain ⟨d, dd, hd, hid⟩ := ha.listed pi hpi
      exact .tail (.single hki) ⟨d, dd, pi, hd, hid, hpi, ha.picked l he ql hql pi hpi⟩
    · subst he
      exact .single ⟨b, bb, p, hb, hkb, hp, hu⟩
  intro k hk
  refine hend k ?_
  have hmany : ∀ a b, Relation.TransGen g.Picks a b → Relation.TransGen f.Picks a b := by
    intro a b h
    induction h with
    | single h => exact hone _ _ h
    | tail _ h ih => exact ih.trans (hone _ _ h)
  exact hmany k k hk

/-- What folding constants keeps. -/
structure Folds (f g : Func) : Prop where
  shape : SameShape f g
  framed : g.Framed
  dominated : f.DominatedWhereReached → g.DominatedWhereReached
  known : f.OperandsKnown → f.PicksEnd → g.OperandsKnown ∧ g.PicksEnd
  meaning : f.DominatedWhereReached → f.SameMeaning g

lemma Folds.refl (hf : f.Framed) : Folds f f :=
  ⟨.refl f, hf, id, fun hk hp => ⟨hk, hp⟩, fun _ => .refl f⟩

lemma Folds.trans {h : Func} (hfg : Folds f g) (hgh : Folds g h) : Folds f h where
  shape := hfg.shape.trans hgh.shape
  framed := hgh.framed
  dominated hd := hgh.dominated (hfg.dominated hd)
  known hk hp := (hfg.known hk hp).elim hgh.known
  meaning hd := (hfg.meaning hd).trans (hgh.meaning (hfg.dominated hd))

/-- The candidate is not its own value, and an argument among the values exists. -/
def Apart (f : Func) (c : InstId × Value) : Prop :=
  c.2 ≠ .inst c.1 ∧ ∀ n, c.2 = .arg n → n < f.numArgs

lemma apart_of_mem (h : c ∈ candidates f) (hk : f.OperandsKnown) (hend : f.PicksEnd) :
    Apart f c := by
  obtain ⟨b, bb, p, hb, hmem, hp, hfold⟩ := mem_candidates h
  have hcases := Inst.fold?_some hfold
  refine ⟨?_, ?_⟩
  · intro he
    rcases hcases with ⟨k, hk⟩ | hpick
    · rw [he] at hk
      cases hk
    · exact hend c.1 (.single ⟨b, bb, p, hb, hmem, hp, he ▸ hpick⟩)
  · intro n hn
    rcases hcases with ⟨k, hk⟩ | hpick
    · rw [hn] at hk
      cases hk
    · have hoperand : Value.arg n ∈ f.blockOperands bb :=
        mem_blockOperands.2 (.inl ⟨c.1, List.mem_append_right _ hmem, p, hp,
          Inst.mem_operands_of_picks (hn ▸ hpick)⟩)
      exact hk b bb hb _ hoperand

/-- The value of a candidate stands for it. -/
lemma Amounts.standsFor (ha : Amounts f (i, v)) (hf : f.Framed) (hd : f.DominatedWhereReached)
    (hlive : Lives f v) : f.StandsFor v i := by
  cases hi : f.inst? i with
  | none =>
    -- an instruction that is gone is available nowhere
    intro b before _ hplace hav
    obtain ⟨d, hl, -⟩ := hav.exists_above hplace
    obtain ⟨p, hp, -⟩ := hf.block_of_lists hl
    rw [hi] at hp
    cases hp
  | some p =>
    obtain ⟨b, bb, hb, hmem⟩ := ha.listed p hi
    obtain ⟨p', hp', -, hphi⟩ := hf.body b bb hb i hmem
    rw [hi] at hp'
    cases hp'
    refine standsFor_of_operand hf hd hi hphi ?_
    intro j hj
    obtain ⟨q, hq⟩ := hlive j hj
    exact Inst.mem_operands_of_picks (ha.picked j hj q hq p hi)

/-- Running a candidate gives it its value. -/
lemma Amounts.givesValue (ha : Amounts f (i, v)) (hf : f.Framed) (hlive : Lives f v) :
    f.Gives i v := by
  refine ⟨fun b bb hb _ hi p hp => ha.gives hlive p hp, ?_⟩
  intro b bb hb _ hi node hnode
  obtain ⟨c, hc⟩ := phi?_some hnode
  obtain ⟨d, dd, hd, hbody⟩ := ha.listed _ hc
  obtain ⟨p, hp, -, hphi⟩ := hf.body d dd hd i hbody
  rw [hc] at hp
  cases hp
  cases hphi

lemma apply_folds {s : Progress} (hf : s.func.Framed) (ha : Amounts s.func c) :
    (SameShape s.func (apply s c).func ∧ (apply s c).func.Framed ∧
      (s.func.DominatedWhereReached → (apply s c).func.DominatedWhereReached) ∧
      (s.func.DominatedWhereReached → s.func.SameMeaning (apply s c).func)) ∧
      (∀ c', Amounts s.func c' → Amounts (apply s c).func c') ∧
      (Apart s.func c → s.func.OperandsKnown → s.func.PicksEnd →
        (apply s c).func.OperandsKnown ∧ (apply s c).func.PicksEnd) := by
  rcases apply_cases s c with he | ⟨hlive, he⟩
  · rw [he]
    exact ⟨⟨.refl _, hf, id, fun _ => .refl _⟩, fun _ h => h, fun _ hk hp => ⟨hk, hp⟩⟩
  · have hr := hf.replaced c.1 c.2
    rw [he]
    refine ⟨⟨hr.sameShape, hr.framed hf, ?_, ?_⟩, fun c' hc' => hc'.replaced hr, ?_⟩
    · intro hd
      exact hr.dominated hd (ha.standsFor hf hd hlive)
    · intro hd
      exact hr.sameMeaning hf hd (ha.standsFor hf hd hlive) (ha.givesValue hf hlive)
    · rintro ⟨hne, hargs⟩ hk hp
      refine ⟨hr.operandsKnown hk ?_ hne, picksEnd_replaced hr hk ha hlive hp⟩
      cases hv : c.2 with
      | inst j => exact hlive j hv
      | arg n => exact hargs n hv
      | const k => trivial
      | undef => trivial

/-! ## Rounds -/

lemma foldl_apply (l : List (InstId × Value)) (s : Progress) (hf : s.func.Framed)
    (ha : ∀ c ∈ l, Amounts s.func c) :
    let t := l.foldl apply s
    (SameShape s.func t.func ∧ t.func.Framed ∧
      (s.func.DominatedWhereReached → t.func.DominatedWhereReached) ∧
      (s.func.DominatedWhereReached → s.func.SameMeaning t.func)) ∧
      ((∀ c ∈ l, Apart s.func c) → s.func.OperandsKnown → s.func.PicksEnd →
        t.func.OperandsKnown ∧ t.func.PicksEnd) := by
  induction l generalizing s with
  | nil => exact ⟨⟨.refl _, hf, id, fun _ => .refl _⟩, fun _ hk hp => ⟨hk, hp⟩⟩
  | cons c rest ih =>
    obtain ⟨⟨hshape, hframed, hdom, hmean⟩, hamounts, hknown⟩ :=
      apply_folds hf (ha c List.mem_cons_self)
    obtain ⟨⟨hshape', hframed', hdom', hmean'⟩, hknown'⟩ := ih (apply s c) hframed
      fun c' hc' => hamounts c' (ha c' (List.mem_cons_of_mem _ hc'))
    refine ⟨⟨hshape.trans hshape', hframed', fun hd => hdom' (hdom hd),
      fun hd => (hmean hd).trans (hmean' (hdom hd))⟩, ?_⟩
    intro hapart hk hp
    obtain ⟨hk', hp'⟩ := hknown (hapart c List.mem_cons_self) hk hp
    refine hknown' ?_ hk' hp'
    intro c' hc'
    obtain ⟨hne, hargs⟩ := hapart c' (List.mem_cons_of_mem _ hc')
    exact ⟨hne, fun n hn => by rw [hshape.numArgs]; exact hargs n hn⟩

lemma round_folds {s s' : Progress} (hf : s.func.Framed) (h : round s = some s') :
    Folds s.func s'.func := by
  unfold round at h
  split at h
  · cases h
  · cases h
    obtain ⟨⟨hshape, hframed, hdom, hmean⟩, hknown⟩ :=
      foldl_apply (candidates s.func) s hf fun c hc => amounts_of_mem hc
    exact ⟨hshape, hframed, hdom,
      fun hk hp => hknown (fun c hc => apart_of_mem hc hk hp) hk hp, hmean⟩

lemma foldAll_folds (hf : f.Framed) : Folds f (foldAll f).func := by
  refine repeatUpTo_induct (fun s : Progress => Folds f s.func) ?_ _ _ (.refl hf)
  intro s s' hs h
  exact hs.trans (round_folds hs.framed h)

/-! ## The end of the rounds -/

lemma instCount_apply (s : Progress) (c : InstId × Value) :
    (apply s c).func.instCount ≤ s.func.instCount := by
  rcases apply_cases s c with he | ⟨-, he⟩
  · exact Nat.le_of_eq (congrArg (·.func.instCount) he)
  · rw [he]
    exact instCount_replaced_le ..

lemma instCount_foldl_apply (l : List (InstId × Value)) (s : Progress) :
    (l.foldl apply s).func.instCount ≤ s.func.instCount := by
  induction l generalizing s with
  | nil => exact Nat.le_refl _
  | cons c rest ih => exact Nat.le_trans (ih (apply s c)) (instCount_apply s c)

/-- Where all operands are known, a round that finds anything takes an instruction away: the
value of its first candidate is still there. -/
lemma instCount_round {s s' : Progress} (hk : s.func.OperandsKnown) (h : round s = some s') :
    s'.func.instCount < s.func.instCount := by
  unfold round at h
  split at h
  · cases h
  · rename_i cs hne
    cases h
    obtain ⟨c, rest, hcs⟩ := List.exists_cons_of_ne_nil hne
    rw [hcs, List.foldl_cons]
    refine Nat.lt_of_le_of_lt (instCount_foldl_apply rest (apply s c)) ?_
    obtain ⟨b, bb, p, hb, hmem, hp, hfold⟩ := mem_candidates (hcs ▸ List.mem_cons_self)
    have hlive : ¬ (c.2.inst?.any fun i => (s.func.inst? i).isNone) = true := by
      rcases Inst.fold?_some hfold with ⟨k, hc⟩ | hpick
      · rw [hc]
        simp [Value.inst?]
      · have hknown := hk b bb hb c.2 (mem_blockOperands.2 (.inl ⟨c.1,
          List.mem_append_right _ hmem, p, hp, Inst.mem_operands_of_picks hpick⟩))
        cases hv : c.2 with
        | inst j =>
          rw [hv] at hknown
          obtain ⟨q, hq⟩ := hknown
          simp [Value.inst?, hq]
        | _ => simp [Value.inst?]
    unfold apply
    rw [if_neg hlive]
    exact instCount_replaced c.2 hp

/-- Where all operands are known and no select chooses itself, the rounds go on until nothing is
left to fold. -/
theorem foldAll_ends (hf : f.Framed) (hk : f.OperandsKnown) (hp : f.PicksEnd) :
    candidates (foldAll f).func = [] := by
  have hend : round (foldAll f) = none := by
    refine repeatUpTo_done
      (fun s : Progress => s.func.Framed ∧ s.func.OperandsKnown ∧ s.func.PicksEnd)
      (fun s => s.func.instCount) ?_ ?_ _ _ ⟨hf, hk, hp⟩ ?_
    · rintro s s' ⟨hf, hk, hp⟩ h
      have hfolds := round_folds hf h
      exact ⟨hfolds.framed, hfolds.known hk hp⟩
    · rintro s s' ⟨-, hk, -⟩ h
      exact instCount_round hk h
    · exact f.instCount_le_instCapacity
  unfold round at hend
  split at hend
  · assumption
  · cases hend

/-! ## The pass -/

/-- The function that the pass leaves. -/
def folded (f : Func) : Func :=
  ((foldAll f).func.foldTrivialPhis (foldAll f).func.phiIds fun _ => true).1

/-- The pass ends well if the rounds end. -/
lemma run_folded (s : Session) :
    ConstantOps.run.Meets s (fun _ s' => s'.cache = s.cache ∧ s'.func = folded s.func)
      fun _ => candidates (foldAll s.func).func ≠ [] := by
  unfold ConstantOps.run
  refine Work.Meets.get_bind ?_
  dsimp only
  split
  · rename_i hleft
    exact Work.Meets.of_throw (by simpa using hleft)
  · refine Work.Meets.modify_bind ?_
    split
    · exact Work.Meets.modify_bind (Work.Meets.of_pure ⟨rfl, rfl⟩)
    · exact Work.Meets.of_pure ⟨rfl, rfl⟩

/-- Folding trivial phis at the end keeps what the rounds keep. -/
lemma folded_keeps (hf : f.Framed) : SameShape (foldAll f).func (folded f) ∧
    Keeps (foldAll f).func (folded f) :=
  foldTrivialPhis_keeps (foldAll_folds hf).framed (phisListed_phiIds (foldAll f).func) fun _ => true

/-- The pass keeps the graph, the frame and dominated uses, and if no select chooses itself all
operands stay known. -/
lemma run_folds {s : Session} (hf : s.func.Framed) :
    ConstantOps.run.Meets s (fun _ s' =>
      s'.cache = s.cache ∧ SameShape s.func s'.func ∧ s'.func.Framed ∧
        (s.func.DominatedWhereReached → s'.func.DominatedWhereReached) ∧
        (s.func.OperandsKnown → s.func.PicksEnd → s'.func.OperandsKnown))
      fun _ => candidates (foldAll s.func).func ≠ [] := by
  have hdone := foldAll_folds hf
  obtain ⟨hshape, hkeep⟩ := folded_keeps hf
  refine (run_folded s).mono ?_ fun _ h => h
  rintro _ s' ⟨hcache, hfunc⟩
  rw [hfunc]
  refine ⟨hcache, hdone.shape.trans hshape, hkeep.framed,
    fun hd => hkeep.dominated (hdone.dominated hd), ?_⟩
  intro hk hp
  exact hkeep.operands (hdone.known hk hp).1

end ConstantOps

end SsaBackend
