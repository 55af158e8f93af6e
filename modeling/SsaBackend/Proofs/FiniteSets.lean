import Mathlib.Data.Finset.Sort
import SsaBackend.Proofs.BitSet
import SsaBackend.Proofs.Checked.Access

/-!
# Bit sets as finite sets

Sets of small numbers are made empty or full and then changed, each by itself or with the members
of another (`SetCall`). The same calls can be made of any kind of sets (`SetKind`): of those that
are kept in words (`BitSet.kind`), and of finite sets with a bound for their members
(`BoundedSet.kind`), for which a change is by definition that the members are others than before.

Whatever the calls, both kinds give the same answers and refuse the same calls
(`SetKind.Refines.run_alike`), and the words come to stand for the finite sets: every question that
can be asked of a bit set is a question about its members (`BitSet.Represents.denotes`), and so is
every question about two of them (`SetCall.run_refines`).
-/

namespace SsaBackend

/-! ## Calls -/

/-- What can be done with sets of one kind. What may change a set tells whether it did. -/
structure SetKind (σ : Type) where
  empty : Nat → σ
  full : Nat → σ
  insert : σ → Nat → Except Error (Bool × σ)
  erase : σ → Nat → Except Error (Bool × σ)
  clear : σ → σ
  fill : σ → σ
  union : σ → σ → Except Error (Bool × σ)
  sdiff : σ → σ → Except Error (Bool × σ)

/-- A call that makes a set, or that changes one of those that were made. Sets are numbered as they
are made. -/
inductive SetCall where
  | empty (capacity : Nat)
  | full (capacity : Nat)
  | insert (set i : Nat)
  | erase (set i : Nat)
  | clear (set : Nat)
  | fill (set : Nat)
  | union (set other : Nat)
  | sdiff (set other : Nat)
  deriving DecidableEq, Repr

namespace SetKind

variable {σ τ : Type}

/-- Puts what became of a set in its place. -/
def put (sets : Array σ) (k : Nat) : Except Error (Bool × σ) → Except Error (Option Bool × Array σ)
  | .ok (changed, s) => .ok (some changed, sets.setIfInBounds k s)
  | .error e => .error e

/-- Makes a call: its answer, if it has one, and the sets afterwards. -/
def perform (K : SetKind σ) (sets : Array σ) : SetCall → Except Error (Option Bool × Array σ)
  | .empty n => return (none, sets.push (K.empty n))
  | .full n => return (none, sets.push (K.full n))
  | .insert k i => do put sets k (K.insert (← load? sets k) i)
  | .erase k i => do put sets k (K.erase (← load? sets k) i)
  | .clear k => return (none, sets.setIfInBounds k (K.clear (← load? sets k)))
  | .fill k => return (none, sets.setIfInBounds k (K.fill (← load? sets k)))
  | .union k l => do put sets k (K.union (← load? sets k) (← load? sets l))
  | .sdiff k l => do put sets k (K.sdiff (← load? sets k) (← load? sets l))

/-- Makes calls, one after another: what each answered or why it was refused, and the sets that
there are in the end. A refused call leaves the sets as they were. -/
def runFrom (K : SetKind σ) (sets : Array σ) :
    List SetCall → List (Except Error (Option Bool)) × Array σ
  | [] => ([], sets)
  | c :: rest =>
    match K.perform sets c with
    | .ok (answer, sets') =>
      let (answers, last) := K.runFrom sets' rest
      (.ok answer :: answers, last)
    | .error e =>
      let (answers, last) := K.runFrom sets rest
      (.error e :: answers, last)

/-- Makes calls when there is no set yet. -/
def run (K : SetKind σ) (calls : List SetCall) : List (Except Error (Option Bool)) × Array σ :=
  K.runFrom #[] calls

/-! ## Two kinds side by side -/

variable {R : σ → τ → Prop}

/-- Both are refused for one reason, or both give the same answer and leave what `R` relates. -/
inductive Alike {α : Type} (R : σ → τ → Prop) : Except Error (α × σ) → Except Error (α × τ) → Prop
  | ok (answer : α) {s : σ} {t : τ} (h : R s t) : Alike R (.ok (answer, s)) (.ok (answer, t))
  | error (e : Error) : Alike R (.error e) (.error e)

/-- Whatever is done with sets that are related, is alike. -/
structure Refines (K : SetKind σ) (L : SetKind τ) (R : σ → τ → Prop) : Prop where
  empty : ∀ n, R (K.empty n) (L.empty n)
  full : ∀ n, R (K.full n) (L.full n)
  insert : ∀ {s t}, R s t → ∀ i, Alike R (K.insert s i) (L.insert t i)
  erase : ∀ {s t}, R s t → ∀ i, Alike R (K.erase s i) (L.erase t i)
  clear : ∀ {s t}, R s t → R (K.clear s) (L.clear t)
  fill : ∀ {s t}, R s t → R (K.fill s) (L.fill t)
  union : ∀ {s t s' t'}, R s t → R s' t' → Alike R (K.union s s') (L.union t t')
  sdiff : ∀ {s t s' t'}, R s t → R s' t' → Alike R (K.sdiff s s') (L.sdiff t t')

/-- At every place there is a set of both kinds, and the two are related, or there is none. -/
def Matched (R : σ → τ → Prop) (sets : Array σ) (models : Array τ) : Prop :=
  ∀ k : Nat, Option.Rel R sets[k]? models[k]?

namespace Matched

variable {sets : Array σ} {models : Array τ}

lemma size_eq (h : Matched R sets models) : sets.size = models.size := by
  have hnone : ∀ k : Nat, sets.size ≤ k ↔ models.size ≤ k := by
    intro k
    have hk := h k
    rw [← Array.getElem?_eq_none_iff, ← Array.getElem?_eq_none_iff]
    generalize sets[k]? = x at hk ⊢
    generalize models[k]? = y at hk ⊢
    cases hk <;> simp
  exact Nat.le_antisymm ((hnone _).2 (Nat.le_refl _)) ((hnone _).1 (Nat.le_refl _))

lemma rel (h : Matched R sets models) {k : Nat} {s : σ} {t : τ} (hs : sets[k]? = some s)
    (ht : models[k]? = some t) : R s t := by
  have hk := h k
  rw [hs, ht] at hk
  cases hk with
  | some hst => exact hst

lemma mono (h : Matched R sets models) {Q : σ → τ → Prop} (hRQ : ∀ s t, R s t → Q s t) :
    Matched Q sets models := by
  intro k
  have hk := h k
  generalize sets[k]? = x at hk ⊢
  generalize models[k]? = y at hk ⊢
  cases hk with
  | some hst => exact .some (hRQ _ _ hst)
  | none => exact .none

lemma push (h : Matched R sets models) {s : σ} {t : τ} (hst : R s t) :
    Matched R (sets.push s) (models.push t) := by
  intro k
  rw [Array.getElem?_push, Array.getElem?_push, h.size_eq]
  split
  · exact .some hst
  · exact h k

lemma set (h : Matched R sets models) (k : Nat) {s : σ} {t : τ} (hst : R s t) :
    Matched R (sets.setIfInBounds k s) (models.setIfInBounds k t) := by
  intro l
  rw [Array.getElem?_setIfInBounds, Array.getElem?_setIfInBounds, h.size_eq]
  split
  · split
    · exact .some hst
    · exact .none
  · exact h l

lemma put (h : Matched R sets models) (k : Nat) {x : Except Error (Bool × σ)}
    {y : Except Error (Bool × τ)} (hxy : Alike R x y) :
    Alike (Matched R) (SetKind.put sets k x) (SetKind.put models k y) := by
  cases hxy with
  | ok changed hst => exact .ok (some changed) (h.set k hst)
  | error e => exact .error e

/-- A place is read on both sides, or on neither. -/
lemma load (h : Matched R sets models) (k : Nat) {α : Type} {F : σ → Except Error (α × Array σ)}
    {G : τ → Except Error (α × Array τ)}
    (hFG : ∀ s t, R s t → Alike (Matched R) (F s) (G t)) :
    Alike (Matched R) (load? sets k >>= F) (load? models k >>= G) := by
  have hk := h k
  unfold load?
  generalize sets[k]? = x at hk ⊢
  generalize models[k]? = y at hk ⊢
  cases hk with
  | some hst => exact hFG _ _ hst
  | none => exact .error _

end Matched

namespace Refines

variable {K : SetKind σ} {L : SetKind τ} {sets : Array σ} {models : Array τ}

/-- A call goes alike for both kinds. -/
lemma perform (h : K.Refines L R) (hm : Matched R sets models) (c : SetCall) :
    Alike (Matched R) (K.perform sets c) (L.perform models c) := by
  cases c with
  | empty n => exact .ok none (hm.push (h.empty n))
  | full n => exact .ok none (hm.push (h.full n))
  | insert k i => exact hm.load k fun s t hst => hm.put k (h.insert hst i)
  | erase k i => exact hm.load k fun s t hst => hm.put k (h.erase hst i)
  | clear k => exact hm.load k fun s t hst => .ok none (hm.set k (h.clear hst))
  | fill k => exact hm.load k fun s t hst => .ok none (hm.set k (h.fill hst))
  | union k l =>
    exact hm.load k fun s t hst => hm.load l fun s' t' hst' => hm.put k (h.union hst hst')
  | sdiff k l =>
    exact hm.load k fun s t hst => hm.load l fun s' t' hst' => hm.put k (h.sdiff hst hst')

lemma runFrom (h : K.Refines L R) (hm : Matched R sets models) (calls : List SetCall) :
    (K.runFrom sets calls).1 = (L.runFrom models calls).1 ∧
      Matched R (K.runFrom sets calls).2 (L.runFrom models calls).2 := by
  induction calls generalizing sets models with
  | nil => exact ⟨rfl, hm⟩
  | cons c rest ih =>
    have hc := h.perform hm c
    rw [SetKind.runFrom, SetKind.runFrom]
    generalize K.perform sets c = x at hc ⊢
    generalize L.perform models c = y at hc ⊢
    cases hc with
    | ok answer hm' =>
      obtain ⟨hanswers, hlast⟩ := ih hm'
      exact ⟨congrArg (.ok answer :: ·) hanswers, hlast⟩
    | error e =>
      obtain ⟨hanswers, hlast⟩ := ih hm
      exact ⟨congrArg (.error e :: ·) hanswers, hlast⟩

/-- Calls go alike for both kinds, one after another. -/
lemma run_alike (h : K.Refines L R) (calls : List SetCall) :
    (K.run calls).1 = (L.run calls).1 ∧ Matched R (K.run calls).2 (L.run calls).2 :=
  h.runFrom (fun _ => .none) calls

end Refines

end SetKind

/-! ## Finite sets -/

/-- A finite set of numbers below a bound. -/
@[ext]
structure BoundedSet where
  bound : Nat
  members : Finset Nat
  lt_bound : ∀ i ∈ members, i < bound

namespace BoundedSet

/-- Gives a set other members, and tells whether they are others. -/
def become (S : BoundedSet) (members : Finset Nat) (h : ∀ i ∈ members, i < S.bound) :
    Bool × BoundedSet :=
  (decide (members ≠ S.members), ⟨S.bound, members, h⟩)

/-- Finite sets as a kind of sets. A number past the bound is refused, and so is a set with another
bound. -/
def kind : SetKind BoundedSet where
  empty n := ⟨n, ∅, fun _ hi => absurd hi (Finset.notMem_empty _)⟩
  full n := ⟨n, Finset.range n, fun _ => Finset.mem_range.1⟩
  insert S i :=
    if hi : i < S.bound then
      .ok (S.become (insert i S.members) fun _ hj =>
        (Finset.mem_insert.1 hj).elim (fun he => he ▸ hi) (S.lt_bound _))
    else .error .outOfRange
  erase S i :=
    if i < S.bound then
      .ok (S.become (S.members.erase i) fun _ hj => S.lt_bound _ (Finset.mem_of_mem_erase hj))
    else .error .outOfRange
  clear S := ⟨S.bound, ∅, fun _ hi => absurd hi (Finset.notMem_empty _)⟩
  fill S := ⟨S.bound, Finset.range S.bound, fun _ => Finset.mem_range.1⟩
  union S T :=
    if h : S.bound = T.bound then
      .ok (S.become (S.members ∪ T.members) fun _ hj =>
        (Finset.mem_union.1 hj).elim (S.lt_bound _) fun ht => h ▸ T.lt_bound _ ht)
    else .error .outOfRange
  sdiff S T :=
    if S.bound = T.bound then
      .ok (S.become (S.members \ T.members) fun _ hj => S.lt_bound _ (Finset.mem_sdiff.1 hj).1)
    else .error .outOfRange

end BoundedSet

/-! ## Words for finite sets -/

namespace BitSet

/-- Bit sets as a kind of sets. -/
def kind : SetKind BitSet where
  empty := empty
  full := full
  insert := insert?
  erase := erase?
  clear := clear
  fill := fill
  union := union?
  sdiff := sdiff?

/-- The bits of the words are those of the members of a finite set. -/
structure Represents (s : BitSet) (S : BoundedSet) : Prop where
  fits : s.Over S.bound
  bit_eq : ∀ i, s.bit i = decide (i ∈ S.members)

namespace Represents

variable {s t : BitSet} {S T : BoundedSet}

/-- Words are equal for sets that are equal. -/
lemma eq_iff (hs : s.Represents S) (ht : t.Represents T) : s = t ↔ S = T := by
  constructor
  · rintro rfl
    refine BoundedSet.ext (hs.fits.capacity.symm.trans ht.fits.capacity) (Finset.ext fun i => ?_)
    rw [← decide_eq_decide, ← hs.bit_eq, ← ht.bit_eq]
  · rintro rfl
    exact hs.fits.ext ht.fits fun i _ => (hs.bit_eq i).trans (ht.bit_eq i).symm

/-- Combining words with others changes one of them exactly if the members become others. -/
lemma combine (hs : s.Represents S) (ht : t.Over S.bound) {f : UInt64 → UInt64 → UInt64}
    {members : Finset Nat} {h : ∀ i ∈ members, i < S.bound}
    (hnew : Represents ⟨s.capacity, List.zipWith f s.words t.words⟩ ⟨S.bound, members, h⟩) :
    SetKind.Alike Represents (.ok (changes f s t, ⟨s.capacity, List.zipWith f s.words t.words⟩))
      (.ok (S.become members h)) := by
  have hanswer : changes f s t = decide (members ≠ S.members) := by
    rw [hs.fits.changes_eq ht, decide_eq_decide, Ne, Ne, hnew.eq_iff hs, BoundedSet.ext_iff]
    simp
  rw [hanswer]
  exact .ok _ hnew

/-! One lemma for each operation. -/

lemma empty (n : Nat) : (BitSet.empty n).Represents (BoundedSet.kind.empty n) := by
  refine ⟨.empty n, fun i => ?_⟩
  rw [bit_empty]
  simp [BoundedSet.kind]

lemma full (n : Nat) : (BitSet.full n).Represents (BoundedSet.kind.full n) := by
  refine ⟨⟨valid_full n, rfl⟩, fun i => ?_⟩
  rw [bit_full]
  simp [BoundedSet.kind]

lemma clear (hs : s.Represents S) : s.clear.Represents (BoundedSet.kind.clear S) := by
  refine ⟨⟨⟨(List.length_map _).trans hs.fits.valid.length, fun i hi => ?_⟩, hs.fits.capacity⟩,
    fun i => ?_⟩
  · rw [bit_clear] at hi
    cases hi
  · rw [bit_clear]
    simp [BoundedSet.kind]

lemma fill (hs : s.Represents S) : s.fill.Represents (BoundedSet.kind.fill S) := by
  have hlen := hs.fits.valid.length
  refine ⟨⟨valid_fill hlen, hs.fits.capacity⟩, fun i => ?_⟩
  rw [bit_fill hlen, hs.fits.capacity]
  simp [BoundedSet.kind]

lemma insert? (hs : s.Represents S) (i : Nat) :
    SetKind.Alike Represents (s.insert? i) (BoundedSet.kind.insert S i) := by
  simp only [BoundedSet.kind, BitSet.insert?, hs.fits.capacity]
  by_cases hi : i < S.bound
  · have hanswer : (!s.contains i) = decide (Insert.insert i S.members ≠ S.members) := by
      rw [hs.fits.contains, hs.bit_eq]
      simp
    rw [if_pos hi, dif_pos hi, hanswer]
    refine .ok _ ⟨hs.fits.insert i, fun j => ?_⟩
    rw [hs.fits.bit_insert hi, hs.bit_eq, Bool.eq_iff_iff]
    simp [or_comm, @eq_comm _ i j]
  · rw [if_neg hi, dif_neg hi]
    exact .error _

lemma erase? (hs : s.Represents S) (i : Nat) :
    SetKind.Alike Represents (s.erase? i) (BoundedSet.kind.erase S i) := by
  simp only [BoundedSet.kind, BitSet.erase?, hs.fits.capacity]
  by_cases hi : i < S.bound
  · have hanswer : s.contains i = decide (S.members.erase i ≠ S.members) := by
      rw [hs.fits.contains, hs.bit_eq]
      simp
    rw [if_pos hi, if_pos hi, hanswer]
    refine .ok _ ⟨hs.fits.erase hi, fun j => ?_⟩
    rw [hs.fits.bit_erase hi, hs.bit_eq, Bool.eq_iff_iff]
    simp [and_comm, @eq_comm _ i j]
  · rw [if_neg hi, if_neg hi]
    exact .error _

lemma union? (hs : s.Represents S) (ht : t.Represents T) :
    SetKind.Alike Represents (s.union? t) (BoundedSet.kind.union S T) := by
  simp only [BoundedSet.kind, BitSet.union?, hs.fits.capacity, ht.fits.capacity]
  by_cases hbound : S.bound = T.bound
  · have hover : t.Over S.bound := hbound ▸ ht.fits
    rw [if_pos hbound, dif_pos hbound]
    refine hs.combine hover ⟨hs.fits.union hover, fun i => (hs.fits.bit_union hover i).trans ?_⟩
    rw [hs.bit_eq, ht.bit_eq, Bool.eq_iff_iff]
    simp
  · rw [if_neg hbound, dif_neg hbound]
    exact .error _

lemma sdiff? (hs : s.Represents S) (ht : t.Represents T) :
    SetKind.Alike Represents (s.sdiff? t) (BoundedSet.kind.sdiff S T) := by
  simp only [BoundedSet.kind, BitSet.sdiff?, hs.fits.capacity, ht.fits.capacity]
  by_cases hbound : S.bound = T.bound
  · have hover : t.Over S.bound := hbound ▸ ht.fits
    rw [if_pos hbound, if_pos hbound]
    refine hs.combine hover ⟨hs.fits.sdiff hover, fun i => (hs.fits.bit_sdiff hover i).trans ?_⟩
    rw [hs.bit_eq, ht.bit_eq, Bool.eq_iff_iff]
    simp
  · rw [if_neg hbound, if_neg hbound]
    exact .error _

end Represents

/-- Whatever is done with words and with the finite sets that they represent, is alike. -/
lemma kind_refines : kind.Refines BoundedSet.kind Represents where
  empty := Represents.empty
  full := Represents.full
  insert := Represents.insert?
  erase := Represents.erase?
  clear := Represents.clear
  fill := Represents.fill
  union := Represents.union?
  sdiff := Represents.sdiff?

/-! ## Questions -/

/-- The words speak for a finite set: what is asked of them is what holds of the set. -/
structure Denotes (s : BitSet) (S : BoundedSet) : Prop where
  capacity_eq : s.capacity = S.bound
  /-- There is room for the bound, -/
  length_eq : s.words.length = (S.bound + 63) / 64
  /-- and past it no bit is set. -/
  past_bound : ∀ k w, s.words[k]? = some w → ∀ j, S.bound ≤ 64 * k + j →
    w.toBitVec.getLsbD j = false
  contains_eq : ∀ i, s.contains i = decide (i ∈ S.members)
  count_eq : s.count = S.members.card
  isEmpty_eq : s.isEmpty = decide (S.members = ∅)
  toList_eq : s.toList = S.members.sort
  /-- A walk comes upon the members in ascending order, and upon nothing when it has been upon
  all of them. -/
  take_cursor : ∀ n, s.cursor.take n = S.members.sort.take n

/-- Words that represent a finite set speak for it. -/
lemma Represents.denotes {s : BitSet} {S : BoundedSet} (hs : s.Represents S) : s.Denotes S := by
  have hlist : s.toList = S.members.sort := by
    refine s.pairwise_toList.eq_of_mem_iff (Finset.sortedLT_sort _).pairwise fun i => ?_
    rw [mem_toList_iff_bit, hs.bit_eq, decide_eq_true_iff, Finset.mem_sort]
  refine ⟨hs.fits.capacity, hs.fits.capacity ▸ hs.fits.valid.length, fun k w hk j hj => ?_,
    fun i => (hs.fits.contains i).trans (hs.bit_eq i), ?_, ?_, hlist, fun n => ?_⟩
  · -- a bit past the word is not set, and one past the bound is not that of a member
    rcases Nat.lt_or_ge j 64 with hlt | hge
    · have hbit : s.bit (64 * k + j) = w.toBitVec.getLsbD j := by
        unfold bit
        rw [show (64 * k + j) / 64 = k by omega, List.getD_eq_getElem?_getD, hk, wordHas_eq,
          show (64 * k + j) % 64 = j by omega]
        rfl
      rw [← hbit, ← Bool.not_eq_true]
      intro hset
      have := hs.fits.bit_lt hset
      omega
    · exact BitVec.getLsbD_of_ge _ _ hge
  · rw [BitSet.count_eq, hlist, Finset.length_sort]
  · rw [Bool.eq_iff_iff, isEmpty_iff, hlist, decide_eq_true_iff, ← List.length_eq_zero_iff,
      Finset.length_sort, Finset.card_eq_zero]
  · rw [BitSet.take_cursor, hlist]

/-- The common members are counted, also of sets with different bounds. -/
lemma Represents.interCount_eq {s t : BitSet} {S T : BoundedSet} (hs : s.Represents S)
    (ht : t.Represents T) : s.interCount t = (S.members ∩ T.members).card := by
  have hfilter : S.members ∩ T.members =
      ((List.range S.bound).filter fun i => s.bit i && t.bit i).toFinset := by
    ext i
    rw [Finset.mem_inter, List.mem_toFinset, List.mem_filter, List.mem_range, Bool.and_eq_true,
      hs.bit_eq, ht.bit_eq, decide_eq_true_iff, decide_eq_true_iff]
    exact ⟨fun h => ⟨S.lt_bound i h.1, h⟩, fun h => h.2⟩
  rw [BitSet.interCount_eq hs.fits, hfilter, List.toFinset_card_of_nodup (List.nodup_range.filter _),
    List.countP_eq_length_filter]

end BitSet

/-! ## Bit sets are finite sets -/

namespace SetCall

/-- Bit sets are finite sets. Whatever calls are made, in words and of finite sets with a bound,
they answer the same: a number or a set that does not fit is refused, and what may change a set
tells whether its members are others than before. Each set of words then speaks for the finite set
in its place, no bit past its bound is set, and of any two of them the common members are counted
and the words are equal exactly if the sets are. -/
theorem run_refines (calls : List SetCall) :
    (BitSet.kind.run calls).1 = (BoundedSet.kind.run calls).1 ∧
    SetKind.Matched BitSet.Denotes (BitSet.kind.run calls).2 (BoundedSet.kind.run calls).2 ∧
    ∀ (k l : Nat) (s t : BitSet) (S T : BoundedSet),
      (BitSet.kind.run calls).2[k]? = some s → (BoundedSet.kind.run calls).2[k]? = some S →
      (BitSet.kind.run calls).2[l]? = some t → (BoundedSet.kind.run calls).2[l]? = some T →
      s.interCount t = (S.members ∩ T.members).card ∧
      (s = t ↔ S.bound = T.bound ∧ S.members = T.members) := by
  obtain ⟨hanswers, hmatched⟩ := BitSet.kind_refines.run_alike calls
  refine ⟨hanswers, hmatched.mono fun _ _ h => h.denotes, fun k l s t S T hs hS ht hT => ?_⟩
  have hfirst := hmatched.rel hs hS
  have hsecond := hmatched.rel ht hT
  exact ⟨hfirst.interCount_eq hsecond, (hfirst.eq_iff hsecond).trans BoundedSet.ext_iff⟩

/-- Calls at the ends of words: the first set fills one word, the second has six bits of another,
and the third has no word at all. -/
def atWordEnds : List SetCall :=
  [full 64, empty 70, full 0, erase 0 63, insert 1 69, insert 1 0, insert 1 69, insert 1 70,
    union 1 0, insert 2 0, fill 2]

theorem run_refines_atWordEnds :
    (BoundedSet.kind.run atWordEnds).1 =
      [.ok none, .ok none, .ok none, .ok (some true), .ok (some true), .ok (some true),
        .ok (some false), .error .outOfRange, .error .outOfRange, .error .outOfRange, .ok none] ∧
    ∃ S T, (BoundedSet.kind.run atWordEnds).2[0]? = some S ∧
      (BoundedSet.kind.run atWordEnds).2[1]? = some T ∧
      S.members.card = 63 ∧ T.members.sort = [0, 69] ∧ (S.members ∩ T.members).card = 1 := by
  obtain ⟨hanswers, hsets, hpairs⟩ := run_refines atWordEnds
  have hs : (BitSet.kind.run atWordEnds).2[0]? = some ⟨64, [0x7fffffffffffffff]⟩ := by
    decide +kernel
  have ht : (BitSet.kind.run atWordEnds).2[1]? = some ⟨70, [1, 32]⟩ := by decide +kernel
  have hfirst := hsets 0
  have hsecond := hsets 1
  rw [hs] at hfirst
  rw [ht] at hsecond
  generalize hS : (BoundedSet.kind.run atWordEnds).2[0]? = x at hfirst
  generalize hT : (BoundedSet.kind.run atWordEnds).2[1]? = y at hsecond
  cases hfirst with
  | some hfirst =>
    cases hsecond with
    | some hsecond =>
      refine ⟨?_, _, _, rfl, rfl, ?_, ?_, ?_⟩
      · rw [← hanswers]
        decide +kernel
      · rw [← hfirst.count_eq]
        decide +kernel
      · rw [← hsecond.toList_eq]
        decide +kernel
      · rw [← (hpairs 0 1 _ _ _ _ hs hS ht hT).1]
        decide +kernel

end SetCall

end SsaBackend
