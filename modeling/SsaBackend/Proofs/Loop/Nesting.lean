import SsaBackend.Proofs.Loop.Bodies

/-!
# How loops nest

Two loops that share a block are one inside the other: their headers both dominate the block, so
one of them is met first on the way back from it, and until then the way back does not leave the
other loop (`Whole.header_mem_or`). A loop that has the header of another has all its blocks
(`Whole.inside_of_header_mem`). So the loops around a block are a chain, with no two of one size.

On a chain the smallest loop around another is its parent (`Family.exists_parent`), following
parents counts the loops around (`Family.countAround`), and the deepest loop of a block is the
smallest (`Family.smallest_of_deepest`). `loopForest_exact` puts this together with what the
bodies are.
-/

namespace SsaBackend

open Func

namespace Loop

/-- All blocks of `l` are in `m`, and `m` has others. -/
def Inside (l m : Loop) : Prop := l.body ⊆ m.body ∧ ¬ m.body ⊆ l.body

instance (l m : Loop) : Decidable (l.Inside m) :=
  inferInstanceAs (Decidable (l.body ⊆ m.body ∧ ¬ m.body ⊆ l.body))

/-- The loop of the list that is smaller than all others with the property, if any has it. -/
def SmallestWhere (loops : List Loop) (P : Loop → Prop) : Option Loop → Prop
  | none => ∀ m ∈ loops, ¬ P m
  | some l => l ∈ loops ∧ P l ∧ ∀ m ∈ loops, P m → m ≠ l → l.size < m.size

lemma Inside.trans {k l m : Loop} (hkl : k.Inside l) (hlm : l.Inside m) : k.Inside m :=
  ⟨List.Subset.trans hkl.1 hlm.1, fun h => hkl.2 (List.Subset.trans hlm.1 h)⟩

lemma not_inside_self (l : Loop) : ¬ l.Inside l := fun h => h.2 h.1

/-! ## Two loops -/

section Two

variable {f : Func} {l m : Loop}

/-- What is inside has fewer blocks. -/
lemma Inside.size_lt (h : l.Inside m) (hl : l.Exact f) : l.size < m.size := by
  have hsub : l.body.Subperm m.body := hl.nodup.subperm h.1
  refine Nat.lt_of_le_of_ne hsub.length_le fun he => h.2 ?_
  exact (hsub.perm_of_length_le (Nat.le_of_eq he.symm)).symm.subset

/-- Going back from a block of a loop, one leaves it through its header only. -/
lemma Whole.mem_of_visit (hl : l.Whole f) {b x : BlockId} (hb : b ∈ l.body) {u r : List Nat}
    (hr : Route f.cfg.Edge f.cfg.entry (u ++ x.index :: r))
    (hhead : (u ++ x.index :: r).head? = some b.index) (hu : l.header.index ∉ u) :
    x ∈ l.body := by
  cases u with
  | nil =>
    rw [show x = b from BlockId.index_inj.1 (Option.some.inj hhead)]
    exact hb
  | cons c u =>
    cases hhead
    refine hr.hand_back (S := fun i => (⟨i⟩ : BlockId) ∈ l.body)
      (fun a c hc hne hedge hreach => ?_) hu hb
    exact hl.closed hc (fun he => hne (congrArg BlockId.index he)) (edge_iff.1 hedge) hreach

/-- Loops that share a block: the header that is met first on the way back from it is in the
other loop. -/
lemma Whole.header_mem_or (hl : l.Whole f) (hm : m.Whole f) {b : BlockId} (hbl : b ∈ l.body)
    (hbm : b ∈ m.body) : l.header ∈ m.body ∨ m.header ∈ l.body := by
  obtain ⟨u, r, ⟨hr, hhead, -, hu, -⟩ | ⟨hr, hhead, hu, -, -⟩⟩ :=
    Dominates.exists_nearer (hl.above hbl) (hm.above hbm) (hl.reached hbl)
  · exact .inl (hm.mem_of_visit hbm hr hhead hu)
  · exact .inr (hl.mem_of_visit hbl hr hhead hu)

/-- What lies between the header and a block of the loop is in the loop. -/
lemma Whole.mem_of_between (hl : l.Whole f) {b d : BlockId} (hb : b ∈ l.body)
    (hd : f.Dom d b) (hh : f.Dom l.header d) : d ∈ l.body := by
  obtain ⟨u, r, ⟨-, -, -, -, hdh⟩ | ⟨hr, hhead, hu, -, -⟩⟩ :=
    Dominates.exists_nearer (hl.above hb) hd (hl.reached hb)
  · have he := Dominates.antisymm hh hdh (hl.reached hl.header_mem)
    rw [← BlockId.index_inj.1 he]
    exact hl.header_mem
  · exact hl.mem_of_visit hb hr hhead hu

/-- A loop that has the header of another is around it. -/
lemma Whole.inside_of_header_mem (hl : l.Whole f) (hm : m.Whole f) (hne : l.header ≠ m.header)
    (h : l.header ∈ m.body) : l.Inside m := by
  have hout : m.header ∉ l.body := by
    intro hmem
    exact hne (BlockId.index_inj.1
      (Dominates.antisymm (hl.above hmem) (hm.above h) (hm.reached h)))
  refine ⟨fun c hc => ?_, fun hsub => hout (hsub hm.header_mem)⟩
  rcases (hl.body c).1 hc with rfl | ⟨hreach, n, hn, -, hpath⟩
  · exact h
  · -- a path to a latch stays in the inner loop, so it does not come by the outer header
    have hback := hl.toExact.latches n hn
    have hnm : n ∈ m.body := hm.closed h hne hback.1 hback.2.1
    induction hpath using Relation.ReflTransGen.head_induction_on with
    | refl => exact hnm
    | @head a c hstep hrest ih =>
      have hcreach : f.Reached c := hreach.step (edge_iff.2 hstep.1)
      have hcl : c ∈ l.body := (hl.body c).2 (.inr ⟨hcreach, n, hn, hstep.2, hrest⟩)
      have hcm : c ≠ m.header := fun he => hout (he ▸ hcl)
      exact hm.closed (ih hcl hcreach) hcm hstep.1 hreach

/-- A header has one loop. -/
lemma Whole.mem_iff (hl : l.Whole f) (hm : m.Whole f) (he : l.header = m.header) (b : BlockId) :
    b ∈ l.body ↔ b ∈ m.body := by
  have hlatches : ∀ n, n ∈ l.latches ↔ n ∈ m.latches := by
    intro n
    rw [hl.latches_iff, hm.latches_iff, he]
  rw [hl.body, hm.body, he]
  unfold InLoop
  simp only [hlatches]

/-- Being inside can be told from the header. -/
lemma Whole.inside_iff (hl : l.Whole f) (hm : m.Whole f) :
    l.Inside m ↔ m.header ≠ l.header ∧ l.header ∈ m.body := by
  constructor
  · intro h
    refine ⟨fun he => h.2 fun b hb => (hl.mem_iff hm he.symm b).2 hb, h.1 hl.header_mem⟩
  · rintro ⟨hne, h⟩
    exact hl.inside_of_header_mem hm (Ne.symm hne) h

end Two

/-! ## All loops -/

/-- The loops of a function, in the order of their headers. -/
structure Family (f : Func) (loops : List Loop) : Prop where
  apart : loops.Pairwise fun l m => l.header.index < m.header.index
  whole : ∀ l ∈ loops, l.Whole f

namespace Family

variable {f : Func} {loops : List Loop} {l m : Loop}

lemma nodup (h : Family f loops) : loops.Nodup := by
  refine h.apart.imp ?_
  rintro a b hlt rfl
  exact absurd hlt (Nat.lt_irrefl _)

/-- Loops are known by their headers. -/
lemma eq_of_header (h : Family f loops) (hl : l ∈ loops) (hm : m ∈ loops)
    (he : l.header = m.header) : l = m := by
  have hnd : (loops.map (·.header.index)).Nodup := by
    refine List.pairwise_map.2 (h.apart.imp ?_)
    exact fun hlt => Nat.ne_of_lt hlt
  exact List.inj_on_of_nodup_map hnd hl hm (congrArg BlockId.index he)

/-- Loops that share a block are one, or one is inside the other. -/
lemma nested (h : Family f loops) (hl : l ∈ loops) (hm : m ∈ loops) {b : BlockId}
    (hbl : b ∈ l.body) (hbm : b ∈ m.body) : l = m ∨ l.Inside m ∨ m.Inside l := by
  by_cases he : l.header = m.header
  · exact .inl (h.eq_of_header hl hm he)
  · rcases (h.whole l hl).header_mem_or (h.whole m hm) hbl hbm with hmem | hmem
    · exact .inr (.inl ((h.whole l hl).inside_of_header_mem (h.whole m hm) he hmem))
    · exact .inr (.inr ((h.whole m hm).inside_of_header_mem (h.whole l hl) (Ne.symm he) hmem))

/-- Of two loops that share a block, the one with fewer blocks is inside the other. -/
lemma inside_of_size_lt (h : Family f loops) (hl : l ∈ loops) (hm : m ∈ loops) {b : BlockId}
    (hbl : b ∈ l.body) (hbm : b ∈ m.body) (hlt : l.size < m.size) : l.Inside m := by
  rcases h.nested hl hm hbl hbm with rfl | hin | hin
  · exact absurd hlt (Nat.lt_irrefl _)
  · exact hin
  · exact absurd (hin.size_lt (h.whole m hm).toExact) (Nat.lt_asymm hlt)

/-- Changes that leave headers, bodies, latches and preheaders alone keep the family. -/
lemma map (h : Family f loops) {g : Loop → Loop}
    (hg : ∀ l, (g l).header = l.header ∧ (g l).body = l.body ∧ (g l).latches = l.latches ∧
      (g l).preheader = l.preheader) : Family f (loops.map g) := by
  constructor
  · refine List.pairwise_map.2 (h.apart.imp fun {a b} hlt => ?_)
    rw [(hg a).1, (hg b).1]
    exact hlt
  · intro l' hl'
    obtain ⟨l, hl, rfl⟩ := List.mem_map.1 hl'
    obtain ⟨hheader, hbody, hlatches, hpre⟩ := hg l
    have hw := h.whole l hl
    refine ⟨⟨?_, ?_, ?_⟩, ?_, ?_, ?_, ?_⟩
    · rw [hheader, hlatches]
      exact hw.toExact.latches
    · rw [hbody]
      exact hw.ascending
    · rw [hheader, hbody, hlatches]
      exact hw.body
    · rw [hheader, hlatches]
      exact hw.latches_iff
    · rw [hlatches]
      exact hw.latchesOnce
    · rw [hlatches]
      exact hw.latched
    · rw [hpre, hw.preheader]
      unfold findPreheader outsidePreds contains
      rw [hheader, hbody]

/-! ### Parents -/

/-- Whichever loops come, a smallest one is in hand at the end. -/
lemma foldl_smaller (l : Loop) (rest : List Loop) :
    ∃ m ∈ l :: rest, rest.foldl smaller (some l) = some m ∧ ∀ k ∈ l :: rest, m.size ≤ k.size := by
  induction rest generalizing l with
  | nil => exact ⟨l, List.mem_singleton_self l, rfl, by simp⟩
  | cons x rest ih =>
    rw [List.foldl_cons]
    unfold smaller
    simp only
    split
    · rename_i hlt
      obtain ⟨m, hm, he, hmin⟩ := ih x
      refine ⟨m, List.mem_cons_of_mem _ hm, he, fun k hk => ?_⟩
      rcases List.mem_cons.1 hk with rfl | hk
      · exact Nat.le_trans (hmin x List.mem_cons_self) (Nat.le_of_lt hlt)
      · exact hmin k hk
    · rename_i hge
      obtain ⟨m, hm, he, hmin⟩ := ih l
      refine ⟨m, ?_, he, fun k hk => ?_⟩
      · rcases List.mem_cons.1 hm with rfl | hm
        · exact List.mem_cons_self
        · exact List.mem_cons_of_mem _ (List.mem_cons_of_mem _ hm)
      · rcases List.mem_cons.1 hk with rfl | hk
        · exact hmin k List.mem_cons_self
        · rcases List.mem_cons.1 hk with rfl | hk
          · exact Nat.le_trans (hmin l List.mem_cons_self) (Nat.le_of_not_lt hge)
          · exact hmin k (List.mem_cons_of_mem _ hk)

/-- The parent is the smallest loop around. -/
lemma exists_parent (h : Family f loops) (hl : l ∈ loops) :
    ∃ m, SmallestWhere loops l.Inside m ∧ findParent loops l = m.map (·.header) := by
  -- the loops that are looked at are those around `l`
  have haround : ∀ m, m ∈ loops.filter (fun m => m.header ≠ l.header && m.contains l.header) ↔
      m ∈ loops ∧ l.Inside m := by
    intro m
    rw [List.mem_filter]
    refine and_congr_right fun hm => ?_
    rw [(h.whole l hl).inside_iff (h.whole m hm), Bool.and_eq_true, decide_eq_true_eq]
    unfold contains
    rw [List.contains_iff_mem]
  unfold findParent
  generalize loops.filter (fun m => m.header ≠ l.header && m.contains l.header) = around at haround
  cases around with
  | nil =>
    refine ⟨none, fun m hm hin => ?_, rfl⟩
    exact absurd ((haround m).2 ⟨hm, hin⟩) List.not_mem_nil
  | cons x rest =>
    obtain ⟨m, hm, he, hmin⟩ := foldl_smaller x rest
    obtain ⟨hm, hlm⟩ := (haround m).1 hm
    refine ⟨some m, ⟨hm, hlm, fun k hk hlk hne => ?_⟩, congrArg (Option.map (·.header)) he⟩
    have hle := hmin k ((haround k).2 ⟨hk, hlk⟩)
    have hmem := (h.whole l hl).header_mem
    rcases h.nested hm hk (hlm.1 hmem) (hlk.1 hmem) with rfl | hin | hin
    · exact absurd rfl hne
    · exact hin.size_lt (h.whole m hm).toExact
    · exact absurd (hin.size_lt (h.whole k hk).toExact) (Nat.not_lt_of_le hle)

/-! ### Depths -/

/-- Counting one element apart. -/
lemma countP_eq_succ {P Q : Loop → Bool} (hnd : loops.Nodup) (hm : m ∈ loops)
    (hPm : P m = true) (hQm : Q m = false) (hPQ : ∀ k ∈ loops, k ≠ m → P k = Q k) :
    loops.countP P = loops.countP Q + 1 := by
  induction loops with
  | nil => cases hm
  | cons x rest ih =>
    obtain ⟨hx, hrest⟩ := List.nodup_cons.1 hnd
    rcases List.mem_cons.1 hm with rfl | hm
    · have hsame : rest.countP P = rest.countP Q := by
        refine List.countP_congr fun k hk => ?_
        rw [hPQ k (List.mem_cons_of_mem _ hk) fun he => hx (he ▸ hk)]
      rw [List.countP_cons, List.countP_cons, hPm, hQm, hsame]
      rfl
    · have hxm : x ≠ m := fun he => hx (he ▸ hm)
      rw [List.countP_cons, List.countP_cons, hPQ x List.mem_cons_self hxm,
        ih hrest hm fun k hk => hPQ k (List.mem_cons_of_mem _ hk)]
      omega

/-- The number of loops around. -/
def around (loops : List Loop) (l : Loop) : Nat := loops.countP fun m => l.Inside m

/-- The loops with some block are the smallest of them and those around that. -/
lemma countP_of_smallest (h : Family f loops) {P : Loop → Prop} [DecidablePred P] {b : BlockId}
    (hb : ∀ k, P k → b ∈ k.body) (hup : ∀ k, m.Inside k → P k)
    (hm : SmallestWhere loops P (some m)) :
    loops.countP (fun k => P k) = around loops m + 1 := by
  refine countP_eq_succ h.nodup hm.1 (decide_eq_true hm.2.1)
    (decide_eq_false (not_inside_self m)) fun k hk hne => ?_
  rw [decide_eq_decide]
  refine ⟨fun hPk => ?_, hup k⟩
  exact h.inside_of_size_lt hm.1 hk (hb m hm.2.1) (hb k hPk) (hm.2.2 k hk hPk hne)

/-- A loop has more loops around it than one it is inside of. -/
lemma around_lt (h : Family f loops) {k : Loop} (hl : l ∈ loops) (hin : k.Inside l) :
    around loops l < around loops k := by
  have hself : loops.countP (fun m => decide (l.Inside m ∨ m = l)) = around loops l + 1 := by
    refine countP_eq_succ h.nodup hl (decide_eq_true (.inr rfl))
      (decide_eq_false (not_inside_self l)) fun m _ hne => ?_
    rw [decide_eq_decide]
    exact ⟨fun hm => hm.resolve_right hne, .inl⟩
  have hle : loops.countP (fun m => decide (l.Inside m ∨ m = l)) ≤ around loops k := by
    refine List.countP_mono_left fun m _ hm => decide_eq_true ?_
    rcases of_decide_eq_true hm with hm | rfl
    · exact hin.trans hm
    · exact hin
  omega

/-- Every loop knows the smallest loop around it. -/
def Parented (loops : List Loop) : Prop :=
  ∀ l ∈ loops, ∃ m, SmallestWhere loops l.Inside m ∧ l.parent = m.map (·.header)

/-- A loop is found by its header. -/
lemma find_header (h : Family f loops) (hm : m ∈ loops) :
    loops.find? (·.header = m.header) = some m := by
  cases hf : loops.find? (·.header = m.header) with
  | none =>
    have := List.find?_eq_none.1 hf m hm
    simp at this
  | some k =>
    have hk : k.header = m.header := by simpa using List.find?_some hf
    rw [h.eq_of_header (List.mem_of_find?_eq_some hf) hm hk]

/-- Around a loop are its parent and the loops around that. -/
lemma around_parent (h : Family f loops) (hl : l ∈ loops)
    (hm : SmallestWhere loops l.Inside (some m)) : around loops l = around loops m + 1 :=
  h.countP_of_smallest (fun _ hk => hk.1 (h.whole l hl).header_mem) (fun _ => hm.2.1.trans) hm

/-- Following parents, one counts the loops around, if the bound allows it. -/
lemma countAround (h : Family f loops) (hparent : Parented loops) (bound : Nat) (hl : l ∈ loops)
    (hbound : around loops l ≤ bound) : Loop.countAround loops bound l = around loops l := by
  induction bound generalizing l with
  | zero =>
    rw [Loop.countAround]
    omega
  | succ bound ih =>
    obtain ⟨m, hm, he⟩ := hparent l hl
    rw [Loop.countAround, he]
    cases m with
    | none =>
      have hnone : around loops l = 0 := by
        refine List.countP_eq_zero.2 fun m hmem => ?_
        simpa using hm m hmem
      rw [hnone]
      rfl
    | some m =>
      have hcount := h.around_parent hl hm
      simp only [Option.map_some, Option.bind_some, h.find_header hm.1]
      rw [ih hm.1 (by omega), hcount]

/-! ### Nesting -/

lemma smallestWhere_map {g : Loop → Loop} {P Q : Loop → Prop} (hsize : ∀ l, (g l).size = l.size)
    (hPQ : ∀ l, Q (g l) ↔ P l) {m : Option Loop} (hm : SmallestWhere loops P m) :
    SmallestWhere (loops.map g) Q (m.map g) := by
  cases m with
  | none =>
    intro k hk
    obtain ⟨l, hl, rfl⟩ := List.mem_map.1 hk
    rw [hPQ]
    exact hm l hl
  | some m =>
    refine ⟨List.mem_map_of_mem hm.1, (hPQ m).2 hm.2.1, fun k hk hQ hne => ?_⟩
    obtain ⟨l, hl, rfl⟩ := List.mem_map.1 hk
    rw [hsize, hsize]
    exact hm.2.2 l hl ((hPQ l).1 hQ) fun he => hne (congrArg g he)

lemma parented_map {g : Loop → Loop}
    (hg : ∀ l, (g l).header = l.header ∧ (g l).body = l.body)
    (hparent : ∀ l ∈ loops, ∃ m, SmallestWhere loops l.Inside m ∧ (g l).parent = m.map (·.header)) :
    Parented (loops.map g) := by
  intro k hk
  obtain ⟨l, hl, rfl⟩ := List.mem_map.1 hk
  obtain ⟨m, hm, he⟩ := hparent l hl
  refine ⟨m.map g, smallestWhere_map (fun l => ?_) (fun k => ?_) hm, ?_⟩
  · unfold size
    rw [(hg l).2]
  · unfold Inside
    rw [(hg l).2, (hg k).2]
  · rw [he, Option.map_map]
    cases m with
    | none => rfl
    | some m => exact congrArg some (hg m).1.symm

lemma around_map {g : Loop → Loop} (hg : ∀ l, (g l).body = l.body) (l : Loop) :
    around (loops.map g) (g l) = around loops l := by
  unfold around
  rw [List.countP_map]
  refine List.countP_congr fun m _ => ?_
  simp only [Function.comp_apply, decide_eq_true_eq]
  unfold Inside
  rw [hg, hg]

/-- Nesting gives every loop its parent and its depth. -/
lemma nest (h : Family f loops) :
    Family f (Loop.nest loops) ∧ Parented (Loop.nest loops) ∧
      ∀ l ∈ Loop.nest loops, l.depth = around (Loop.nest loops) l := by
  unfold Loop.nest
  have hwith := h.map (g := fun l => { l with parent := findParent loops l })
    fun l => ⟨rfl, rfl, rfl, rfl⟩
  have hparented := parented_map (g := fun l => { l with parent := findParent loops l })
    (fun l => ⟨rfl, rfl⟩) fun l hl => h.exists_parent hl
  generalize loops.map (fun l => { l with parent := findParent loops l }) = withParents
    at hwith hparented
  refine ⟨hwith.map fun l => ⟨rfl, rfl, rfl, rfl⟩, ?_, ?_⟩
  · exact parented_map (fun l => ⟨rfl, rfl⟩) fun l hl => hparented l hl
  · intro k hk
    obtain ⟨l, hl, rfl⟩ := List.mem_map.1 hk
    refine (hwith.countAround hparented _ hl List.countP_le_length).trans ?_
    exact (around_map (g := fun l => { l with
      children := (withParents.filter (·.parent = some l.header)).map (·.header)
      depth := Loop.countAround withParents withParents.length l }) (fun _ => rfl) l).symm

/-- The deepest loop with a block is the smallest. -/
lemma smallest_of_deepest (h : Family f loops) (hdepth : ∀ l ∈ loops, l.depth = around loops l)
    (hl : l ∈ loops) {b : BlockId} (hb : b ∈ l.body)
    (hdeep : ∀ k ∈ loops, b ∈ k.body → k.depth ≤ l.depth) :
    SmallestWhere loops (b ∈ ·.body) (some l) := by
  refine ⟨hl, hb, fun k hk hbk hne => ?_⟩
  rcases h.nested hl hk hb hbk with rfl | hin | hin
  · exact absurd rfl hne
  · exact hin.size_lt (h.whole l hl).toExact
  · have hlt := h.around_lt hl hin
    have hle := hdeep k hk hbk
    rw [hdepth l hl, hdepth k hk] at hle
    omega

end Family

end Loop

/-! ## The innermost loop of a block -/

namespace LoopForest

/-- The place of a loop that has the block and is as deep as any that has it. -/
def Deepest (loops : List Loop) (b : BlockId) : Option Nat → Prop
  | none => ∀ k ∈ loops, b ∉ k.body
  | some i => ∃ l, loops[i]? = some l ∧ b ∈ l.body ∧ ∀ k ∈ loops, b ∈ k.body → k.depth ≤ l.depth

/-- A change at the places of a list of blocks is seen at those places. -/
lemma getElem?_foldl_modify {α : Type} (g : α → α) {body : List BlockId} (hnd : body.Nodup)
    (a : Array α) (b : BlockId) :
    (body.foldl (fun m c => m.modify c.index g) a)[b.index]? =
      if b ∈ body then a[b.index]?.map g else a[b.index]? := by
  induction body generalizing a with
  | nil => rfl
  | cons c rest ih =>
    obtain ⟨hc, hrest⟩ := List.nodup_cons.1 hnd
    rw [List.foldl_cons, ih hrest, Array.getElem?_modify]
    by_cases hbc : b = c
    · subst hbc
      simp [hc]
    · have hne : ¬ c.index = b.index := fun he => hbc (BlockId.index_inj.1 he).symm
      simp [hbc, hne]

/-- The places that are kept are those of the deepest loops. -/
def Places (lf : LoopForest) : Prop :=
  ∀ b : BlockId, ∀ place, lf.innermost[b.index]? = some place → Deepest lf.loops b place

lemma deepest_old {loops : List Loop} {l : Loop} {b : BlockId} {place : Option Nat}
    (h : Deepest loops b place) (hb : b ∈ l.body → atLeastAsDeep loops l.depth place = true) :
    Deepest (loops ++ [l]) b place := by
  cases place with
  | none =>
    intro k hk
    rcases List.mem_append.1 hk with hk | hk
    · exact h k hk
    · obtain rfl := List.mem_singleton.1 hk
      exact fun hbk => absurd (hb hbk) (by simp [atLeastAsDeep])
  | some i =>
    obtain ⟨m, hm, hbm, hdeep⟩ := h
    refine ⟨m, ?_, hbm, fun k hk hbk => ?_⟩
    · rw [List.getElem?_append_left (List.getElem?_eq_some_iff.1 hm).1]
      exact hm
    · rcases List.mem_append.1 hk with hk | hk
      · exact hdeep k hk hbk
      · obtain rfl := List.mem_singleton.1 hk
        simpa [atLeastAsDeep, hm] using hb hbk

lemma deepest_new {loops : List Loop} {l : Loop} {b : BlockId} {place : Option Nat}
    (h : Deepest loops b place) (hb : b ∈ l.body)
    (hdeeper : atLeastAsDeep loops l.depth place = false) :
    Deepest (loops ++ [l]) b (some loops.length) := by
  refine ⟨l, List.getElem?_concat_length, hb, fun k hk hbk => ?_⟩
  rcases List.mem_append.1 hk with hk | hk
  · cases place with
    | none => exact absurd hbk (h k hk)
    | some i =>
      obtain ⟨m, hm, -, hdeep⟩ := h
      have hlt : m.depth < l.depth := by simpa [atLeastAsDeep, hm] using hdeeper
      exact Nat.le_trans (hdeep k hk hbk) (Nat.le_of_lt hlt)
  · obtain rfl := List.mem_singleton.1 hk
    exact Nat.le_refl _

/-- One loop more. -/
lemma Places.addLoop {lf : LoopForest} (h : lf.Places) {l : Loop} (hnd : l.body.Nodup) :
    (lf.addLoop l).Places := by
  intro b place hplace
  unfold LoopForest.addLoop at hplace ⊢
  simp only [getElem?_foldl_modify _ hnd] at hplace
  split at hplace
  · rename_i hb
    obtain ⟨old, hold, rfl⟩ := Option.map_eq_some_iff.1 hplace
    split
    · exact deepest_old (h b old hold) fun _ => by assumption
    · rename_i hdeeper
      exact deepest_new (h b old hold) hb (Bool.eq_false_iff.2 hdeeper)
  · rename_i hb
    exact deepest_old (h b place hplace) fun hmem => absurd hmem hb

lemma places_foldl {lf : LoopForest} (h : lf.Places) {loops : List Loop}
    (hnd : ∀ l ∈ loops, l.body.Nodup) : (loops.foldl LoopForest.addLoop lf).Places := by
  induction loops generalizing lf with
  | nil => exact h
  | cons l rest ih =>
    rw [List.foldl_cons]
    exact ih (h.addLoop (hnd l List.mem_cons_self)) fun m hm => hnd m (List.mem_cons_of_mem _ hm)

lemma places_empty (blocks : Nat) : (LoopForest.empty blocks).Places := by
  intro b place hplace
  have hnone : place = none := by
    unfold LoopForest.empty at hplace
    simp only [Array.getElem?_replicate] at hplace
    split at hplace
    · exact (Option.some.inj hplace).symm
    · cases hplace
  subst hnone
  intro k hk
  cases hk

lemma size_addLoop (lf : LoopForest) (l : Loop) :
    (lf.addLoop l).innermost.size = lf.innermost.size := by
  unfold LoopForest.addLoop
  simp only
  generalize l.body = body
  generalize lf.innermost = a
  induction body generalizing a with
  | nil => rfl
  | cons c rest ih => rw [List.foldl_cons, ih, Array.size_modify]

lemma size_foldl_addLoop (lf : LoopForest) (loops : List Loop) :
    (loops.foldl LoopForest.addLoop lf).innermost.size = lf.innermost.size := by
  induction loops generalizing lf with
  | nil => rfl
  | cons l rest ih => rw [List.foldl_cons, ih, size_addLoop]

end LoopForest

/-! ## The loops of a function -/

/-- The loops are the natural loops of the function, and their nesting is what their bodies say. -/
structure LoopForest.ExactFor (f : Func) (lf : LoopForest) : Prop where
  /-- No header has two loops. -/
  headersOnce : (lf.loops.map (·.header)).Nodup
  headers : ∀ h, (∃ l ∈ lf.loops, l.header = h) ↔ ∃ n, f.BackEdge n h
  latches : ∀ l ∈ lf.loops, l.latches.Nodup ∧ ∀ n, n ∈ l.latches ↔ f.BackEdge n l.header
  bodies : ∀ l ∈ lf.loops, l.body.Nodup ∧ ∀ b, b ∈ l.body ↔
    b = l.header ∨ f.Reached b ∧ ∃ n ∈ l.latches, f.ReachesAround l.header b n
  nested : ∀ l ∈ lf.loops, ∀ m ∈ lf.loops, l ≠ m →
    (∀ b, ¬ (b ∈ l.body ∧ b ∈ m.body)) ∨ l.Inside m ∨ m.Inside l
  parents : ∀ l ∈ lf.loops, ∃ m, Loop.SmallestWhere lf.loops l.Inside m ∧
    l.parent = m.map (·.header)
  depths : ∀ l ∈ lf.loops, l.depth = lf.loops.countP fun m => l.Inside m
  depthOf : ∀ b, lf.depthOf b = lf.loops.countP (·.contains b)
  innermost : ∀ b, Loop.SmallestWhere lf.loops (b ∈ ·.body) (lf.innermostLoop? b)

namespace Func

variable {f : Func}

lemma loops_loopForest (f : Func) (dom : DomTree) :
    (f.loopForest dom).loops = Loop.nest (f.naturalLoops dom) := by
  unfold loopForest
  rw [loops_foldl_addLoop]
  rfl

/-- The loops of the forest are a family, nested, with depths. -/
lemma family_loopForest (hf : f.EdgesAgree) :
    Loop.Family f (f.loopForest f.cfg.domTree).loops ∧
      Loop.Family.Parented (f.loopForest f.cfg.domTree).loops ∧
      ∀ l ∈ (f.loopForest f.cfg.domTree).loops,
        l.depth = Loop.Family.around (f.loopForest f.cfg.domTree).loops l := by
  rw [loops_loopForest]
  obtain ⟨hapart, hwhole, -⟩ := whole_naturalLoops hf
  exact Loop.Family.nest ⟨hapart, hwhole⟩

/-- Every block knows its smallest loop. -/
lemma innermost_loopForest (hf : f.EdgesAgree) (b : BlockId) :
    Loop.SmallestWhere (f.loopForest f.cfg.domTree).loops (b ∈ ·.body)
      ((f.loopForest f.cfg.domTree).innermostLoop? b) := by
  have hfam := (family_loopForest hf).1
  have hdepth := (family_loopForest hf).2.2
  have hplaces : (f.loopForest f.cfg.domTree).Places := by
    unfold loopForest
    refine LoopForest.places_foldl (LoopForest.places_empty _) fun l hl => ?_
    rw [← loops_loopForest] at hl
    exact (hfam.whole l hl).nodup
  have hsize : (f.loopForest f.cfg.domTree).innermost.size = f.blockCapacity := by
    unfold loopForest
    rw [LoopForest.size_foldl_addLoop]
    exact Array.size_replicate
  unfold LoopForest.innermostLoop?
  cases hplace : (f.loopForest f.cfg.domTree).innermost[b.index]? with
  | none =>
    -- a place past the table is no block, and the blocks of a loop are there
    intro l hl hb
    have hlt : b.index < f.blockCapacity :=
      hf.consistent.reached_lt ((hfam.whole l hl).reached hb)
    rw [← hsize] at hlt
    rw [Array.getElem?_eq_getElem hlt] at hplace
    cases hplace
  | some place =>
    have hdeep := hplaces b place hplace
    cases place with
    | none => exact hdeep
    | some i =>
      obtain ⟨l, hl, hb, hmax⟩ := hdeep
      simp only [Option.join_some, Option.bind_some, hl]
      exact hfam.smallest_of_deepest hdepth (List.mem_of_getElem? hl) hb hmax

lemma depthOf_loopForest (hf : f.EdgesAgree) (b : BlockId) :
    (f.loopForest f.cfg.domTree).depthOf b =
      (f.loopForest f.cfg.domTree).loops.countP (·.contains b) := by
  obtain ⟨hfam, -, hdepth⟩ := family_loopForest hf
  have hsmall := innermost_loopForest hf b
  have hcontains : (f.loopForest f.cfg.domTree).loops.countP (·.contains b) =
      (f.loopForest f.cfg.domTree).loops.countP (fun k => decide (b ∈ k.body)) := by
    refine List.countP_congr fun k _ => ?_
    unfold Loop.contains
    rw [List.contains_iff_mem, decide_eq_true_eq]
  rw [hcontains]
  unfold LoopForest.depthOf
  cases hin : (f.loopForest f.cfg.domTree).innermostLoop? b with
  | none =>
    rw [hin] at hsmall
    refine (List.countP_eq_zero.2 fun k hk => ?_).symm
    simpa using hsmall k hk
  | some l =>
    rw [hin] at hsmall
    rw [hfam.countP_of_smallest (fun _ hk => hk) (fun k hk => hk.1 hsmall.2.1) hsmall,
      ← hdepth l hsmall.1]
    rfl

/-- The loops that are found are the natural loops, and they nest as their bodies do. The search for
the blocks behind a latch comes to rest. -/
theorem loopForest_exact (hv : f.verify = .ok ()) :
    ∃ dom, f.dominators = .ok dom ∧
      (∀ (l : Loop) (latch : BlockId), ∃ s, Rests (Loop.Gathering.step f dom)
        ⟨{ l with latches := l.latches ++ [latch] }, [latch]⟩ s ∧
        l.addLatch f dom latch = s.found) ∧
      (f.loopForest dom).ExactFor f := by
  have hf := (verified_of_verify hv).edgesAgree
  obtain ⟨hfam, hparented, hdepth⟩ := family_loopForest hf
  refine ⟨f.cfg.domTree, hf.consistent.dominators_eq,
    fun l latch => ⟨_, rests_repeatUpTo (Loop.Gathering.step_end ..), rfl⟩, ?_, ?_, ?_, ?_, ?_,
    hparented, hdepth, depthOf_loopForest hf, innermost_loopForest hf⟩
  · refine List.pairwise_map.2 (hfam.apart.imp ?_)
    intro l m hlt he
    exact absurd (congrArg BlockId.index he) (Nat.ne_of_lt hlt)
  · intro h
    constructor
    · rintro ⟨l, hl, rfl⟩
      obtain ⟨n, hn⟩ := List.exists_mem_of_ne_nil _ (hfam.whole l hl).latched
      exact ⟨n, (hfam.whole l hl).toExact.latches n hn⟩
    · rintro ⟨n, hback⟩
      obtain ⟨l, hl, rfl⟩ := (whole_naturalLoops hf).2.2 n h hback
      obtain ⟨l', hl', he⟩ := exists_mem_nest hl
      rw [loops_loopForest]
      exact ⟨l', hl', he⟩
  · exact fun l hl => ⟨(hfam.whole l hl).latchesOnce, (hfam.whole l hl).latches_iff⟩
  · exact fun l hl => ⟨(hfam.whole l hl).nodup, (hfam.whole l hl).body⟩
  · intro l hl m hm hne
    by_cases hshare : ∃ b, b ∈ l.body ∧ b ∈ m.body
    · obtain ⟨b, hbl, hbm⟩ := hshare
      exact .inr ((hfam.nested hl hm hbl hbm).resolve_left hne)
    · exact .inl fun b hb => hshare ⟨b, hb⟩

/-- A loop with two latches inside another loop. The last block leads into both and is reached
from nowhere. -/
def spiral : Func where
  name := "spiral"
  numArgs := 2
  blocks := #[
    some { terminator := some (.jump ⟨1⟩) },
    some { preds := [⟨0⟩, ⟨5⟩], terminator := some (.branch (.arg 0) ⟨2⟩ ⟨6⟩) },
    some { preds := [⟨1⟩, ⟨3⟩, ⟨4⟩], terminator := some (.branch (.arg 1) ⟨3⟩ ⟨4⟩) },
    some { preds := [⟨2⟩, ⟨7⟩], terminator := some (.branch (.arg 0) ⟨2⟩ ⟨5⟩) },
    some { preds := [⟨2⟩], terminator := some (.jump ⟨2⟩) },
    some { preds := [⟨3⟩], terminator := some (.jump ⟨1⟩) },
    some { preds := [⟨1⟩], terminator := some (.ret none) },
    some { terminator := some (.jump ⟨3⟩) }]
  insts := #[]

/-- Both loops are found with what belongs to them, and the dead block is in none. -/
theorem loopForest_spiral :
    spiral.verify = .ok () ∧ ∃ dom, spiral.dominators = .ok dom ∧
      (spiral.loopForest dom).loops.map (fun l => (l.body.map (·.index), l.latches.map (·.index))) =
        [([1, 2, 3, 4, 5], [5]), ([2, 3, 4], [3, 4])] ∧
      (spiral.loopForest dom).loops.map (fun l => (l.parent, l.depth)) =
        [(none, 0), (some ⟨1⟩, 1)] ∧
      spiral.blockIds.map (spiral.loopForest dom).depthOf = [0, 1, 2, 2, 2, 1, 0, 0] ∧
      (spiral.loopForest dom).ExactFor spiral := by
  have hv : spiral.verify = .ok () := by rfl
  obtain ⟨dom, hdom, -, hexact⟩ := loopForest_exact hv
  have htree : dom = spiral.cfg.domTree := by
    have heq := (verified_of_verify hv).consistent.dominators_eq
    exact Except.ok.inj (hdom.symm.trans heq)
  subst htree
  exact ⟨hv, _, hdom, by decide +kernel, by decide +kernel, by decide +kernel, hexact⟩

end Func

end SsaBackend
