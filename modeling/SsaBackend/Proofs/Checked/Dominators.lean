import SsaBackend.Proofs.Checked.Numbering
import SsaBackend.Proofs.Graph.Dominators

/-!
# The dominator tree, with every table looked at

The algorithm of Lengauer and Tarjan indexes one table with what another one holds: the number of
the semidominator of the best node above an ancestor. A node that has no ancestor yet, or no
immediate dominator, has an empty place in the table, and an empty place is no index. The checked
algorithm refuses to go on there.

It is never refused on a graph whose edges agree (`dominators?_eq`). Nodes with a number are nodes
of the graph, and those the algorithm meets have one: the predecessors that were reached, what is
above them in the tree, and their semidominators. A node has an ancestor once it is linked, and an
immediate dominator once those that waited with it were decided.
-/

namespace SsaBackend

namespace Digraph

open SpanTables

namespace SemiForest

/-! ## The accesses -/

/-- The number of a node's semidominator. -/
def semiNumber? (c : SpanTables) (s : SemiForest) (n : Nat) : Except Error Nat := do
  load? c.number (← load? s.semi n)

/-- The nodes from `n` towards the root that are at least two steps away from it. The node must
have an ancestor. -/
def pathFrom? (s : SemiForest) : Nat → Nat → Except Error (List Nat)
  | 0, _ => .error .endless
  | bound + 1, n => do
    let a ← filled? (← load? s.ancestor n)
    if (← load? s.ancestor a).isSome then return n :: (← pathFrom? s bound a) else return []

/-- Lets a node skip its ancestor, and take over the ancestor's best node if that is better. -/
def shortcut? (c : SpanTables) (s : SemiForest) (n : Nat) : Except Error SemiForest := do
  let a ← filled? (← load? s.ancestor n)
  let ours ← load? s.best n
  let theirs ← load? s.best a
  let best ← if (← s.semiNumber? c theirs) < (← s.semiNumber? c ours) then
    store? s.best n theirs else pure s.best
  return { s with best, ancestor := ← store? s.ancestor n (← load? s.ancestor a) }

/-- The best node on the way from `n` to its root, which is shortened. A root is its own. -/
def eval? (c : SpanTables) (s : SemiForest) (n : Nat) : Except Error (Nat × SemiForest) := do
  if (← load? s.ancestor n).isSome then
    let s ← (← s.pathFrom? s.ancestor.size n).foldrM (fun m s => s.shortcut? c m) s
    return (← load? s.best n, s)
  else return (n, s)

/-- Lets an edge from `v` to `w` improve the semidominator of `w`. A place past the end of the
table is passed over like a node out of reach. -/
def improve? (c : SpanTables) (w : Nat) (s : SemiForest) (v : Nat) : Except Error SemiForest := do
  if c.number.getD v 0 = 0 then return s
  let (u, s) ← s.eval? c v
  if (← s.semiNumber? c u) < (← s.semiNumber? c w) then
    return { s with semi := ← store? s.semi w (← load? s.semi u) }
  else return s

/-- Concludes the wait of a node below `p`. -/
def conclude? (c : SpanTables) (p : Nat) (s : SemiForest) (v : Nat) : Except Error SemiForest := do
  let (u, s) ← s.eval? c v
  let d := if (← load? s.semi u) = (← load? s.semi v) then p else u
  return { s with idom := ← store? s.idom v (some d) }

/-- Deals with one node. -/
def process? (g : Digraph) (c : SpanTables) (s : SemiForest) (w : Nat) :
    Except Error SemiForest := do
  let p ← filled? (← load? c.parent w)
  let s ← (g.preds w).foldlM (improve? c w) s
  let bucket ← update? s.bucket (← load? s.semi w) (· ++ [w])
  let ancestor ← store? s.ancestor w (some p)
  let waiting ← load? bucket p
  waiting.foldlM (conclude? c p) { s with bucket := ← store? bucket p [], ancestor }

/-- Fills in the immediate dominator of a node that shares it with an earlier one. -/
def settle? (s : SemiForest) (w : Nat) : Except Error SemiForest := do
  let d ← load? s.idom w
  if d = some (← load? s.semi w) then return s
  else return { s with idom := ← store? s.idom w (← load? s.idom (← filled? d)) }

end SemiForest

/-- The nodes with the numbers from `i` on. -/
def SpanTables.nodesFrom? (c : SpanTables) (i : Nat) : Except Error (List Nat) :=
  (List.range' i (c.count - i)).mapM fun k => do filled? (← load? c.vertex k)

/-- The immediate dominators of the nodes the entry reaches, the entry's being itself. -/
def immediateDominators? (g : Digraph) (c : SpanTables) : Except Error (Array (Option Nat)) := do
  let inner ← c.nodesFrom? 1
  let found ← inner.reverse.foldlM (SemiForest.process? g c) (.init g.size)
  let settled ← inner.foldlM SemiForest.settle? found
  store? settled.idom g.entry (some g.entry)

/-- Lists a node with its immediate dominator. -/
def addKid? (entry : Nat) (idom : Array (Option Nat)) (kids : Array (List Nat)) (n : Nat) :
    Except Error (Array (List Nat)) := do
  if n = entry then return kids
  else update? kids (← filled? (← load? idom n)) (· ++ [n])

/-- The dominator tree. -/
def dominators? (g : Digraph) : Except Error DomTree := do
  if g.size = 0 then return ⟨g.entry, #[], #[]⟩
  let c ← g.spanTables?
  let idom ← g.immediateDominators? c
  ensure (c.count ≤ c.vertex.size)
  let kids ← (← c.nodesFrom? 0).foldlM (addKid? g.entry idom) (Array.replicate g.size [])
  return ⟨g.entry, idom, kids⟩

variable {g : Digraph} {t : SpanTree} {c : SpanTables}

/-- A node with a number is a node of the graph. -/
lemma Spans.lt_size (h : g.Spans t) (hg : g.Consistent) {v : Nat} (hv : 0 < t.numberOf v) :
    v < g.size := hg.reached_lt ((h.numbered v).1 hv)

namespace SemiForest

/-! ## The forest -/

/-- The semidominators known of nodes with a number are nodes of the graph. -/
def Inside (g : Digraph) (t : SpanTree) (s : SemiForest) : Prop :=
  ∀ u, 0 < t.numberOf u → s.semiOf u < g.size

lemma Inside.congr {s s' : SemiForest} (hin : Inside g t s) (h : SameTables s s') :
    Inside g t s' := by
  intro u hu
  rw [h.semiOf]
  exact hin u hu

section

variable {s : SemiForest} {i n v : Nat} (hg : g.Consistent) (h : g.Spans t)
  (hc : Describes g t c) (hs : Sized g s) (hin : Inside g t s)

include hg h hs

lemma load?_semi (hn : 0 < t.numberOf n) : load? s.semi n = .ok (s.semiOf n) :=
  load?_ok (by rw [hs.semi]; exact h.lt_size hg hn) n

lemma load?_ancestor (hn : 0 < t.numberOf n) : load? s.ancestor n = .ok (s.ancestorOf n) :=
  load?_ok (by rw [hs.ancestor]; exact h.lt_size hg hn) none

lemma load?_best (hn : 0 < t.numberOf n) : load? s.best n = .ok (s.bestOf n) :=
  load?_ok (by rw [hs.best]; exact h.lt_size hg hn) n

include hc hin in
lemma semiNumber?_ok (hn : 0 < t.numberOf n) : s.semiNumber? c n = .ok (s.semiNumber t n) := by
  unfold semiNumber?
  rw [load?_semi hg h hs hn, ok_bind, hc.number]
  exact load?_ok (by rw [hc.number_size]; exact hin n hn) 0

omit hg hs in
/-- A linked node has an ancestor with a smaller number, and a best node with one. -/
lemma Linked.above (hl : Linked t i s) (hn : i < t.numberOf n) :
    ∃ a, s.ancestorOf n = some a ∧ 0 < t.numberOf a ∧ t.numberOf a < t.numberOf n ∧
      0 < t.numberOf (s.bestOf n) := by
  obtain ⟨a, ha, hanc, hne, -, hb, -⟩ := hl.node n hn
  have hpos : 0 < t.numberOf n := by omega
  exact ⟨a, ha, (h.anc_le hanc hpos).1, h.anc_lt hanc hpos hne, (h.anc_le hb hpos).1⟩

omit hg h hs in
/-- What has an ancestor is linked. -/
lemma Linked.of_ancestor (hl : Linked t i s) (hn : 0 < t.numberOf n)
    (ha : (s.ancestorOf n).isSome = true) : i < t.numberOf n := by
  by_contra hc
  rw [(hl.root n hn (by omega)).1] at ha
  cases ha

include hc hin in
/-- Letting a node skip a linked ancestor. -/
lemma shortcut?_ok {a : Nat} (hl : Linked t i s) (hn : i < t.numberOf n)
    (ha : s.ancestorOf n = some a) (hia : i < t.numberOf a) :
    s.shortcut? c n = .ok (s.shortcut t n) := by
  have hpos : 0 < t.numberOf n := by omega
  obtain ⟨a', ha', hapos, -, hours⟩ := hl.above h hn
  obtain rfl : a' = a := Option.some.inj (ha'.symm.trans ha)
  obtain ⟨-, -, -, -, htheirs⟩ := hl.above h hia
  have hlt := h.lt_size hg hpos
  unfold shortcut? shortcut
  rw [load?_ancestor hg h hs hpos, ok_bind, ha, filled?_some, ok_bind,
    load?_best hg h hs hpos, ok_bind, load?_best hg h hs hapos, ok_bind,
    semiNumber?_ok hg h hc hs hin htheirs, ok_bind, semiNumber?_ok hg h hc hs hin hours, ok_bind,
    load?_ancestor hg h hs hapos]
  dsimp only
  simp only [ok_bind, store?_ok (show n < s.ancestor.size by rw [hs.ancestor]; exact hlt)]
  split
  · rw [store?_ok (by rw [hs.best]; exact hlt)]
    rfl
  · rfl

/-- The way from a linked node. -/
lemma pathFrom?_ok (hl : Linked t i s) {bound : Nat} (hv : i < t.numberOf v)
    (hb : t.numberOf v ≤ bound) : s.pathFrom? bound v = .ok (s.pathFrom bound v) := by
  induction bound generalizing v with
  | zero => omega
  | succ bound ih =>
    obtain ⟨a, ha, hapos, halt, -⟩ := hl.above h hv
    rw [pathFrom?, pathFrom, load?_ancestor hg h hs (by omega), ok_bind, ha, filled?_some, ok_bind,
      load?_ancestor hg h hs hapos, ok_bind]
    dsimp only
    split
    · rename_i hsome
      rw [ih (hl.of_ancestor hapos hsome) (by omega)]
      rfl
    · rfl

include hc hin in
/-- Shortening the way from a node. -/
lemma foldrM_shortcut?_ok (hl : Linked t i s) (bound : Nat) (hv : 0 < t.numberOf v)
    (hb : t.numberOf v ≤ bound) :
    (s.pathFrom bound v).foldrM (fun m s => s.shortcut? c m) s =
      .ok ((s.pathFrom bound v).foldr (fun m s => s.shortcut t m) s) := by
  induction bound generalizing v with
  | zero => omega
  | succ bound ih =>
    rw [pathFrom]
    cases hav : s.ancestorOf v with
    | none => rfl
    | some a =>
      have hvi := hl.of_ancestor hv (hav ▸ rfl)
      obtain ⟨a', ha', hapos, halt, -⟩ := hl.above h hvi
      obtain rfl : a' = a := Option.some.inj (ha'.symm.trans hav)
      dsimp only
      split
      · rename_i hsome
        have hai := hl.of_ancestor hapos hsome
        obtain ⟨hs', hl', hsame, -, hold⟩ := hl.foldr_shortcut hg h hs bound a' hapos (by omega)
        rw [List.foldrM_cons, ih hapos (by omega), ok_bind, List.foldr_cons]
        exact shortcut?_ok hg h hc hs' (hin.congr hsame) hl' hvi
          (by rw [hold v halt, hav]) hai
      · rfl

include hc hin in
/-- The best node above a node with a number. -/
lemma eval?_ok (hl : Linked t i s) (hv : 0 < t.numberOf v) :
    s.eval? c v = .ok ((s.compress t v).bestOf v, s.compress t v) := by
  have hbound : t.numberOf v ≤ s.ancestor.size := by
    rw [hs.ancestor]
    exact h.number_le_size hg v
  unfold eval?
  rw [load?_ancestor hg h hs hv, ok_bind]
  split
  · rename_i hsome
    have hvi := hl.of_ancestor hv hsome
    obtain ⟨hs', -⟩ := hl.compress hg h hs hv
    rw [pathFrom?_ok hg h hs hl hvi hbound, ok_bind,
      foldrM_shortcut?_ok hg h hc hs hin hl _ hv hbound, ok_bind]
    show (do let u ← load? (s.compress t v).best v; return (u, s.compress t v)) = _
    rw [load?_best hg h hs' hv]
    rfl
  · -- a root stands for itself, and its way has no steps
    rename_i hnone
    have hnone : s.ancestorOf v = none := Option.not_isSome_iff_eq_none.1 hnone
    have hroot : s.compress t v = s := by
      unfold compress
      cases s.ancestor.size with
      | zero => rfl
      | succ bound =>
        rw [pathFrom, hnone]
        rfl
    have hle : t.numberOf v ≤ i := by
      by_contra hlt
      obtain ⟨a, ha, -⟩ := hl.node v (by omega)
      rw [hnone] at ha
      cases ha
    rw [hroot, (hl.root v hv hle).2]
    rfl

end

/-! ## Dealing with a node -/

section

variable {σ : Nat → Nat} {w v : Nat} {s₀ s : SemiForest} {done : List Nat} (hg : g.Consistent)
  (h : g.Spans t) (hc : Describes g t c) (hσ : ∀ w, 1 < t.numberOf w → g.IsSemi t (σ w) w)

include hg h hσ

/-- While the edges into a node are looked at, semidominators are nodes of the graph. -/
lemma Improving.inside (hw : 0 < t.numberOf w) (hi : Improving g t σ w s₀ done s) :
    Inside g t s := by
  intro u hu
  by_cases huw : u = w
  · rcases hi.candidate with hself | hcand
    · rw [huw, hself]
      exact h.lt_size hg hw
    · rw [huw]
      exact h.lt_size hg hcand.1
  · rcases Nat.lt_or_ge (t.numberOf w) (t.numberOf u) with hlt | hge
    · rw [hi.later u hlt]
      exact h.lt_size hg (hσ u (by omega)).pos
    · rw [hi.earlier u hu hge huw]
      exact h.lt_size hg hu

include hc

/-- Looking at one edge into a node. -/
lemma Improving.improve?_ok (hw : 0 < t.numberOf w) (hi : Improving g t σ w s₀ done s) :
    s.improve? c w v = .ok (s.improve t w v) := by
  have hnumber : c.number.getD v 0 = t.numberOf v := by
    rw [hc.number]
    rfl
  unfold improve? SemiForest.improve
  rw [hnumber]
  split
  · rfl
  · rename_i h0
    have hv : 0 < t.numberOf v := Nat.pos_of_ne_zero h0
    have hin := hi.inside hg h hσ hw
    obtain ⟨hs', -, hsame, hroot, hbest⟩ := hi.linked.compress hg h hi.sized hv
    have hin' := hin.congr hsame
    -- the best node is the node itself, or above it
    have hu : 0 < t.numberOf ((s.compress t v).bestOf v) := by
      rcases Nat.lt_or_ge (t.numberOf w) (t.numberOf v) with hlt | hge
      · exact (h.anc_le (hbest hlt).1 hv).1
      · rw [hroot hge]
        exact hv
    rw [eval?_ok hg h hc hi.sized hin hi.linked hv, ok_bind]
    dsimp only
    rw [semiNumber?_ok hg h hc hs' hin' hu, ok_bind, semiNumber?_ok hg h hc hs' hin' hw, ok_bind]
    split
    · rw [load?_semi hg h hs' hu, ok_bind,
        store?_ok (by rw [hs'.semi]; exact h.lt_size hg hw)]
      rfl
    · rfl

omit hσ in
/-- Deciding a node whose semidominator is the parent of the node linked last. -/
lemma Concluding.conclude?_ok (hw : 1 < t.numberOf w) (hin : Inside g t s)
    (hd : Concluding g t σ (t.numberOf w - 1) s₀ done s) (hv : t.numberOf w ≤ t.numberOf v) :
    s.conclude? c (t.parentOf w) v = .ok (s.conclude t (t.parentOf w) v) := by
  have hvpos : 0 < t.numberOf v := by omega
  obtain ⟨hs', -, hsame, -, hbest⟩ := hd.linked.compress hg h hd.sized hvpos
  have hu := (h.anc_le (hbest (by omega)).1 hvpos).1
  unfold conclude? SemiForest.conclude
  rw [eval?_ok hg h hc hd.sized hin hd.linked hvpos, ok_bind]
  dsimp only
  rw [load?_semi hg h hs' hu, ok_bind, load?_semi hg h hs' hvpos, ok_bind,
    store?_ok (by rw [hs'.idom]; exact h.lt_size hg hvpos)]
  rfl

/-- Dealing with the next node. -/
lemma Progress.process?_ok (hw : 1 < t.numberOf w) (hp : Progress g t σ (t.numberOf w) s) :
    s.process? g c w = .ok (s.process g t w) := by
  have hwpos : 0 < t.numberOf w := by omega
  have hlt := h.lt_size hg hwpos
  obtain ⟨hppos, -, -⟩ := h.parent w hw
  have hplt := h.lt_size hg hppos
  have himprove : (g.preds w).foldlM (improve? c w) s =
      .ok ((g.preds w).foldl (improve t w) s) := by
    refine foldlM_eq (fun l s' => (∃ done, Improving g t σ w s done s') ∧
      ∀ v ∈ l, 0 < t.numberOf v → g.Edge v w) ?_ ⟨⟨[], hp.improving hwpos⟩, fun v hv hvpos => ?_⟩
    · rintro v rest s' ⟨⟨done, hi⟩, hl⟩
      refine ⟨hi.improve?_ok hg h hc hσ hwpos, ⟨_, hi.improve hg h hσ hwpos
        (hl v List.mem_cons_self)⟩, fun u hu => hl u (List.mem_cons_of_mem _ hu)⟩
    · exact (hg.pred_iff v (h.lt_size hg hvpos) w hlt).1 hv
  obtain ⟨⟨done, hi⟩, hsw⟩ := hp.improved hg h hσ hw
  unfold process?
  rw [hc.parent w hw, ok_bind, filled?_some, ok_bind, himprove, ok_bind, process_eq]
  dsimp only
  set s' := (g.preds w).foldl (improve t w) s
  have hin := hi.inside hg h hσ hwpos
  have hsemi : σ w < g.size := h.lt_size hg (hσ w hw).pos
  have hjoined : (s'.joined w).size = g.size := (size_joined s' w).trans hi.sized.bucket
  rw [load?_semi hg h hi.sized hwpos, ok_bind,
    update?_ok (by rw [hi.sized.bucket, hsw]; exact hsemi), ok_bind,
    store?_ok (by rw [hi.sized.ancestor]; exact hlt), ok_bind]
  rw [show (s'.bucket.modify (s'.semiOf w) fun x => x ++ [w]) = s'.joined w from rfl,
    load?_ok (by rw [hjoined]; exact hplt) [], ok_bind,
    store?_ok (by rw [hjoined]; exact hplt), ok_bind]
  -- who waits for the parent has been dealt with
  have hwaiting : ∀ v ∈ (s'.joined w).getD (t.parentOf w) [],
      t.numberOf w ≤ t.numberOf v ∧ σ v = t.parentOf w := hp.waiting hi hsw hsemi
  refine foldlM_eq (fun l s'' => (∃ done, Concluding g t σ (t.numberOf w - 1) (s'.linkUp t w)
    done s'') ∧ ∀ v ∈ l, t.numberOf w ≤ t.numberOf v ∧ σ v = t.parentOf w) ?_
    ⟨⟨[], hi.concluding hg h hw hp.sound⟩, hwaiting⟩
  rintro v rest s'' ⟨⟨done', hd⟩, hl⟩
  obtain ⟨hwv, hvp⟩ := hl v List.mem_cons_self
  have hin' : Inside g t s'' := by
    intro u hu
    rw [semiOf, hd.semi]
    exact hin u hu
  refine ⟨hd.conclude?_ok hg h hc hw hin' hwv, ⟨_, hd.conclude hg h hσ hw ?_ hwv hvp⟩,
    fun u hu => hl u (List.mem_cons_of_mem _ hu)⟩
  exact hi.later_linkUp h hwpos hsw

end

/-- Settling the next node. -/
lemma Settled.settle?_ok {σ : Nat → Nat} {w : Nat} {s : SemiForest} (hg : g.Consistent)
    (h : g.Spans t) (hw : 1 < t.numberOf w) (hsemi : s.semi.size = g.size)
    (hs : Settled g t σ (t.numberOf w - 1) s) : s.settle? w = .ok (s.settle w) := by
  have hlt : w < g.size := h.lt_size hg (by omega)
  obtain ⟨d, hd, -, hset⟩ := hs.found w hw
  obtain ⟨-, hset⟩ := hset (by omega)
  have hd : s.idom.getD w none = some d := hd
  have hload : load? s.semi w = .ok (s.semiOf w) := load?_ok (by rw [hsemi]; exact hlt) w
  unfold settle? SemiForest.settle
  rw [load?_ok (by rw [hs.size]; exact hlt) none, hd, ok_bind, hload, ok_bind]
  dsimp only
  by_cases hself : d = s.semiOf w
  · rw [if_pos (congrArg some hself), if_pos hself]
    rfl
  · -- the node it refers to has a number
    have hdlt : d < g.size := by
      rcases hset with ⟨heq, -⟩ | ⟨-, hd1, -⟩
      · exact absurd (heq.trans (hs.semi w hw).symm) hself
      · exact h.lt_size hg (by omega)
    rw [if_neg fun he => hself (Option.some.inj he), if_neg hself, filled?_some, ok_bind,
      load?_ok (by rw [hs.size]; exact hdlt) none, ok_bind,
      store?_ok (by rw [hs.size]; exact hlt)]
    rfl

lemma semi_settle (s : SemiForest) (w : Nat) : (s.settle w).semi = s.semi := by
  unfold SemiForest.settle
  split
  · split <;> rfl
  · rfl

end SemiForest

/-! ## The tree -/

/-- The nodes are read off in the order of their numbers. -/
lemma SpanTables.Describes.nodesFrom? (hc : Describes g t c) (i : Nat) :
    c.nodesFrom? i = .ok (t.order.drop i) := by
  have hread : ∀ k ∈ List.range' i (t.order.length - i),
      (do filled? (← load? c.vertex k)) = (.ok (t.order.getD k 0) : Except Error Nat) := by
    intro k hk
    have := List.mem_range'_1.1 hk
    have hlt : k < t.order.length := by omega
    have hget := List.getElem?_eq_getElem hlt
    unfold load?
    rw [hc.vertex k _ hget, List.getD_eq_getElem?_getD, hget]
    rfl
  unfold SpanTables.nodesFrom?
  rw [hc.count, mapM_ok hread]
  congr 1
  refine List.ext_getElem (by simp) fun j hj hj' => ?_
  rw [List.length_drop] at hj'
  rw [List.getElem_map, List.getElem_range', List.getElem_drop, Nat.one_mul,
    List.getD_eq_getElem?_getD, List.getElem?_eq_getElem (by omega)]
  rfl

open SemiForest in
/-- The table of immediate dominators. -/
lemma Spans.immediateDominators?_ok (hg : g.Consistent) (h : g.Spans t) (hc : Describes g t c) :
    g.immediateDominators? c = .ok (g.immediateDominators t) := by
  obtain ⟨σ, hσ⟩ := h.exists_semi
  obtain ⟨hstart, hdealt⟩ := h.dealt hg hσ
  have hprocess : (t.order.drop 1).reverse.foldlM (process? g c) (.init g.size) =
      .ok ((t.order.drop 1).reverse.foldl (process g t) (.init g.size)) := by
    refine foldlM_eq (fun l s => ∃ i, Progress g t σ i s ∧
      ∀ k w, l[k]? = some w → 1 < t.numberOf w ∧ t.numberOf w + k = i) ?_
      ⟨_, hstart, h.inner_reverse⟩
    rintro w rest s ⟨i, hp, hl⟩
    obtain ⟨hw, hwi⟩ := hl 0 w rfl
    obtain rfl : t.numberOf w = i := hwi
    refine ⟨hp.process?_ok hg h hc hσ hw, _, hp.process hg h hσ hw, fun k v hk => ?_⟩
    obtain ⟨hv, hvk⟩ := hl (k + 1) v hk
    exact ⟨hv, by omega⟩
  set found := (t.order.drop 1).reverse.foldl (process g t) (.init g.size)
  have hsettle : (t.order.drop 1).foldlM settle? found =
      .ok ((t.order.drop 1).foldl settle found) := by
    refine foldlM_eq (fun l s => ∃ j, Settled g t σ j s ∧ s.semi.size = g.size ∧
      ∀ k w, l[k]? = some w → 1 < t.numberOf w ∧ t.numberOf w = j + k + 1) ?_
      ⟨1, hdealt.settled h hσ, hdealt.sized.semi, h.inner⟩
    rintro w rest s ⟨j, hs, hsemi, hl⟩
    obtain ⟨hw, hwj⟩ := hl 0 w rfl
    obtain rfl : j = t.numberOf w - 1 := by omega
    refine ⟨hs.settle?_ok hg h hw hsemi, _, hs.settle hg h hw, by rw [semi_settle, hsemi],
      fun k v hk => ?_⟩
    obtain ⟨hv, hvk⟩ := hl (k + 1) v hk
    exact ⟨hv, by omega⟩
  have hsize := (h.immediateDominators hg).1
  unfold Digraph.immediateDominators at hsize
  rw [Array.size_setIfInBounds] at hsize
  unfold immediateDominators? Digraph.immediateDominators
  rw [hc.nodesFrom?, ok_bind, hprocess, ok_bind, hsettle, ok_bind,
    store?_ok (by rw [hsize]; exact hg.entry_lt)]

/-- The algorithm is never refused, and computes the tree that is computed. -/
lemma dominators?_eq (hg : g.Consistent) : g.dominators? = .ok g.domTree := by
  have h := spans_spanTree g hg
  obtain ⟨c, hc, hdescribes⟩ := spanTables?_ok hg
  obtain ⟨hsize, hreached, himm⟩ := h.immediateDominators hg
  have hkids : (g.spanTree.order.drop 0).foldlM
      (addKid? g.entry (g.immediateDominators g.spanTree)) (Array.replicate g.size []) =
      .ok ((g.spanTree.order.drop 0).foldl
        (addKid g.entry (g.immediateDominators g.spanTree)) (Array.replicate g.size [])) := by
    refine foldlM_eq (fun l kids => kids.size = g.size ∧ ∀ n ∈ l, g.Reached n) ?_
      ⟨by simp, fun n hn => ?_⟩
    · rintro n rest kids ⟨hkids, hl⟩
      have hn := hl n List.mem_cons_self
      refine ⟨?_, (size_foldl_addKid g.entry _ [n] kids).trans hkids,
        fun m hm => hl m (List.mem_cons_of_mem _ hm)⟩
      obtain ⟨d, hd⟩ := Option.isSome_iff_exists.1 (hreached n hn)
      unfold addKid? addKid
      split
      · rfl
      · rename_i hne
        obtain ⟨hc, -⟩ | ⟨-, -, hdom⟩ := (himm n d).1 hd
        · exact absurd hc hne
        · rw [load?_ok (by rw [hsize]; exact hg.reached_lt hn) none, ok_bind, hd, filled?_some,
            ok_bind, update?_ok]
          rw [hkids]
          exact hg.reached_lt (hdom.1.2.reaches hn)
    · obtain ⟨k, hk⟩ := List.mem_iff_getElem?.1 hn
      have := (h.order k n).1 hk
      exact (h.numbered n).1 (by omega)
  have hpos := hg.entry_lt
  unfold dominators?
  rw [if_neg (by omega), hc, ok_bind, h.immediateDominators?_ok hg hdescribes, ok_bind,
    ensure_ok (by rw [hdescribes.count]; exact hdescribes.count_le), ok_bind,
    hdescribes.nodesFrom?, ok_bind, hkids, ok_bind]
  rfl

end Digraph

end SsaBackend
