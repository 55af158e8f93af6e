import SsaBackend.Func.PhiFold
import SsaBackend.Proofs.Func.Edit

/-!
# What folding a phi does

A phi is trivial if its operands are itself and one other value (`Phi.trivial?_some`), and one
step of folding replaces such a phi or passes over it (`Func.PhiFold.step_cases`).
-/

namespace SsaBackend

namespace Phi

/-- A phi that amounts to one value has no operands but that and itself. -/
lemma soleValue_some {self : Value} {met : Option Value} {l : List Value} {found : Option Value}
    (h : soleValue self met l = some found) :
    (∀ u, met = some u → found = some u) ∧ (∀ v ∈ l, v = self ∨ some v = found) ∧
      (∀ v, found = some v → met = some v ∨ v ∈ l) := by
  induction l generalizing met with
  | nil =>
    cases h
    simp
  | cons v rest ih =>
    rw [soleValue] at h
    split at h
    · rename_i hv
      obtain ⟨hmet, hall, hfound⟩ := ih h
      refine ⟨hmet, ?_, ?_⟩
      · intro u hu
        rcases List.mem_cons.1 hu with rfl | hu
        · -- the operand is the phi itself, or what was met before
          rcases hv with hv | hv
          · exact .inl hv
          · exact .inr (hmet u hv.symm).symm
        · exact hall u hu
      · intro u hu
        rcases hfound u hu with h | h
        · exact .inl h
        · exact .inr (List.mem_cons_of_mem _ h)
    · split at h
      · cases h
      · rename_i hv hmet
        -- it is the first that is not the phi itself
        have hnone : met = none := by simpa using hmet
        obtain ⟨hmet, hall, hfound⟩ := ih h
        refine ⟨by simp [hnone], ?_, ?_⟩
        · intro u hu
          rcases List.mem_cons.1 hu with rfl | hu
          · exact .inr (hmet u rfl).symm
          · exact hall u hu
        · intro u hu
          rcases hfound u hu with h | h
          · cases h
            exact .inr List.mem_cons_self
          · exact .inr (List.mem_cons_of_mem _ h)

lemma trivial?_some {node : Phi} {i : InstId} {same : Value} (h : node.trivial? i = some same) :
    (∀ v ∈ node.values, v = .inst i ∨ v = same) ∧ (same = .undef ∨ same ∈ node.values) := by
  unfold trivial? at h
  obtain ⟨found, hfound, rfl⟩ := Option.map_eq_some_iff.1 h
  obtain ⟨-, hall, hmem⟩ := soleValue_some hfound
  cases found with
  | none =>
    refine ⟨?_, .inl rfl⟩
    intro v hv
    rcases hall v hv with h | h
    · exact .inl h
    · cases h
  | some u =>
    refine ⟨?_, .inr ?_⟩
    · intro v hv
      rcases hall v hv with h | h
      · exact .inl h
      · exact .inr (Option.some.inj h)
    · rcases hmem u rfl with h | h
      · cases h
      · exact h

/-- Two values, one of them the phi itself, do not keep a phi from amounting to one. -/
lemma isSome_soleValue {self w : Value} {met : Option Value} {l : List Value}
    (hmet : ∀ u, met = some u → u = w) (h : ∀ v ∈ l, v = self ∨ v = w) :
    (soleValue self met l).isSome = true := by
  induction l generalizing met with
  | nil => rfl
  | cons v rest ih =>
    have hrest : ∀ u ∈ rest, u = self ∨ u = w := fun u hu => h u (List.mem_cons_of_mem _ hu)
    rw [soleValue]
    split
    · exact ih hmet hrest
    · rename_i hv
      obtain rfl := (h v List.mem_cons_self).resolve_left fun he => hv (.inl he)
      cases met with
      | none => exact ih (fun u hu => (Option.some.inj hu).symm) hrest
      | some u => exact absurd (.inr (by rw [hmet u rfl])) hv

/-- A phi that is not trivial has an operand other than itself and any one value. -/
lemma exists_ne_of_not_trivial {node : Phi} {i : InstId} (h : node.trivial? i = none) (w : Value) :
    ∃ v ∈ node.values, v ≠ .inst i ∧ v ≠ w := by
  by_contra hall
  have hsome : (soleValue (.inst i) none node.values).isSome = true := by
    refine isSome_soleValue (w := w) (fun u hu => nomatch hu) ?_
    intro v hv
    by_contra hne
    rw [not_or] at hne
    exact hall ⟨v, hv, hne⟩
  unfold trivial? at h
  rw [Option.map_eq_none_iff] at h
  rw [h] at hsome
  cases hsome

/-- What a trivial phi amounts to is not the phi itself. -/
lemma soleValue_ne {self : Value} {met : Option Value} {l : List Value} {found : Option Value}
    (h : soleValue self met l = some found) (hmet : met ≠ some self) : found ≠ some self := by
  induction l generalizing met with
  | nil =>
    cases h
    exact hmet
  | cons v rest ih =>
    rw [soleValue] at h
    split at h
    · exact ih h hmet
    · rename_i hv
      split at h
      · cases h
      · refine ih h ?_
        rintro ⟨⟩
        exact hv (.inl rfl)

lemma trivial?_ne {node : Phi} {i : InstId} {same : Value}
    (h : node.trivial? i = some same) : same ≠ .inst i := by
  unfold trivial? at h
  obtain ⟨found, hfound, rfl⟩ := Option.map_eq_some_iff.1 h
  have hne := soleValue_ne hfound (by simp)
  cases found with
  | none => simp
  | some u => simpa using hne

end Phi

namespace Func

/-- A handle that names a phi names an instruction that is one. -/
lemma phi?_some {f : Func} {i : InstId} {node : Phi} (h : f.phi? i = some node) :
    ∃ b, f.inst? i = some ⟨.phi node, b⟩ := by
  obtain ⟨⟨inst, b⟩, hp, hphi⟩ := Option.bind_eq_some_iff.1 h
  refine ⟨b, ?_⟩
  cases inst with
  | phi _ =>
    cases hphi
    exact hp
  | _ => cases hphi

namespace PhiFold

lemma foldl_enqueue (l : List InstId) (s : PhiFold) :
    (l.foldl enqueue s).func = s.func ∧ (l.foldl enqueue s).replaced = s.replaced := by
  have hone : ∀ (s : PhiFold) i,
      (s.enqueue i).func = s.func ∧ (s.enqueue i).replaced = s.replaced := by
    intro s i
    unfold enqueue
    split <;> exact ⟨rfl, rfl⟩
  induction l generalizing s with
  | nil => exact ⟨rfl, rfl⟩
  | cons i rest ih =>
    obtain ⟨hfunc, hreplaced⟩ := ih (s.enqueue i)
    exact ⟨hfunc.trans (hone s i).1, hreplaced.trans (hone s i).2⟩

lemma mem_foldl_enqueue {l : List InstId} {s : PhiFold} {i : InstId}
    (h : i ∈ (l.foldl enqueue s).work) : i ∈ s.work ∨ i ∈ l := by
  induction l generalizing s with
  | nil => exact .inl h
  | cons j rest ih =>
    rcases ih h with h | h
    · unfold enqueue at h
      split at h
      · exact .inl h
      · rcases List.mem_append.1 h with h | h
        · exact .inl h
        · exact .inr (List.mem_singleton.1 h ▸ List.mem_cons_self)
    · exact .inr (List.mem_cons_of_mem _ h)

/-- The state in which the phi `i` has been taken from the list, whose rest is `rest`. -/
def taken (s : PhiFold) (i : InstId) (rest : List InstId) : PhiFold :=
  { s with work := rest, queued := s.queued.filter (· ≠ i) }

/-- A step takes the first phi from the list. It passes over it, or replaces it if it is trivial
and may be folded. -/
lemma step_inv {s s' : PhiFold} {mayFold : InstId → Bool} (h : s.step mayFold = some s') :
    ∃ i rest, s.work = i :: rest ∧
      ((s' = s.taken i rest ∧
          (mayFold i = true → ∀ node, s.func.phi? i = some node → node.trivial? i = none)) ∨
        ∃ same node, mayFold i = true ∧ s.func.phi? i = some node ∧ node.trivial? i = some same ∧
          s' = (s.taken i rest).replace i same) := by
  unfold step at h
  split at h
  · cases h
  · rename_i i rest hwork
    refine ⟨i, rest, hwork, ?_⟩
    dsimp only at h
    split at h
    · rename_i hmay
      split at h
      · rename_i same hsame
        cases h
        obtain ⟨node, hnode, ht⟩ := Option.bind_eq_some_iff.1 hsame
        exact .inr ⟨same, node, hmay, hnode, ht, rfl⟩
      · rename_i hnone
        cases h
        refine .inl ⟨rfl, fun _ node hnode => ?_⟩
        rwa [hnode] at hnone
    · rename_i hmay
      cases h
      exact .inl ⟨rfl, fun h => absurd h hmay⟩

/-- What a step leaves on the list: the rest of it and phis that used the one replaced. -/
lemma step_work {s s' : PhiFold} {mayFold : InstId → Bool} (h : s.step mayFold = some s') :
    ∃ i rest, s.work = i :: rest ∧
      ((s'.func = s.func ∧ s'.work = rest) ∨
        ∃ same node, s.func.phi? i = some node ∧ node.trivial? i = some same ∧
          s'.func = (s.func.replaceUses i same).removeInst i ∧
          ∀ j ∈ s'.work, j ∈ rest ∨ j ∈ s.func.phiUsers i) := by
  obtain ⟨i, rest, hwork, ⟨rfl, -⟩ | ⟨same, node, -, hnode, ht, rfl⟩⟩ := step_inv h
  · exact ⟨i, rest, hwork, .inl ⟨rfl, rfl⟩⟩
  · exact ⟨i, rest, hwork, .inr ⟨same, node, hnode, ht, (foldl_enqueue _ _).1,
      fun j hj => mem_foldl_enqueue hj⟩⟩

/-- A step passes over a phi, or replaces one that is trivial and may be folded. -/
lemma step_cases {s s' : PhiFold} {mayFold : InstId → Bool} (h : s.step mayFold = some s') :
    (s'.func = s.func ∧ s'.replaced = s.replaced) ∨
    ∃ i same node, mayFold i = true ∧ s.func.phi? i = some node ∧ node.trivial? i = some same ∧
      s'.func = (s.func.replaceUses i same).removeInst i ∧
      s'.replaced = s.replaced ++ [⟨i, same⟩] := by
  obtain ⟨i, rest, -, ⟨rfl, -⟩ | ⟨same, node, hmay, hnode, ht, rfl⟩⟩ := step_inv h
  · exact .inl ⟨rfl, rfl⟩
  · exact .inr ⟨i, same, node, hmay, hnode, ht, foldl_enqueue _ _⟩

end PhiFold

end Func

end SsaBackend
