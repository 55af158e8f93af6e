import Mathlib.Tactic.Common
import SsaBackend.Func.Basic
import SsaBackend.Pass.Fold

/-!
# Running functions

What a function does when it runs. Values are 64-bit words. Loads, stores, calls and stack
allocations are seen from outside, and what a load, a call or an allocation gives back is up to
the `World`, which may let it depend on everything that was seen before. The world also
supplies what does not change during a run: the arguments, the value of `undef`, the address
arithmetic, and what a shift by too many places gives. A division that has no result traps.

A run goes from block to block. On entry the phis of a block take their values all at once,
each the one that flows in from where control came; then the other instructions run in order,
and the terminator says where control goes. `Func.run` is what is reached after a number of
blocks: `Stage.entering` the next one, or `Stage.done`. Two programs mean the same if in every
world they reach the same stages, having been seen to do the same (`Func.run` up to
`Stage.sight`); `Stage.Rel.after` is how that is shown, by a relation of the inner states.
-/

namespace SsaBackend

/-! ## Worlds -/

/-- Something a run does that is seen from outside. -/
inductive Effect where
  | load (addr : Int64)
  | store (addr value : Int64)
  | call (callee : String) (args : List Int64)
  | alloca
  deriving DecidableEq, Repr

/-- Whatever a run depends on beside the program. -/
structure World where
  arg : Nat → Int64
  undef : Int64
  /-- What a shift by a negative amount or by 64 or more gives. -/
  wideShift : BinaryOp → Int64 → Int64 → Int64
  /-- The address of an element. -/
  address : Int64 → Int64 → Int64
  /-- What the last of the effects so far, latest first, gives back. -/
  answer : List Effect → Int64

/-- The values of the results computed so far. -/
abbrev Env := InstId → Int64

/-- The environment in which `i` has the value `v`. -/
def Env.set (env : Env) (i : InstId) (v : Int64) : Env := fun j => if j = i then v else env j

@[simp] lemma Env.set_self (env : Env) (i : InstId) (v : Int64) : env.set i v i = v := by
  simp [Env.set]

lemma Env.set_ne (env : Env) {i j : InstId} (v : Int64) (h : j ≠ i) : env.set i v j = env j := by
  simp [Env.set, h]

/-! ## Values and instructions -/

/-- The value of an operand. -/
def Value.eval (w : World) (env : Env) : Value → Int64
  | const c => c.toInt64
  | inst i => env i
  | arg n => w.arg n
  | undef => w.undef

/-- The result of an operation on two words; a division that is not defined has none. -/
def World.binary (w : World) (op : BinaryOp) (a b : Int64) : Option Int64 :=
  match op.onWords? a b with
  | some v => some v
  | none => if op.isDivision then none else some (w.wideShift op a b)

/-- The result of an instruction and the effects afterwards, unless it traps. A store has no
result that anything could use, and phis take their values on entry to their block. -/
def Inst.exec (w : World) (env : Env) (seen : List Effect) :
    Inst → Option (Int64 × List Effect)
  | binary op a b => (w.binary op (a.eval w env) (b.eval w env)).map (·, seen)
  | compare p a b => some (if p.holds (a.eval w env) (b.eval w env) then 1 else 0, seen)
  | cast op v bits => some (op.apply (v.eval w env) bits, seen)
  | select c a b => some (if c.eval w env ≠ 0 then a.eval w env else b.eval w env, seen)
  | address a i => some (w.address (a.eval w env) (i.eval w env), seen)
  | load a => some (w.answer (.load (a.eval w env) :: seen), .load (a.eval w env) :: seen)
  | store a v => some (w.undef, .store (a.eval w env) (v.eval w env) :: seen)
  | call callee args =>
    let effect := Effect.call callee (args.map (·.eval w env))
    some (w.answer (effect :: seen), effect :: seen)
  | alloca => some (w.answer (.alloca :: seen), .alloca :: seen)
  | phi _ => some (w.undef, seen)

/-! ## Stages of a run -/

/-- How a run ends. A run that is stuck has met a block or an instruction that is not there, or
a block without an end. -/
inductive Ending where
  | returned (value : Option Int64)
  | trapped
  | stuck
  deriving DecidableEq, Repr

/-- What a run has come to: it is about to enter a block, in an inner state, or it is over. -/
inductive Stage (σ : Type) where
  | entering (b : BlockId) (s : σ) (seen : List Effect)
  | done (ending : Ending) (seen : List Effect)

namespace Stage

variable {σ : Type}

/-- What is seen of a stage from outside. -/
def sight : Stage σ → Stage Unit
  | entering b _ seen => entering b () seen
  | done ending seen => done ending seen

/-- The stage after one more block. -/
def next (enter : BlockId → σ → List Effect → Stage σ) : Stage σ → Stage σ
  | entering b s seen => enter b s seen
  | done ending seen => done ending seen

/-- The stage after a number of blocks. -/
def after (enter : BlockId → σ → List Effect → Stage σ) (start : Stage σ) : Nat → Stage σ
  | 0 => start
  | n + 1 => next enter (after enter start n)

end Stage

namespace Stage

variable {σ τ : Type}

/-- The stages look the same, and the inner states are related. -/
inductive Rel (R : BlockId → σ → τ → Prop) : Stage σ → Stage τ → Prop
  | entering {b : BlockId} {s : σ} {s' : τ} {seen : List Effect} (h : R b s s') :
      Rel R (.entering b s seen) (.entering b s' seen)
  | done {ending : Ending} {seen : List Effect} : Rel R (.done ending seen) (.done ending seen)

lemma Rel.sight {R : BlockId → σ → τ → Prop} {x : Stage σ} {y : Stage τ} (h : Rel R x y) :
    x.sight = y.sight := by
  cases h with
  | entering _ => rfl
  | done => rfl

/-- If related states stay related from block to block, the stages look the same for ever. -/
lemma Rel.after {R : BlockId → σ → τ → Prop} {enter : BlockId → σ → List Effect → Stage σ}
    {enter' : BlockId → τ → List Effect → Stage τ} {x : Stage σ} {y : Stage τ} (h : Rel R x y)
    (hstep : ∀ b s s' seen, R b s s' → Rel R (enter b s seen) (enter' b s' seen)) (n : Nat) :
    Rel R (Stage.after enter x n) (Stage.after enter' y n) := by
  induction n with
  | zero => exact h
  | succ n ih =>
    unfold Stage.after
    generalize Stage.after enter x n = x at ih
    generalize Stage.after enter' y n = y at ih
    cases ih with
    | entering hR => exact hstep _ _ _ _ hR
    | done => exact .done

end Stage

/-- Where control goes from a terminator. -/
def Terminator.leave {σ : Type} (w : World) (env : Env) (s : σ) (seen : List Effect) :
    Terminator → Stage σ
  | jump b => .entering b s seen
  | branch c t e => .entering (if c.eval w env ≠ 0 then t else e) s seen
  | ret v => .done (.returned (v.map (·.eval w env))) seen

/-- Where control can go are the successors. -/
lemma Terminator.leave_rel {σ τ : Type} {R : BlockId → σ → τ → Prop} {w : World}
    {env env' : Env} {s : σ} {s' : τ} {seen : List Effect} {t : Terminator}
    (hval : ∀ v ∈ t.operands, v.eval w env = v.eval w env')
    (hR : ∀ b ∈ t.successors, R b s s') :
    Stage.Rel R (t.leave w env s seen) (t.leave w env' s' seen) := by
  cases t with
  | jump b => exact .entering (hR b (by simp [successors]))
  | branch c x y =>
    have hc := hval c (by simp [operands])
    simp only [leave, hc]
    apply Stage.Rel.entering
    apply hR
    by_cases hxy : y = x
    · simp [successors, hxy]
    · rw [successors, if_neg hxy]
      split <;> simp
  | ret v =>
    cases v with
    | none => exact .done
    | some v =>
      have hv := hval v (by simp [operands])
      simp only [leave, Option.map_some, hv]
      exact .done

/-! ## Running a function -/

/-- The inner state of a run between two blocks: where control comes from, and the values of
the results. -/
structure Arrival where
  pred : Option BlockId
  env : Env

/-- The values and effects in the course of a block. -/
structure Frame where
  env : Env
  seen : List Effect

/-- A reason to stop, and the effects up to there. -/
abbrev Halt := Ending × List Effect

namespace Func

/-- Runs one instruction. -/
def execInst (w : World) (f : Func) (s : Frame) (i : InstId) : Except Halt Frame :=
  match f.inst? i with
  | none => .error (.stuck, s.seen)
  | some p =>
    match p.inst.exec w s.env s.seen with
    | none => .error (.trapped, s.seen)
    | some (v, seen) => .ok ⟨s.env.set i v, seen⟩

/-- The value that a phi receives. -/
def incoming (w : World) (f : Func) (a : Arrival) (i : InstId) : Int64 :=
  ((a.pred.bind fun p => (f.phi? i).bind (·.incoming? p)).getD .undef).eval w a.env

/-- The values once the phis of a block have taken theirs, all at once. -/
def mergePhis (w : World) (f : Func) (phis : List InstId) (a : Arrival) : Env :=
  fun i => if i ∈ phis then f.incoming w a i else a.env i

/-- Runs a block. -/
def enter (w : World) (f : Func) (b : BlockId) (a : Arrival) (seen : List Effect) :
    Stage Arrival :=
  match f.block? b with
  | none => .done .stuck seen
  | some bb =>
    match bb.body.foldlM (f.execInst w) ⟨f.mergePhis w bb.phis a, seen⟩ with
    | .error (ending, seen) => .done ending seen
    | .ok s =>
      match bb.terminator with
      | none => .done .stuck s.seen
      | some t => t.leave w s.env ⟨some b, s.env⟩ s.seen

/-- The stage at which a run begins. -/
def begin (w : World) (f : Func) : Stage Arrival := .entering f.entry ⟨none, fun _ => w.undef⟩ []

/-- The stage of a run after a number of blocks. -/
def run (w : World) (f : Func) (n : Nat) : Stage Arrival := Stage.after (f.enter w) (f.begin w) n

/-- Two functions that in every world go the same way, are seen to do the same and end the same
way. -/
def SameMeaning (f g : Func) : Prop := ∀ w n, (f.run w n).sight = (g.run w n).sight

lemma SameMeaning.refl (f : Func) : f.SameMeaning f := fun _ _ => rfl

lemma SameMeaning.trans {f g h : Func} (hfg : f.SameMeaning g) (hgh : g.SameMeaning h) :
    f.SameMeaning h := fun w n => (hfg w n).trans (hgh w n)

end Func

/-! ## What a value depends on -/

/-- An instruction computes the same from operands of the same values. -/
lemma Inst.exec_congr {w : World} {env env' : Env} {seen : List Effect} {inst : Inst}
    (h : ∀ v ∈ inst.operands, v.eval w env = v.eval w env') :
    inst.exec w env seen = inst.exec w env' seen := by
  cases inst with
  | binary op a b | compare op a b =>
    have ha := h a (by simp [operands])
    have hb := h b (by simp [operands])
    simp only [exec, ha, hb]
  | cast op v bits =>
    have hv := h v (by simp [operands])
    simp only [exec, hv]
  | select c a b =>
    have hc := h c (by simp [operands])
    have ha := h a (by simp [operands])
    have hb := h b (by simp [operands])
    simp only [exec, hc, ha, hb]
  | address a i | store a i =>
    have ha := h a (by simp [operands])
    have hi := h i (by simp [operands])
    simp only [exec, ha, hi]
  | load a =>
    have ha := h a (by simp [operands])
    simp only [exec, ha]
  | call callee args =>
    have hargs : args.map (·.eval w env) = args.map (·.eval w env') := by
      apply List.map_congr_left
      intro v hv
      exact h v hv
    simp only [exec, hargs]
  | alloca | phi => rfl

/-- An instruction with other operands computes the same if they have the values of the old. -/
lemma Inst.exec_mapOperands {w : World} {env env' : Env} {seen : List Effect} {inst : Inst}
    {g : Value → Value} (h : ∀ v ∈ inst.operands, (g v).eval w env' = v.eval w env) :
    (inst.mapOperands g).exec w env' seen = inst.exec w env seen := by
  cases inst with
  | binary op a b | compare op a b =>
    have ha := h a (by simp [operands])
    have hb := h b (by simp [operands])
    simp only [mapOperands, exec, ha, hb]
  | cast op v bits =>
    have hv := h v (by simp [operands])
    simp only [mapOperands, exec, hv]
  | select c a b =>
    have hc := h c (by simp [operands])
    have ha := h a (by simp [operands])
    have hb := h b (by simp [operands])
    simp only [mapOperands, exec, hc, ha, hb]
  | address a i | store a i =>
    have ha := h a (by simp [operands])
    have hi := h i (by simp [operands])
    simp only [mapOperands, exec, ha, hi]
  | load a =>
    have ha := h a (by simp [operands])
    simp only [mapOperands, exec, ha]
  | call callee args =>
    have hargs : (args.map g).map (·.eval w env') = args.map (·.eval w env) := by
      rw [List.map_map]
      apply List.map_congr_left
      intro v hv
      exact h v hv
    simp only [mapOperands, exec, hargs]
  | alloca | phi => rfl

/-- A terminator with other operands goes the same way if they have the values of the old. -/
lemma Terminator.leave_mapOperands {σ : Type} {w : World} {env env' : Env} {s : σ}
    {seen : List Effect} {t : Terminator} {g : Value → Value}
    (h : ∀ v ∈ t.operands, (g v).eval w env' = v.eval w env) :
    (t.mapOperands g).leave w env' s seen = t.leave w env s seen := by
  cases t with
  | jump b => rfl
  | branch c x y =>
    have hc := h c (by simp [operands])
    simp only [mapOperands, leave, hc]
  | ret v =>
    cases v with
    | none => rfl
    | some v =>
      have hv := h v (by simp [operands])
      simp only [mapOperands, leave, Option.map_some, hv]

/-- Values that name no result other than those on which two environments agree are the
same. -/
lemma Value.eval_congr {w : World} {env env' : Env} {v : Value}
    (h : ∀ i, v = .inst i → env i = env' i) : v.eval w env = v.eval w env' := by
  cases v with
  | inst i => exact h i rfl
  | const c | arg n | undef => rfl

end SsaBackend
