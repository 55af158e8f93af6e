import SsaBackend.Builder
import SsaBackend.Proofs.Build.Program

/-!
# Scripts

A script is a sequence of calls of a builder, in any order of blocks and with any order of
sealing. Calls are numbered from 0, and an operand `%k` of a call stands for the value that
call `k` gave back. Playing a script keeps the builder, the answers and the program that the
calls are read as: a call that ended well is a statement of the block at the insertion point.
A call that was refused is no part of the program, and the script goes on with the builder it
left behind; only a read that never ends stops it.
-/

namespace SsaBackend

/-- A call of a builder. -/
inductive Call where
  | createBlock
  | switchTo (b : BlockId)
  | sealBlock (b : BlockId)
  | define (x : Variable) (v : Value)
  | use (x : Variable)
  | emit (inst : Inst) (h : inst.isPhi = false)
  | leave (t : Terminator)

namespace Call

/-- A value with the answers of earlier calls put in; one that was not given is `undef`. -/
def fill (answers : List (Option Value)) : Value → Value
  | .inst k => (answers[k.index]?.join).getD .undef
  | v => v

/-- What the builder does. -/
def work (answers : List (Option Value)) : Call → Work Builder (Option Value)
  | createBlock => do
    let _ ← Builder.createBlock
    return none
  | switchTo b => do
    Builder.switchTo b
    return none
  | sealBlock b => do
    Builder.sealBlock b
    return none
  | define x v => do
    Builder.defVar x (fill answers v)
    return none
  | use x => do
    let v ← Builder.useVar x
    return some v
  | emit inst _ => do
    let v ← Builder.emit (inst.mapOperands (fill answers))
    return some v
  | leave t => do
    Builder.terminate (t.mapOperands (fill answers))
    return none

/-- The program with the call number `k`, made while `b` is the insertion point. -/
def note (P : Program) (k : InstId) (b : BlockId) : Call → Program
  | createBlock | switchTo _ | sealBlock _ => P
  | define x v => P.add b (.assign x v)
  | use x => P.add b (.read k x)
  | emit inst _ => P.add b (.compute k inst)
  | leave t => P.close b t

/-- The values that the call is given. -/
def values : Call → List Value
  | define _ v => [v]
  | emit inst _ => inst.operands
  | leave t => t.operands
  | _ => []

/-- Whether the call writes or reads a variable. -/
def isAccess : Call → Bool
  | define .. | use _ => true
  | _ => false

end Call

/-- A builder at work, with what it answered so far and the program it was told. -/
structure Recording where
  builder : Builder
  answers : List (Option Value)
  program : Program

namespace Recording

/-- Nothing was asked yet. -/
def start (name : String) (numArgs : Nat) : Recording := ⟨.new name numArgs, [], {}⟩

/-- The number of the next call. -/
def nextCall (r : Recording) : InstId := ⟨r.answers.length⟩

/-- Makes one call. -/
def perform (r : Recording) (c : Call) : Except Error Recording :=
  match (c.work r.answers).run r.builder with
  | .ok a b => .ok ⟨b, r.answers ++ [a], c.note r.program r.nextCall r.builder.current⟩
  | .error .endless _ => .error .endless
  | .error _ b => .ok { r with builder := b, answers := r.answers ++ [none] }

/-- Whether a call is in order: variables are accessed only while the block at the insertion
point is not complete, and the values given are such as were answered. -/
def allows (r : Recording) (c : Call) : Bool :=
  (!c.isAccess || !r.builder.isTerminated) &&
    c.values.all fun v => v.inst?.all fun k => (r.answers[k.index]?.join).isSome

/-- Whether every call of a script is in order when it is made. -/
def allowsAll (r : Recording) : List Call → Bool
  | [] => true
  | c :: rest =>
    r.allows c &&
      match r.perform c with
      | .ok r' => r'.allowsAll rest
      | .error _ => true

/-! ## Reading the order of calls -/

lemma isTerminated_of_allows {r : Recording} {c : Call} (h : r.allows c = true)
    (hc : c.isAccess = true) : r.builder.isTerminated = false := by
  unfold allows at h
  rw [Bool.and_eq_true, hc] at h
  simpa using h.1

/-- The values of a call that is in order were answered before. -/
lemma answered_of_allows {r : Recording} {c : Call} (h : r.allows c = true) {k : InstId}
    (hk : Value.inst k ∈ c.values) : (r.answers[k.index]?.join).isSome = true := by
  unfold allows at h
  rw [Bool.and_eq_true] at h
  exact List.all_eq_true.1 h.2 _ hk

lemma allowsAll_cons {r : Recording} {c : Call} {rest : List Call}
    (h : r.allowsAll (c :: rest) = true) :
    r.allows c = true ∧ ∀ r', r.perform c = .ok r' → r'.allowsAll rest = true := by
  unfold allowsAll at h
  rw [Bool.and_eq_true] at h
  refine ⟨h.1, ?_⟩
  intro r' hr'
  rw [hr'] at h
  exact h.2

end Recording

/-- Plays a script and finishes: the function that was built, and the program it was built
from. -/
def build (name : String) (numArgs : Nat) (script : List Call) : Except Error (Func × Program) := do
  let r ← script.foldlM Recording.perform (.start name numArgs)
  let f ← Builder.finish.result r.builder
  return (f, r.program)

end SsaBackend
