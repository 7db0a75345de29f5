/-
**Properties of code.**

What the structuring passes need to know about a body: whether execution can reach its end, what
is left of it without comments, and how to invert the condition it computes.
-/

import Structurer.Code.Instruction

namespace Structurer

/-! ### Falling through -/

mutual

/-- Can execution continue with the next instruction? -/
def Instruction.canFallThrough : Instruction → Bool
  | .br _ => false
  | .ret => false
  | .unreachable => false
  | .cond _ _ t e => Body.fallsThrough t || Body.fallsThrough e
  | .loop _ _ _ b => Body.fallsThrough b
  | .switch _ cs => Body.someFallsThrough cs
  | _ => true

/-- Can execution reach the end of a body? -/
def Body.fallsThrough : List Instruction → Bool
  | [] => true
  | i :: is => Instruction.canFallThrough i && Body.fallsThrough is

/-- Can execution reach the end of one of several bodies? -/
def Body.someFallsThrough : List (List Instruction) → Bool
  | [] => false
  | b :: bs => Body.fallsThrough b || Body.someFallsThrough bs

end

namespace Body

@[simp] theorem fallsThrough_append (a b : Body) :
    Body.fallsThrough (a ++ b) = (Body.fallsThrough a && Body.fallsThrough b) := by
  induction a with
  | nil => simp [Body.fallsThrough]
  | cons i is ih => simp [Body.fallsThrough, ih, Bool.and_assoc]

/-! ### Comments -/

/-- The instructions of a body that are not comments. -/
def real (body : Body) : Body := body.filter (!·.isComment)

@[simp] theorem real_append (a b : Body) : real (a ++ b) = real a ++ real b := by
  simp [real]

/-- Does a body hold comments only? -/
def hasNoCode (body : Body) : Bool := body.all (·.isComment)

/-- Are two bodies the same, their own comments aside?  Comments nested inside an instruction
count. -/
def sameCode (a b : Body) : Bool := Body.same (real a) (real b)

/-- The position of the last instruction that is not a comment. -/
def lastReal? : Body → Option Nat
  | [] => none
  | i :: is =>
      match lastReal? is with
      | some k => some (k + 1)
      | none => if i.isComment then none else some 0

/-! ### Conditions -/

/-- The test for zero, which inverts any condition. -/
def eqz : Instruction := .numeric .i32Eqz

def isEqzAt (body : Body) (k : Nat) : Bool :=
  (body[k]?.bind (·.numericOp?)) == some .i32Eqz

/-- The body with the opposite condition.  A comparison is replaced by its inverse, of two tests
for zero in a row the second is taken away, and anything else gets a test for zero. -/
def negate (body : Body) : Body :=
  match lastReal? body with
  | none => body ++ [eqz]
  | some k =>
      match (body[k]?.bind (·.numericOp?)).bind NumericOp.inverse with
      | some op => body.set k (.numeric op)
      | none =>
          if isEqzAt body k && decide (0 < k) && isEqzAt body (k - 1) then body.eraseIdx k
          else body ++ [eqz]

end Body

end Structurer
