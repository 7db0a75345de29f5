/-
**Failures of the stack check.**
-/

import Structurer.Label
import Structurer.Locals

namespace Structurer

inductive VerifyCause where
  /-- The stack has not the shape it should have. -/
  | stackMismatch (expected actual : StackType)
  /-- A value was to be popped from an empty stack. -/
  | emptyStack
  | unknownLocal (id : LocalId)
  /-- A jump to a loop that does not enclose it. -/
  | unknownLabel (label : LoopLabel)
  /-- A body that must not fall through does. -/
  | fallsThrough
  /-- The stack at a jump has not the shape of the loop's parameters. -/
  | branchMismatch (label : LoopLabel) (expected actual : StackType)
  deriving DecidableEq, Repr

def VerifyCause.message : VerifyCause → String
  | stackMismatch expected actual =>
      "expected stack " ++ StackType.title expected ++ " but found " ++ StackType.title actual
  | emptyStack => "pop from an empty stack"
  | unknownLocal id => "unknown local " ++ id.title
  | unknownLabel label => "unknown label " ++ label.title
  | fallsThrough => "body falls through"
  | branchMismatch label expected actual =>
      "branch to " ++ label.title ++ " expects " ++ StackType.title expected ++
        " on the stack but found " ++ StackType.title actual

/-- Where the stack check failed. -/
structure Location where
  node : Option Nat
  /-- The positions that lead to the instruction; none at the end of the whole body. -/
  path : List Nat
  /-- The first line of the instruction. -/
  instruction : String
  deriving DecidableEq, Repr

def Location.nowhere : Location := ⟨none, [], ""⟩

structure VerifyError where
  location : Location
  cause : VerifyCause
  deriving DecidableEq, Repr

/-- The spelling of a list of positions: `[0, 1]`. -/
def pathTitle (path : List Nat) : String :=
  "[" ++ ", ".intercalate (path.map toString) ++ "]"

def VerifyError.message (e : VerifyError) : String :=
  (match e.location.node with
    | some k => "node " ++ toString k ++ ": "
    | none => "") ++
  (if e.location.path.isEmpty then ""
    else "at " ++ pathTitle e.location.path ++ " `" ++ e.location.instruction ++ "`: ") ++
  e.cause.message

end Structurer
