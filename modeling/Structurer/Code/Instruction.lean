/-
**Instructions.**

The bodies of graph nodes are lists of instructions.  Control flow inside a body is structured:
`if`, `loop` and `switch` hold the bodies nested in them, and the only jumps go back to the header
of an enclosing loop.
-/

import Structurer.Code.NumericOp
import Structurer.Label
import Structurer.Locals
import Structurer.Number.Binary

namespace Structurer

open Number (Binary Format)

inductive Instruction where
  | i32Const (value : Int32)
  | i64Const (value : Int64)
  | f32Const (value : Binary .single)
  | f64Const (value : Binary .double)
  | localGet (id : LocalId)
  | localSet (id : LocalId)
  | numeric (op : NumericOp)
  | drop
  /-- A call of a function of which only the type is known. -/
  | call (name : String) (inputs outputs : StackType)
  /-- A remark for people, without effect. -/
  | comment (text : String)
  /-- Pops a condition and runs one of the two arms. -/
  | cond (params results : StackType) (thenBody elseBody : List Instruction)
  /-- A loop, whose header is where a jump to the label inside the body goes. -/
  | loop (label : LoopLabel) (params results : StackType) (body : List Instruction)
  | br (label : LoopLabel)
  | brIf (label : LoopLabel)
  /-- Runs the case whose index the selector holds, and traps if there is none.  A case takes
  nothing from the stack and leaves nothing on it; one that falls through continues after the
  whole switch. -/
  | switch (selector : LocalId) (cases : List (List Instruction))
  | unreachable
  | ret

abbrev Body := List Instruction

mutual

/-- Are two instructions the same?  Floating-point constants compare as numbers: a NaN differs
from itself, and the two zeros are the same. -/
def Instruction.same : Instruction → Instruction → Bool
  | .i32Const a, .i32Const b => a == b
  | .i64Const a, .i64Const b => a == b
  | .f32Const a, .f32Const b => a.equal b
  | .f64Const a, .f64Const b => a.equal b
  | .localGet a, .localGet b => a == b
  | .localSet a, .localSet b => a == b
  | .numeric a, .numeric b => a == b
  | .drop, .drop => true
  | .call n i o, .call n' i' o' => n == n' && i == i' && o == o'
  | .comment a, .comment b => a == b
  | .cond p r t e, .cond p' r' t' e' =>
      p == p' && r == r' && Body.same t t' && Body.same e e'
  | .loop l p r b, .loop l' p' r' b' => l == l' && p == p' && r == r' && Body.same b b'
  | .br a, .br b => a == b
  | .brIf a, .brIf b => a == b
  | .switch s cs, .switch s' cs' => s == s' && Body.sameCases cs cs'
  | .unreachable, .unreachable => true
  | .ret, .ret => true
  | _, _ => false

def Body.same : List Instruction → List Instruction → Bool
  | [], [] => true
  | a :: as, b :: bs => Instruction.same a b && Body.same as bs
  | _, _ => false

def Body.sameCases : List (List Instruction) → List (List Instruction) → Bool
  | [], [] => true
  | a :: as, b :: bs => Body.same a b && Body.sameCases as bs
  | _, _ => false

end

namespace Instruction

def isComment : Instruction → Bool
  | comment _ => true
  | _ => false

/-- Does the instruction hold nested bodies? -/
def isStructured : Instruction → Bool
  | cond .. => true
  | loop .. => true
  | switch .. => true
  | _ => false

def numericOp? : Instruction → Option NumericOp
  | numeric op => some op
  | _ => none

end Instruction

end Structurer
