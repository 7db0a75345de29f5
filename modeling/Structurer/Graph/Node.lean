/-
**Nodes of a control-flow graph.**

A node holds a body of code and says how control leaves it.  Its predecessors are not its own: they
follow from the exits of the other nodes, and the graph keeps them.
-/

import Structurer.Code.Instruction
import Structurer.Graph.NodeSet

namespace Structurer

/-- How control leaves a node. -/
inductive Exit where
  /-- Control always goes on to `next`. -/
  | seq (next : NodeId)
  /-- The body leaves a condition; control goes on to `ifTrue` if it is not zero. -/
  | branch (ifTrue ifFalse : NodeId)
  /-- The body never falls through: it returns, traps, or jumps to an enclosing loop. -/
  | ret
  deriving DecidableEq, Repr

namespace Exit

/-- The successors, the true arm first. -/
def outputs : Exit → List NodeId
  | seq next => [next]
  | branch ifTrue ifFalse => [ifTrue, ifFalse]
  | ret => []

def targets (e : Exit) (n : NodeId) : Bool := e.outputs.contains n

def map (f : NodeId → NodeId) : Exit → Exit
  | seq next => seq (f next)
  | branch ifTrue ifFalse => branch (f ifTrue) (f ifFalse)
  | ret => ret

def mapM {m : Type → Type} [Monad m] (f : NodeId → m NodeId) : Exit → m Exit
  | seq next => return seq (← f next)
  | branch ifTrue ifFalse => return branch (← f ifTrue) (← f ifFalse)
  | ret => return ret

/-- Every edge to `old` goes to `new` instead. -/
def retarget (e : Exit) (old new : NodeId) : Exit :=
  e.map fun n => if n = old then new else n

/-- The letter of an exit in dumps and fingerprints. -/
def letter : Exit → Char
  | seq _ => 'N'
  | branch _ _ => 'B'
  | ret => 'R'

def isSeq : Exit → Bool
  | seq _ => true
  | _ => false

def isBranch : Exit → Bool
  | branch _ _ => true
  | _ => false

def isRet : Exit → Bool
  | ret => true
  | _ => false

@[simp] theorem outputs_map (f : NodeId → NodeId) (e : Exit) :
    (e.map f).outputs = e.outputs.map f := by
  cases e <;> rfl

end Exit

structure Node where
  /-- The code.  It starts with `inputStack` on the operand stack; a node that goes on leaves
  `outputStack`, and above it a condition if it branches. -/
  body : Body
  inputStack : StackType
  /-- The stack handed on to the successors. -/
  outputStack : StackType
  /-- The predecessors, as the graph keeps them. -/
  inputs : NodeSet
  /-- The position of the node at the last numbering of its graph. -/
  index : Nat
  exit : Exit

namespace Node

def new (body : Body) (inputStack outputStack : StackType) : Node :=
  { body, inputStack, outputStack, inputs := .empty, index := 0, exit := .ret }

/-- The successors, the true arm first. -/
def outputs (n : Node) : List NodeId := n.exit.outputs

end Node

end Structurer
