/-
**Places where a rule applies.**

A reduction rule looks for the first place in a graph that has its shape, and reduces it.  This
module holds what the rules have in common: the two views of a branch's arms, the search in the
order of the nodes, and the conditions under which a node may be absorbed into another.
-/

import Structurer.Code.Body
import Structurer.Graph.Basic

namespace Structurer

structure Arm where
  target : NodeId
  other : NodeId
  /-- Is this the arm taken when the condition holds? -/
  isTrue : Bool
  deriving DecidableEq, Repr

/-- Both arms of a branch, the true one first. -/
def Exit.arms : Exit → List Arm
  | .branch ifTrue ifFalse => [⟨ifTrue, ifFalse, true⟩, ⟨ifFalse, ifTrue, false⟩]
  | _ => []

/-- The body that leaves a condition which holds when control takes the arm. -/
def Arm.toward (arm : Arm) (body : Body) : Body :=
  if arm.isTrue then body else body.negate

namespace Graph

/-- The first arm, in the order of the nodes, with a property of its branch and itself. -/
def firstArm? (g : Graph) (p : NodeId → Arm → Except Fault Bool) :
    Except Fault (Option (NodeId × Arm)) :=
  g.nodes.findSomeM? fun (id, n) => do
    return (← n.exit.arms.findM? (p id)).map fun arm => (id, arm)

/-- Is `pred` the one and only way into a node? -/
def onlyInput (g : Graph) (target pred : NodeId) : Except Fault Bool := do
  let n ← g.node target
  return target ≠ g.entry && n.inputs.toList == [pred]

/-- May the body of a node be put into `pred`?  Without duplication, `pred` must be the only way
into the node. -/
def canAbsorb (g : Graph) (duplication : Bool) (target pred : NodeId) : Except Fault Bool := do
  if target = pred ∨ target = g.entry then return false
  let n ← g.node target
  return n.inputs.toList == [pred] || duplication

/-- The graph without a node that nothing leads to any more, unless it is the entry. -/
def eraseOrphan (g : Graph) (id : NodeId) : Graph :=
  match g.get? id with
  | some n => if n.inputs.toList.isEmpty && id ≠ g.entry then g.erase id else g
  | none => g

def setBody (g : Graph) (id : NodeId) (body : Body) : Graph :=
  g.modify id fun n => { n with body }

def hasExit (g : Graph) (id : NodeId) (exit : Exit) : Except Fault Bool :=
  return (← g.node id).exit == exit

end Graph

end Structurer
