/-
**Rules that turn cycles into loops.**

A cycle of one or two nodes becomes a loop inside one node.
-/

import Structurer.Engine.Context
import Structurer.Reduce.Site

namespace Structurer.Reduce

open Engine

/-! ### Cycles of one node -/

/-- A node that always goes back to itself. -/
def endless? (g : Graph) : Option NodeId :=
  (g.nodes.find? fun (id, n) => n.exit == .seq id).map (·.1)

/-- A node that always goes back to itself becomes a loop without an end. -/
def makeEndlessLoop (g : Graph) : EngineM (Option Graph) := do
  match endless? g with
  | none => return none
  | some id =>
      let label ← freshLabel
      let g := g.modify id fun n =>
        { n with body := [.loop label n.inputStack [] (n.body ++ [.br label]), .unreachable] }
      return some (← g.setExit id .ret)

/-- An arm that goes back to its branch, beside another arm that leaves it. -/
def while? (g : Graph) : Except Fault (Option (NodeId × Arm)) :=
  g.firstArm? fun id arm => return arm.target == id && arm.other != id

/-- A branch with one arm back to itself becomes a loop that ends by a conditional jump. -/
def makeWhileLoop (g : Graph) : EngineM (Option Graph) := do
  match ← while? g with
  | none => return none
  | some (id, arm) =>
      let label ← freshLabel
      let g := g.modify id fun n =>
        { n with
          body := [.loop label n.inputStack n.outputStack (arm.toward n.body ++ [.brIf label])] }
      return some (← g.setExit id (.seq arm.other))

/-! ### Cycles of two nodes -/

/-- Two nodes that go on to each other, one of them entered only from the other: the one to keep
and the one to absorb. -/
def twoNodeCycle? (g : Graph) : Except Fault (Option (NodeId × NodeId)) :=
  g.nodes.findSomeM? fun (first, n) => do
    match n.exit with
    | .seq second =>
        if second = first then return none
        unless ← g.hasExit second (.seq first) do return none
        if ← g.onlyInput second first then return some (first, second)
        if ← g.onlyInput first second then return some (second, first)
        return none
    | _ => return none

/-- Two nodes that go on to each other become one that goes back to itself. -/
def mergeTwoNodeCycle (g : Graph) : Except Fault (Option Graph) := do
  match ← twoNodeCycle? g with
  | none => return none
  | some (keep, absorbed) =>
      let (last, g) ← g.removeNode absorbed
      let g := g.modify keep fun n =>
        { n with body := n.body ++ last.body, outputStack := last.outputStack }
      return some (← g.setExit keep (.seq keep))

/-- The branch at the head of a circle becomes a loop: its body, and then, if control takes the
arm, the rest of the circle, which jumps back. -/
def closeCircle (g : Graph) (id : NodeId) (arm : Arm) (label : LoopLabel) (circle : Body) :
    Except Fault Graph :=
  let g := g.modify id fun n =>
    { n with
      body := [.loop label n.inputStack n.outputStack
        (arm.toward n.body ++ [.cond n.outputStack n.outputStack circle []])] }
  g.setExit id (.seq arm.other)

/-- An arm that always leads back to its branch and is entered only from there. -/
def smallCircle? (g : Graph) : Except Fault (Option (NodeId × Arm)) :=
  g.firstArm? fun id arm =>
    if arm.target ≠ arm.other ∧ arm.target ≠ id ∧ arm.other ≠ id then
      g.hasExit arm.target (.seq id) <&&> g.onlyInput arm.target id
    else return false

/-- A branch with an arm that always leads back to it becomes a loop. -/
def makeSmallCircle (g : Graph) : EngineM (Option Graph) := do
  match ← smallCircle? g with
  | none => return none
  | some (id, arm) =>
      let label ← freshLabel
      let (circle, g) ← g.removeNode arm.target
      return some (← closeCircle g id arm label (circle.body ++ [.br label]))

/-- An arm that branches back to its branch or to the other arm, and is entered only from its
branch. -/
def twoExitCircle? (g : Graph) : Except Fault (Option (NodeId × Arm)) :=
  g.firstArm? fun id arm => do
    let exit := (← g.node arm.target).exit
    if exit.isBranch ∧ arm.target ≠ arm.other ∧ arm.target ≠ id ∧ arm.other ≠ id then
      if ← g.onlyInput arm.target id then
        return exit == .branch id arm.other || exit == .branch arm.other id
      else return false
    else return false

/-- A branch with an arm that branches back to it or to the other arm becomes a loop. -/
def makeTwoExitCircle (g : Graph) : EngineM (Option Graph) := do
  match ← twoExitCircle? g with
  | none => return none
  | some (id, arm) =>
      let label ← freshLabel
      let (circle, g) ← g.removeNode arm.target
      let body := if circle.exit = .branch id arm.other then circle.body else circle.body.negate
      return some (← closeCircle g id arm label (body ++ [.brIf label]))

end Structurer.Reduce
