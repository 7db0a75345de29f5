/-
**Carving out the end of a graph.**

The end of a graph is made of the nodes from which no cycle can be reached.  They are acyclic, so
they are solved as a tree of their own.  An edge from the rest into the end becomes code that sets
a flag for its target and jumps back to the header of a loop around both halves: the first time
around the loop runs the rest, the second time the end.
-/

import Structurer.Engine.Check
import Structurer.Graph.Ends
import Structurer.Graph.Region
import Structurer.Solve.Jump
import Structurer.Solve.LinearTree

namespace Structurer

open Engine

namespace Finish

/-- Is an end worth carving out: several nodes, or one with several predecessors? -/
def isWorthIt (g : Graph) : List NodeId → Except Fault Bool
  | [] => return false
  | [id] => return (← g.node id).inputs.size > 1
  | _ => return true

/-- The indices of some nodes. -/
def indicesOf (g : Graph) (nodes : List NodeId) : Except Fault (List (NodeId × Nat)) :=
  nodes.mapM fun id => return (id, (← g.node id).index)

/-- The flags of the end's nodes, in the order they were made. -/
abbrev Flags := List (NodeId × LocalId)

/-- The flag of a node of the end, made on first use. -/
def flagOf (indices : List (NodeId × Nat)) (target : NodeId) : StateT Flags EngineM LocalId := do
  match (← get).lookup target with
  | some flag => return flag
  | none =>
      let index ← (entryOf indices target : Except Fault Nat)
      let flag ← freshFlag ("endNode" ++ toString index)
      modify (· ++ [(target, flag)])
      return flag

/-- Code that goes from a node to a node of the end: it parks the stack, sets the flag of the
target and jumps back. -/
def jump (indices : List (NodeId × Nat)) (label : LoopLabel) (stack : StackType)
    (target : NodeId) : StateT Flags EngineM Body := do
  let flag ← flagOf indices target
  return (← storeStack stack) ++ [.i32Const 1, .localSet flag, .br label]

/-- The edges of a node into the end become jumps. -/
def cutNode (finish : List NodeId) (indices : List (NodeId × Nat)) (label : LoopLabel) (g : Graph)
    (id : NodeId) : StateT Flags EngineM Graph := do
  let stack := (← (g.node id : Except Fault Node)).outputStack
  inlineExits (· ∈ finish) (jump indices label stack) g id

end Finish

open Finish in
/-- The node of a graph whose end is worth carving out, or nothing if it is not.  `solve` solves
the rest. -/
def extractFinish (solve : Graph → EngineM Node) (g : Graph) : EngineM (Option Node) := do
  let finish ← g.ends
  match finish with
  | [] => return none
  | head :: _ =>
      if !(← isWorthIt g finish) || g.entry ∈ finish then return none
      emit (.extractingEnd finish.length g.size)
      let label ← freshLabel
      let first ← freshFlag "firstRun"
      let entry := g.entry
      let rest := g.ids.filter (· ∉ finish)
      let indices ← indicesOf g finish
      let (g, flags) ← (rest.foldlM (cutNode finish indices label) g).run []
      match ← g.splitOff finish head with
      | .error e => throw (.error (← violation g e.message))
      | .ok (ending, g) =>
          let extra := (finish.zip ending.ids).filterMap fun (old, new) =>
            (flags.lookup old).map fun flag => (new, flag)
          let entryStack := (← g.node entry).inputStack
          let main ← withLoop label (solve g)
          match ← solveLinearTree ending extra .flagsOnly with
          | none => throw (.error (← violation ending "end nodes have a cycle"))
          | some endBody =>
              let load ← loadStack entryStack
              let store ← storeStack entryStack
              let once := load ++ main.body ++ [.unreachable]
              let body := store ++ LinearTree.clear (flags.map (·.2)) ++
                oneShotLoop label first once endBody ++ [.unreachable]
              return some (.new body entryStack [])

end Structurer
