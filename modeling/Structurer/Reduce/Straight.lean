/-
**Rules that clear the ground.**

These rules need no structured control flow: they settle branches whose outcome is known, take out
nodes that do nothing or are there twice, and merge straight lines of nodes.
-/

import Structurer.Engine.Context
import Structurer.Graph.Reach
import Structurer.Reduce.Site

namespace Structurer.Reduce

open Engine

/-! ### Branches whose outcome is known -/

/-- A branch on a constant: its node, the position of the constant, and where control goes. -/
def constantBranch? (g : Graph) : Option (NodeId × Nat × NodeId) :=
  g.nodes.findSome? fun (id, n) =>
    match n.exit with
    | .branch ifTrue ifFalse => do
        let k ← n.body.lastReal?
        match ← n.body[k]? with
        | .i32Const v => some (id, k, if v ≠ 0 then ifTrue else ifFalse)
        | _ => none
    | _ => none

/-- A branch on a constant always goes the same way. -/
def foldConstantBranch (g : Graph) : Except Fault (Option Graph) :=
  match constantBranch? g with
  | none => .ok none
  | some (id, k, next) => do
      let g := g.modify id fun n => { n with body := n.body.eraseIdx k }
      return some (← g.setExit id (.seq next))

/-- A branch with both arms to one node. -/
def trivialBranch? (g : Graph) : Option (NodeId × NodeId) :=
  g.nodes.findSome? fun (id, n) =>
    match n.exit with
    | .branch ifTrue ifFalse => if ifTrue = ifFalse then some (id, ifTrue) else none
    | _ => none

/-- A branch with both arms to one node only drops its condition. -/
def removeTrivialBranch (g : Graph) : EngineM (Option Graph) := do
  match trivialBranch? g with
  | none => return none
  | some (id, next) =>
      let note ← comment "both branches go to the same node"
      let g := g.modify id fun n => { n with body := n.body ++ note ++ [.drop] }
      return some (← g.setExit id (.seq next))

/-! ### Nodes that are not needed -/

/-- Nodes that the entry does not reach go away. -/
def removeUnreachable (g : Graph) : EngineM (Option Graph) := do
  let (gone, g) ← g.removeUnreachable
  if gone.isEmpty then return none
  emit (.removedUnreachable gone)
  return some g

/-- A node without code that leads to another node. -/
def emptyNode? (g : Graph) : Option (NodeId × NodeId) :=
  g.nodes.findSome? fun (id, n) =>
    match n.exit with
    | .seq next => if next ≠ id && n.body.hasNoCode then some (id, next) else none
    | _ => none

/-- The graph with another entry in the place of `old`. -/
def moveEntry (g : Graph) (old new : NodeId) : Graph :=
  if g.entry = old then { g with entry := new } else g

/-- A node without code only forwards to its successor. -/
def bypassEmptyNode (g : Graph) : Except Fault (Option Graph) :=
  match emptyNode? g with
  | none => .ok none
  | some (id, next) => do
      let g ← g.redirectInputs id next
      return some ((moveEntry g id next).erase id)

/-- May two nodes be one: the same code, stacks and successors, and neither among the latter? -/
def sameNode (keepId dupId : NodeId) (keep dup : Node) : Bool :=
  keep.exit == dup.exit && !keep.exit.targets keepId && !keep.exit.targets dupId &&
    keep.inputStack == dup.inputStack && keep.outputStack == dup.outputStack &&
    Body.sameCode keep.body dup.body

/-- The first pair of nodes, in the order of a list, that may be one.  The entry is not given up. -/
def duplicates? (entry : NodeId) : List (NodeId × Node) → Option (NodeId × NodeId)
  | [] => none
  | (keepId, keep) :: rest =>
      match rest.find? fun (dupId, dup) => dupId ≠ entry && sameNode keepId dupId keep dup with
      | some (dupId, _) => some (keepId, dupId)
      | none => duplicates? entry rest

/-- Two nodes with the same code, stacks and successors become one. -/
def mergeDuplicates (g : Graph) : Except Fault (Option Graph) :=
  match duplicates? g.entry g.nodes with
  | none => .ok none
  | some (keep, duplicate) => do
      let g ← g.redirectInputs duplicate keep
      return some (g.erase duplicate)

/-! ### Straight lines -/

def isSeq (g : Graph) (id : NodeId) : Except Fault Bool := return (← g.node id).exit.isSeq

/-- A short node that returns, with a predecessor that always goes on to it.  Nested bodies are
never short. -/
def smallReturn? (g : Graph) (limit : Nat) : Except Fault (Option (NodeId × Node)) :=
  g.nodes.findM? fun (id, n) => do
    if n.exit = .ret ∧ id ≠ g.entry ∧ n.body.real.length < limit ∧
        ¬ n.body.any (·.isStructured) then
      n.inputs.toList.anyM (isSeq g)
    else return false

/-- Predecessors of a node that returns do by themselves what it does. -/
def returnFrom (body : Body) (g : Graph) (pred : NodeId) : Except Fault Graph :=
  (g.modify pred fun n => { n with body := n.body ++ body }).setExit pred .ret

/-- A short node that returns is copied into the predecessors that always go on to it. -/
def inlineSmallReturn (limit : Nat) (g : Graph) : Except Fault (Option Graph) := do
  match ← smallReturn? g limit with
  | none => return none
  | some (id, n) =>
      let preds ← n.inputs.toList.filterM (isSeq g)
      let g ← preds.foldlM (returnFrom n.body) g
      return some (g.eraseOrphan id)

/-- A node whose only predecessor always goes on to it: the predecessor and the node. -/
def sequence? (g : Graph) : Except Fault (Option (NodeId × NodeId)) :=
  g.nodes.findSomeM? fun (id, n) => do
    match n.inputs.toList with
    | [prev] =>
        if id ≠ g.entry ∧ prev ≠ id then
          return if ← isSeq g prev then some (prev, id) else none
        else return none
    | _ => return none

/-- A node whose only predecessor always goes on to it absorbs that predecessor. -/
def mergeSequence (g : Graph) : Except Fault (Option Graph) := do
  match ← sequence? g with
  | none => return none
  | some (prev, curr) =>
      let g ← g.redirectInputs prev curr
      let (first, g) ← g.removeNode prev
      let g := g.modify curr fun n =>
        { n with body := first.body ++ n.body, inputStack := first.inputStack }
      return some (moveEntry g prev curr)

end Structurer.Reduce
