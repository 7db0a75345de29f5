/-
**Reachability.**

The nodes that control can reach from a node, in breadth-first order, the true arm of a branch
before the false one.  The walk may be told to stop short of one node.
-/

import Structurer.Graph.Basic

namespace Structurer.Graph

/-- The queue of a walk with the successors of a node added, except those already met. -/
def enqueue (avoid : Option NodeId) (reached queue outputs : List NodeId) : List NodeId :=
  outputs.foldl
    (fun queue out =>
      if some out = avoid ∨ out ∈ reached ∨ out ∈ queue then queue else queue ++ [out])
    queue

/-- The walk: `reached` holds the nodes already left, `queue` those to come.  `fuel` bounds the
number of nodes left. -/
def walk (g : Graph) (avoid : Option NodeId) :
    (fuel : Nat) → (reached queue : List NodeId) → Except Fault (List NodeId)
  | 0, reached, _ => .ok reached
  | _, reached, [] => .ok reached
  | fuel + 1, reached, id :: queue => do
      let n ← g.node id
      let reached := reached ++ [id]
      g.walk avoid fuel reached (enqueue avoid reached queue n.outputs)

/-- The nodes reachable from `start`, itself included, in breadth-first order.  The walk does not
enter `avoid`.  No node is left twice, so the number of nodes bounds the walk. -/
def reachable (g : Graph) (start : NodeId) (avoid : Option NodeId) :
    Except Fault (List NodeId) :=
  g.walk avoid (g.size + 1) [] (if some start = avoid then [] else [start])

/-- The graph without the nodes that the entry does not reach, and those nodes. -/
def removeUnreachable (g : Graph) : Except Fault (List NodeId × Graph) := do
  let reached ← g.reachable g.entry none
  let gone := g.ids.filter (· ∉ reached)
  return (gone, gone.foldl erase g)

/-- The nodes in breadth-first order from the entry; those it does not reach keep their order at
the end. -/
def sortBreadthFirst (g : Graph) : Except Fault Graph := do
  let reached ← g.reachable g.entry none
  let front := reached.filterMap fun id => (g.get? id).map fun n => (id, n)
  let back := g.nodes.filter (·.1 ∉ reached)
  return { g with nodes := front ++ back }.renumber

end Structurer.Graph
