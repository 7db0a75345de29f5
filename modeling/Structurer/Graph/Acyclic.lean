/-
**Topological orders.**

For a graph without any cycle, an order is found in which every node comes after its predecessors.
Whether some nodes of a graph are on no cycle is found out in the same way; only the order in which
nodes are taken differs.
-/

import Structurer.Graph.Basic

namespace Structurer.Graph

/-- How many edges into each node are still to come. -/
abbrev Pending := List (NodeId × Nat)

/-- The predecessors of some nodes, counted. -/
def pendingOf (g : Graph) (nodes : List NodeId) : Except Fault Pending :=
  nodes.mapM fun id => return (id, (← g.node id).inputs.size)

/-- The nodes for which nothing is counted. -/
def Pending.free (pending : Pending) : List NodeId := (pending.filter (·.2 = 0)).map (·.1)

/-- An edge into a node is done.  The node comes with it if this was the last one.  Edges into nodes
that are not counted do not matter; one edge more than was counted is a fault. -/
def arrive (pending : Pending) (id : NodeId) : Except Fault (Pending × List NodeId) :=
  match pending.lookup id with
  | none => .ok (pending, [])
  | some 0 => .error (.underflow id)
  | some (k + 1) =>
      .ok (pending.map fun (i, m) => if i = id then (i, k) else (i, m),
        if k = 0 then [id] else [])

/-- The edges into several nodes are done, one after the other. -/
def arriveAll (pending : Pending) : List NodeId → Except Fault (Pending × List NodeId)
  | [] => .ok (pending, [])
  | id :: ids => do
      let (pending, ready) ← arrive pending id
      let (pending, ready') ← arriveAll pending ids
      return (pending, ready ++ ready')

/-- Nodes are taken from the front of `ready`, and `join` tells where those go that become ready by
that.  `fuel` bounds the number of nodes taken. -/
def takeReady (g : Graph) (join : (ready fresh : List NodeId) → List NodeId) :
    (fuel : Nat) → Pending → (ready : List NodeId) → Except Fault (List NodeId)
  | 0, _, _ => .ok []
  | _, _, [] => .ok []
  | fuel + 1, pending, id :: ready => do
      let n ← g.node id
      let (pending, fresh) ← arriveAll pending n.outputs
      return id :: (← g.takeReady join fuel pending (join ready fresh))

/-- An order of all nodes in which each comes after its predecessors, if the graph has no cycle.
The entry comes first if nothing leads to it; other ties go by the order of the graph, and nodes that
become ready wait behind those that are. -/
def sort (g : Graph) : Except Fault (Option (List NodeId)) := do
  let pending ← g.pendingOf g.ids
  let free := pending.free
  let order ← g.takeReady (fun ready fresh => ready ++ g.ids.filter (· ∈ fresh)) g.size pending
    (free.filter (· = g.entry) ++ free.filter (· ≠ g.entry))
  return if order.length = g.size then some order else none

def topologicalOrder (g : Graph) : Option (List NodeId) :=
  match g.sort with
  | .ok order => order
  | .error _ => none

/-- Can all of some nodes be taken, each after its predecessors?  The node that became ready last is
taken first. -/
def takesAll (g : Graph) (nodes : List NodeId) : Except Fault Bool := do
  let pending ← g.pendingOf nodes
  let taken ← g.takeReady (fun ready fresh => fresh.reverse ++ ready) nodes.length pending
    pending.free.reverse
  return taken.length = nodes.length

end Structurer.Graph
