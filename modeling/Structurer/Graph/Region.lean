/-
**Splitting a region off a graph.**

A region is a set of nodes that no edge enters or leaves.  It can be moved into a graph of its own:
its nodes get new identifiers there, in the order in which the region lists them.
-/

import Structurer.Graph.Basic

namespace Structurer

inductive SplitError where
  | entryOutside (entry : NodeId)
  | crossing (source target : NodeId)
  deriving DecidableEq, Repr

def SplitError.message : SplitError → String
  | entryOutside entry => "region entry " ++ entry.title ++ " is not in the region"
  | crossing source target =>
      "edge " ++ source.title ++ " -> " ++ target.title ++ " crosses the region boundary"

namespace Graph

/-- The first edge, in the order of the nodes, with one end inside a region and one outside. -/
def crossing? (g : Graph) (region : List NodeId) : Option SplitError :=
  g.nodes.findSome? fun (id, n) =>
    (n.outputs.find? fun out => region.contains id != region.contains out).map (.crossing id ·)

/-- Several nodes taken out, one after the other. -/
def removeNodes (g : Graph) : List NodeId → Except Fault (List Node × Graph)
  | [] => .ok ([], g)
  | id :: ids => do
      let (n, g) ← g.removeNode id
      let (ns, g) ← g.removeNodes ids
      return (n :: ns, g)

/-- Have the nodes of a region no predecessor outside, one of them apart? -/
def isClosed (g : Graph) (region : List NodeId) (apart : Option NodeId) : Except Fault Bool :=
  region.allM fun id =>
    if some id = apart then pure true else return (← g.node id).inputs.toList.all (· ∈ region)

/-- The identifier of a node in the graph of its region. -/
def newId (region : List NodeId) (id : NodeId) : Except Fault NodeId := return ⟨← positionOf region id⟩

/-- The graph of a region's nodes, whose identifiers are their positions in the region. -/
def ofRegion (region : List NodeId) (nodes : List Node) (entry : NodeId) : Except Fault Graph := do
  let nodes ← nodes.mapM fun n => return { n with exit := ← n.exit.mapM (newId region) }
  let g : Graph :=
    { nodes := nodes.mapIdx fun k n => (⟨k⟩, n)
      nextSerial := nodes.length
      entry := ← newId region entry }
  return g.recalculateInputs.renumber

/-- The region as a graph with the given entry, and the graph without it; or the reason why the
nodes are no region.  A region that lists a node twice, or one that is not in the graph, is a
fault. -/
def splitOff (g : Graph) (region : List NodeId) (entry : NodeId) :
    Except Fault (Except SplitError (Graph × Graph)) :=
  if region.contains entry then
    match g.crossing? region with
    | some e => .ok (.error e)
    | none => do
        let (nodes, rest) ← g.removeNodes region
        return .ok (← ofRegion region nodes entry, rest)
  else .ok (.error (.entryOutside entry))

end Graph

end Structurer
