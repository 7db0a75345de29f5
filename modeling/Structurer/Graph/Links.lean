/-
**Agreement of edges and predecessors.**

A graph is consistent when its entry is one of its nodes, every edge leads to a node that lists
the edge's source as a predecessor, and every predecessor listed has such an edge.
-/

import Structurer.Graph.Basic

namespace Structurer

/-- How edges and predecessors can disagree. -/
inductive LinkError where
  | entryMissing (entry : NodeId)
  | targetMissing (source target : NodeId)
  | inputMissing (source target : NodeId)
  | edgeMissing (target source : NodeId)
  deriving DecidableEq, Repr

def LinkError.message : LinkError → String
  | entryMissing entry => "entry " ++ entry.title ++ " is not in the graph"
  | targetMissing source target => source.title ++ " targets missing node " ++ target.title
  | inputMissing source target =>
      source.title ++ " targets " ++ target.title ++ ", which doesn't list it as an input"
  | edgeMissing target source =>
      target.title ++ " lists " ++ source.title ++ " as an input, but there is no such edge"

namespace Graph

/-- The disagreement of one edge. -/
def outputError? (g : Graph) (source target : NodeId) : Option LinkError :=
  match g.get? target with
  | none => some (.targetMissing source target)
  | some n => if n.inputs.contains source then none else some (.inputMissing source target)

/-- The disagreement of one predecessor. -/
def inputError? (g : Graph) (target source : NodeId) : Option LinkError :=
  match g.get? source with
  | some n => if n.exit.targets target then none else some (.edgeMissing target source)
  | none => some (.edgeMissing target source)

/-- The first disagreement of a graph. -/
def linkError? (g : Graph) : Option LinkError :=
  if !g.nodes.isEmpty && !g.contains g.entry then some (.entryMissing g.entry)
  else g.nodes.findSome? fun (id, n) =>
    (n.outputs.findSome? (g.outputError? id)).or (n.inputs.toList.findSome? (g.inputError? id))

def checkLinks (g : Graph) : Except LinkError Unit :=
  match g.linkError? with
  | some e => .error e
  | none => .ok ()

end Graph

end Structurer
