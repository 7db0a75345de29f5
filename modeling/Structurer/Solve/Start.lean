/-
**Carving out the start of a graph.**

The start of a graph is what the entry reaches without going through some node, its *middle*.  A
start without cycles that nothing leads back into can be solved by itself; one new entry, which
leads to the middle, takes its place.
-/

import Structurer.Engine.Check
import Structurer.Graph.Region
import Structurer.Solve.Jump
import Structurer.Solve.LinearTree

namespace Structurer

open Engine

namespace Start

/-- The nodes before a middle. -/
structure Candidate where
  middle : NodeId
  nodes : List NodeId
  deriving DecidableEq, Repr

/-- Do some nodes have no predecessor outside, and no cycle among them?  Without a cycle all of them
can be taken, each after its predecessors. -/
def isClosedAcyclic (g : Graph) (region : List NodeId) : Except Fault Bool := do
  if ← g.isClosed region none then g.takesAll region else return false

/-- A candidate that is better than the best so far: at least two nodes, at least one node behind
the middle, more nodes than the best, and fit to be carved out. -/
def improve (g : Graph) (best : Option Candidate) (middle : NodeId) :
    Except Fault (Option Candidate) := do
  if middle = g.entry then return best
  let nodes ← g.reachable g.entry (some middle)
  if nodes.length < 2 ∨ nodes.length + 1 ≥ g.size then return best
  if ((best.map (·.nodes.length)).getD 0) ≥ nodes.length then return best
  return if ← isClosedAcyclic g nodes then some ⟨middle, nodes⟩ else best

/-- The largest start, of equally large ones the first in the order of the middles. -/
def find (g : Graph) : Except Fault (Option Candidate) := g.ids.foldlM (improve g) none

end Start

/-- The graph with its largest start replaced by one node, or nothing if there is no start. -/
def extractStart (g : Graph) : EngineM (Option Graph) := do
  match ← Start.find g with
  | none => return none
  | some ⟨middle, nodes⟩ =>
      let middleNode ← g.node middle
      emit (.extractingStart nodes.length middleNode.index)
      let label ← freshLabel
      let first ← freshFlag "firstRun"
      let middleStack := middleNode.inputStack
      let jump (_ : NodeId) : EngineM Body := return (← storeStack middleStack) ++ [.br label]
      let entry := g.entry
      let g ← nodes.foldlM (inlineExits (· == middle) jump) g
      let entryStack := (← g.node entry).inputStack
      match ← g.splitOff nodes entry with
      | .error e => throw (.error (← violation g e.message))
      | .ok (start, g) =>
          match ← withLoop label (solveLinearTree start [] .unconditional) with
          | none => throw (.error (← violation start "start nodes have a cycle"))
          | some startBody =>
              let store ← storeStack entryStack
              let load ← loadStack middleStack
              let body := store ++ oneShotLoop label first startBody [] ++ load
              let (id, g) := g.addNode (.new body entryStack middleStack)
              let g ← g.setExit id (.seq middle)
              return some { g with entry := id }.renumber

end Structurer
