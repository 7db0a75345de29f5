/-
**Structuring a method.**

Ways to solve a graph are tried from the most to the least readable one:

1. the reducer folds small shapes into single nodes until nothing matches any more;
2. an acyclic graph is solved as a tree of guarded code;
3. an acyclic start of the graph is carved out, and everything begins again;
4. the nodes that reach no cycle are carved out and solved by themselves;
5. the graph is split at a node that separates it in two;
6. everything else becomes a dispatch loop.

The last way always works, so structuring fails only on a graph that is broken to begin with.
-/

import Structurer.Reduce.Reducer
import Structurer.Solve.Dispatch
import Structurer.Solve.Finish
import Structurer.Solve.Split
import Structurer.Solve.Start

namespace Structurer

open Engine

/-- A node that leads nowhere but whose code ends still has to return. -/
def Node.closed (n : Node) : Node :=
  if n.exit.isRet && Body.fallsThrough n.body then { n with body := n.body ++ [.ret] } else n

/-- Every node that leads nowhere returns. -/
def Graph.closeReturns (g : Graph) : Graph :=
  { g with nodes := g.nodes.map fun (id, n) => (id, n.closed) }

/-- The graph in a consistent state: predecessors rebuilt, nodes out of reach dropped, every path
ending in a return, numbered, and checked. -/
def normalize (g : Graph) : EngineM Graph := do
  let g := g.recalculateInputs
  match g.linkError? with
  | some e => throw (.error (← violation g e.message))
  | none =>
      let (gone, g) ← g.removeUnreachable
      unless gone.isEmpty do
        emit (.droppedUnreachable gone.length (← get).signature.display)
      let g := g.closeReturns.renumber
      checkGraph g
      return g

/-- A graph, or a region of one, solved down to a single node.  `depth` bounds how often a graph is
taken apart; without any left, the dispatch loop has to do. -/
def solveWithin : (depth : Nat) → Graph → EngineM Node
  | 0, g => flatDispatch g
  | depth + 1, g => do
      match ← reduce g with
      | .rejected _ e => throw (.error e)
      | .solved g => return (← g.removeNode g.entry).1
      | .stuck g _ =>
          let g := g.renumber
          emit (.stuck g.size)
          if let some body ← solveLinearTree g [] .onStack then
            emit (.solvedTree g.size)
            return .new body (← g.node g.entry).inputStack []
          if let some g ← extractStart g then
            checkStep g "extract start nodes"
            return ← solveWithin depth g
          if let some n ← extractFinish (solveWithin depth) g then return n
          emit (.skippingBigLoop g.size)
          if let some n ← splitRegions (solveWithin depth) g then return n
          flatDispatch g

/-- A graph solved down to a single node.  Taking a graph apart makes every part smaller, so the
number of nodes bounds how often it can be done. -/
def solve (g : Graph) : EngineM Node := solveWithin (g.size + 1) g

/-- The control flow of a method structured: a single node that leads nowhere and whose body fits
the stack of the method's entry. -/
def structureGraph (g : Graph) : EngineM Node := do
  if g.nodes.isEmpty then throw (.error .emptyGraph)
  emit (.structuring (← get).signature.display g.size)
  let g ← normalize g
  let n ← solve g
  checkSolved n
  return n

end Structurer
