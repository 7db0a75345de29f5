/-
**Splitting a graph in two.**

A separator is a node behind which control never comes back: what it reaches, its front, does not
hold the entry, and everything else enters the front only through the separator.  Control passes
into the front exactly once, so the two halves can be solved by themselves and laid out one after
the other.  Of all separators the one with the most balanced halves is taken.
-/

import Structurer.Engine.Check
import Structurer.Graph.Region
import Structurer.Solve.Jump

namespace Structurer

open Engine

namespace Split

/-- A separator and what it reaches. -/
structure Candidate where
  separator : NodeId
  front : List NodeId
  deriving DecidableEq, Repr

/-- The size of the smaller half. -/
def Candidate.balance (g : Graph) (c : Candidate) : Nat :=
  min c.front.length (g.size - c.front.length)

/-- A candidate that is better than the best so far. -/
def improve (g : Graph) (best : Option Candidate) (separator : NodeId) :
    Except Fault (Option Candidate) := do
  let n ← g.node separator
  if separator = g.entry ∨ n.exit.isRet then return best
  let c : Candidate := ⟨separator, ← g.reachable separator none⟩
  if c.front.length < 2 ∨ g.entry ∈ c.front then return best
  -- the front may be entered only through the separator
  if !(← g.isClosed c.front (some separator)) then return best
  match best with
  | none => return some c
  | some b => return if c.balance g > b.balance g then some c else some b

/-- The best separator, of equally good ones the first in the order of the graph. -/
def find (g : Graph) : Except Fault (Option Candidate) := g.ids.foldlM (improve g) none

end Split

/-- The node of a graph with a separator, or nothing if there is none.  `solve` solves the two
halves; the back leaves by a node that parks its stack and jumps past the loop around it. -/
def splitRegions (solve : Graph → EngineM Node) (g : Graph) : EngineM (Option Node) := do
  match ← Split.find g with
  | none => return none
  | some ⟨separator, front⟩ =>
      let separatorNode ← g.node separator
      emit (.splitting g.size separatorNode.index front.length)
      let label ← freshLabel
      let first ← freshFlag "firstRun"
      let separatorStack := separatorNode.inputStack
      let note ← comment "leave back region"
      let leave ← storeStack separatorStack
      let (exit, g) := g.addNode (.new (note ++ leave ++ [.br label]) separatorStack [])
      let sources := separatorNode.inputs.toList.filter (· ∉ front)
      let g ← sources.foldlM (fun g source => g.redirectEdge source separator exit) g
      match ← g.splitOff front separator with
      | .error e => throw (.error (← violation g e.message))
      | .ok (frontGraph, back) =>
          let entryStack := (← back.node back.entry).inputStack
          let backNode ← withLoop label (solve back)
          let frontNode ← solve frontGraph
          let loadEntry ← loadStack entryStack
          let storeEntry ← storeStack entryStack
          let loadFront ← loadStack separatorStack
          let once := loadEntry ++ backNode.body ++ [.unreachable]
          let body := storeEntry ++ oneShotLoop label first once [] ++ loadFront ++ frontNode.body
          return some (.new body entryStack [])

end Structurer
