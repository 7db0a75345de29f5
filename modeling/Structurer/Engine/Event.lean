/-
**The log of the engine.**

The engine keeps a record of what it does, for people who want to see how a method came to its
shape.  Records are data; their wording is settled here and nowhere else.
-/

import Structurer.Graph.NodeSet

namespace Structurer

inductive LogLevel where
  | error
  | warn
  | debug
  | trace
  deriving DecidableEq, Repr

namespace LogLevel

def title : LogLevel → String
  | error => "ERROR"
  | warn => "WARN"
  | debug => "DEBUG"
  | trace => "TRACE"

/-- The rank of a level, the most important first. -/
def rank : LogLevel → Nat
  | error => 1
  | warn => 2
  | debug => 3
  | trace => 4

/-- Does a log of the given verbosity hold records of a level?  A log without verbosity holds
none. -/
def shown (level : LogLevel) : Option LogLevel → Bool
  | none => false
  | some v => decide (level.rank ≤ v.rank)

end LogLevel

/-- What the engine records.  Methods are given by name, nodes by index. -/
inductive Event where
  /-- A problem that ends the work, with what it was found in. -/
  | fatal (problem method : String) (dump : List String)
  | droppedUnreachable (count : Nat) (method : String)
  | structuring (method : String) (size : Nat)
  | stuck (size : Nat)
  | solvedTree (size : Nat)
  | extractingStart (count middle : Nat)
  | extractingEnd (count size : Nat)
  | splitting (size separator front : Nat)
  | dispatching (size : Nat) (method fingerprint : String)
  | checking (step : String)
  | removedUnreachable (ids : List NodeId)
  | applied (rule : String) (size : Nat) (dump : List String)
  | solvingAcyclic (size extra : Nat)
  | skippingNode (index : Nat)
  | skippingBigLoop (size : Nat)
  deriving DecidableEq, Repr

namespace Event

def level : Event → LogLevel
  | fatal .. => .error
  | droppedUnreachable .. => .warn
  | structuring .. => .debug
  | stuck .. => .debug
  | solvedTree .. => .debug
  | extractingStart .. => .debug
  | extractingEnd .. => .debug
  | splitting .. => .debug
  | dispatching .. => .debug
  | checking .. => .trace
  | removedUnreachable .. => .trace
  | applied .. => .trace
  | solvingAcyclic .. => .trace
  | skippingNode .. => .trace
  | skippingBigLoop .. => .trace

def lines : Event → List String
  | fatal problem method dump => (problem ++ " in " ++ method) :: dump.map ("  " ++ ·)
  | droppedUnreachable count method =>
      ["dropped " ++ toString count ++ " unreachable nodes from " ++ method]
  | structuring method size => ["structuring " ++ method ++ " (" ++ toString size ++ " nodes)"]
  | stuck size => ["reducer is stuck with " ++ toString size ++ " nodes"]
  | solvedTree size => ["solved " ++ toString size ++ " nodes as a linear tree"]
  | extractingStart count middle =>
      ["extracting " ++ toString count ++ " start nodes before node " ++ toString middle]
  | extractingEnd count size =>
      ["extracting " ++ toString count ++ " of " ++ toString size ++ " nodes as end nodes"]
  | splitting size separator front =>
      ["splitting " ++ toString size ++ " nodes at node " ++ toString separator ++ " (" ++
        toString front ++ " in front)"]
  | dispatching size method fingerprint =>
      ["dispatch loop for " ++ toString size ++ " nodes of " ++ method ++ " (" ++ fingerprint ++
        ")"]
  | checking step => ["checking graph after " ++ step]
  | removedUnreachable ids =>
      ["removed unreachable nodes [" ++ ", ".intercalate (ids.map NodeId.title) ++ "]"]
  | applied rule size dump =>
      (rule ++ ": " ++ toString size ++ " nodes left") :: dump.map ("  " ++ ·)
  | solvingAcyclic size extra =>
      ["solving " ++ toString size ++ " acyclic nodes (" ++ toString extra ++
        " with extra inputs)"]
  | skippingNode index => ["skipping node " ++ toString index ++ ", which nothing leads to"]
  | skippingBigLoop size => ["big loop extraction skipped for " ++ toString size ++ " nodes"]

/-- The records of an event: its lines, each with the level in front. -/
def records (e : Event) : List String := e.lines.map (e.level.title ++ " " ++ ·)

end Event

end Structurer
