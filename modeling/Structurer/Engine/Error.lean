/-
**Failures of structuring.**

A method cannot be structured when its code does not fit its stacks, when its graph is broken, or
when it has no nodes.  Apart from these errors, which are about the method, the engine can only
stop at a fault: a request for a node that is not in the graph.
-/

import Structurer.Graph.Basic
import Structurer.Verify.Error

namespace Structurer

inductive StructureError where
  /-- A body does not fit the stacks of its node. -/
  | verifier (e : VerifyError)
  /-- The stack handed on along an edge is not the one its target expects. -/
  | edgeMismatch (source target : Nat) (output input : StackType)
  /-- The graph is in a state it should not be in; the dump shows it. -/
  | violation (message : String) (dump : List String)
  | emptyGraph
  deriving DecidableEq, Repr

namespace StructureError

def message : StructureError → String
  | verifier e => "verification failed: " ++ e.message
  | edgeMismatch source target output input =>
      "node " ++ toString source ++ " hands on " ++ StackType.title output ++
        " but its successor " ++ toString target ++ " expects " ++ StackType.title input
  | violation message dump =>
      "invariant violated: " ++ message ++ String.join (dump.map ("\n  " ++ ·))
  | emptyGraph => "graph has no nodes"

/-- What the log says of an error; it shows the dump by itself. -/
def problem : StructureError → String
  | violation message _ => message
  | e => e.message

end StructureError

inductive Failure where
  | error (e : StructureError)
  | fault (f : Fault)
  deriving DecidableEq, Repr

end Structurer
