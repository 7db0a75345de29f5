/-
**Dumps and fingerprints.**

A dump shows a graph to people, one line a node.  A fingerprint describes the shape of a graph in
one word, so that graphs of one shape can be told from others: the nodes in breadth-first order,
each as the letter of its exit and the positions of its successors.
-/

import Structurer.Code.Render
import Structurer.Graph.Reach

namespace Structurer.Graph

/-! ### Dumps -/

/-- The index of a node, or its identifier with a question mark if it is not in the graph. -/
def indexText (g : Graph) (id : NodeId) : String :=
  match g.get? id with
  | some n => toString n.index
  | none => id.title ++ "?"

/-- The line of a node: a star at the entry, its index and letter, its predecessors, its stacks,
its successors, and its code. -/
def dumpLine (g : Graph) (locals : Locals) (id : NodeId) (n : Node) : String :=
  let commas := ",".intercalate
  (if id = g.entry then "*" else " ") ++ toString n.index ++ " " ++ n.exit.letter.toString ++
    " [" ++ commas (n.inputs.toList.map g.indexText) ++ "] (" ++
    commas (n.inputStack.map ValueType.name) ++ ") -> (" ++
    commas (n.outputStack.map ValueType.name) ++ ") [" ++
    commas (n.outputs.map g.indexText) ++ "]: " ++ Body.inline locals n.body

def dump (g : Graph) (locals : Locals) : List String :=
  g.nodes.map fun (id, n) => g.dumpLine locals id n

/-! ### Fingerprints -/

/-- A hash of a text's bytes, modulo `2 ^ 32`. -/
def hashText (text : String) : UInt32 :=
  text.toUTF8.foldl (fun h b => h * 31 + b.toUInt32) 0

/-- A text of more than `maxLen` characters is cut, and ends with a hash of the whole. -/
def abridge (maxLen : Nat) (text : String) : String :=
  if text.length ≤ maxLen then text
  else
    String.ofList (text.toList.take (maxLen - 8)) ++ "-" ++
      String.ofList (Nat.toDigits 16 (hashText text).toNat)

/-- The part of a node: its letter, and the positions of its successors. -/
def nodePrint (g : Graph) (n : Node) : Except Fault String := do
  let outs ← n.outputs.mapM fun out => return toString (← g.node out).index
  return n.exit.letter.toString ++ "-".intercalate outs

/-- The fingerprint of a graph, and the graph in breadth-first order.  All its characters are of
the ASCII range. -/
def fingerprint (g : Graph) (maxLen : Nat) : Except Fault (String × Graph) := do
  let g ← g.sortBreadthFirst
  let parts ← g.nodes.mapM fun (_, n) => g.nodePrint n
  return (abridge maxLen (String.join parts), g)

end Structurer.Graph
