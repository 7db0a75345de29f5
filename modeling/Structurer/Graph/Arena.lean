/-
**The tables of a graph.**

A graph that is being edited is kept in two tables.  The slots hold the nodes, each at the serial number
of its identifier; a node that is taken out leaves its slot empty for ever.  The order lists the nodes
that are there.  Nothing in the two tables says that they agree: an operation that finds a slot empty
where the order promises a node fails.
-/

import Structurer.Graph.Links
import Structurer.Graph.Reach
import Structurer.Graph.Region

namespace Structurer

structure Arena where
  /-- The nodes ever added, by serial number. -/
  slots : List (Option Node)
  /-- The nodes that are there, in their current order. -/
  order : List NodeId
  /-- Where execution starts. -/
  entry : NodeId

namespace Arena

def empty : Arena := ⟨[], [], ⟨0⟩⟩

def get? (a : Arena) (id : NodeId) : Option Node := a.slots[id.serial]?.join

def contains (a : Arena) (id : NodeId) : Bool := (a.get? id).isSome

/-- The node of an identifier, which has to be there. -/
def node (a : Arena) (id : NodeId) : Except Fault Node :=
  match a.get? id with
  | some n => .ok n
  | none => .error (.missing id)

def modify (a : Arena) (id : NodeId) (f : Node → Node) : Arena :=
  { a with slots := a.slots.modify id.serial (Option.map f) }

def addInput (a : Arena) (target source : NodeId) : Arena :=
  a.modify target fun n => { n with inputs := n.inputs.insert source }

def dropInput (a : Arena) (target source : NodeId) : Arena :=
  a.modify target fun n => { n with inputs := n.inputs.erase source }

/-! ### Operations -/

/-- The edges of a new node: its own predecessors, and the tables in which its successors list it. -/
def link (id : NodeId) (outputs : List NodeId) (a : Arena) : NodeSet × Arena :=
  outputs.foldl
    (fun (inputs, a) out =>
      if out = id then (inputs.insert id, a) else (inputs, a.addInput out id))
    (.empty, a)

def addNode (a : Arena) (n : Node) : NodeId × Arena :=
  let id : NodeId := ⟨a.slots.length⟩
  let (inputs, linked) := a.link id n.outputs
  (id,
    { slots := linked.slots ++ [some { n with inputs, index := a.order.length }]
      order := linked.order ++ [id]
      entry := if a.order.isEmpty then id else a.entry })

def setExit (a : Arena) (id : NodeId) (exit : Exit) : Except Fault Arena := do
  let old ← a.node id
  let a := a.modify id fun n => { n with exit }
  let a := (old.outputs.filter (!exit.targets ·)).foldl (fun a out => a.dropInput out id) a
  return exit.outputs.foldl (fun a out => a.addInput out id) a

def redirectEdge (a : Arena) (source old new : NodeId) : Except Fault Arena := do
  let n ← a.node source
  a.setExit source (n.exit.retarget old new)

def redirectInputs (a : Arena) (old new : NodeId) : Except Fault Arena := do
  let n ← a.node old
  n.inputs.toList.foldlM
    (fun a source => if a.contains source then a.redirectEdge source old new else pure a) a

def removeNode (a : Arena) (id : NodeId) : Except Fault (Node × Arena) :=
  match a.get? id with
  | none => .error (.removing id)
  | some n =>
      .ok (n, n.outputs.foldl (fun a out => a.dropInput out id)
        { a with slots := a.slots.set id.serial none, order := a.order.filter (· ≠ id) })

/-- The walk over a graph, as `Graph.walk` takes it. -/
def walk (a : Arena) (avoid : Option NodeId) :
    (fuel : Nat) → (reached queue : List NodeId) → Except Fault (List NodeId)
  | 0, reached, _ => .ok reached
  | _, reached, [] => .ok reached
  | fuel + 1, reached, id :: queue => do
      let n ← a.node id
      let reached := reached ++ [id]
      a.walk avoid fuel reached (Graph.enqueue avoid reached queue n.outputs)

/-- The nodes that the entry reaches, in breadth-first order. -/
def reachable (a : Arena) : Except Fault (List NodeId) := a.walk none (a.order.length + 1) [] [a.entry]

def removeUnreachable (a : Arena) : Except Fault (List NodeId × Arena) := do
  let reached ← a.reachable
  let gone := a.order.filter (· ∉ reached)
  return (gone, ← gone.foldlM (fun a id => return (← a.removeNode id).2) a)

/-- All predecessors are forgotten, and every node in the order enters itself again at its
successors. -/
def recalculateInputs (a : Arena) : Except Fault Arena :=
  a.order.foldlM
    (fun a id => return (← a.node id).outputs.foldl (fun a out => a.addInput out id) a)
    { a with slots := a.slots.map (Option.map fun n => { n with inputs := .empty }) }

def renumber (a : Arena) : Except Fault Arena :=
  a.order.zipIdx.foldlM
    (fun a (id, k) => do
      let _ ← a.node id
      return a.modify id fun n => { n with index := k })
    a

def sortBreadthFirst (a : Arena) : Except Fault Arena := do
  let reached ← a.reachable
  { a with order := reached ++ a.order.filter (· ∉ reached) }.renumber

/-! ### Regions -/

/-- The first edge, in the order of the nodes, with one end inside a region and one outside. -/
def crossing? (a : Arena) (region : List NodeId) : Except Fault (Option SplitError) :=
  a.order.findSomeM? fun id => do
    let n ← a.node id
    return (n.outputs.find? fun out => region.contains id != region.contains out).map (.crossing id ·)

def removeNodes (a : Arena) : List NodeId → Except Fault (List Node × Arena)
  | [] => .ok ([], a)
  | id :: ids => do
      let (n, a) ← a.removeNode id
      let (ns, a) ← a.removeNodes ids
      return (n :: ns, a)

/-- The tables of a region's nodes, added one after the other. -/
def ofRegion (region : List NodeId) (nodes : List Node) (entry : NodeId) : Except Fault Arena := do
  let a ← nodes.foldlM
    (fun a n => return (a.addNode { n with exit := ← n.exit.mapM (Graph.newId region) }).2) empty
  let a ← { a with entry := ← Graph.newId region entry }.recalculateInputs
  a.renumber

def splitOff (a : Arena) (region : List NodeId) (entry : NodeId) :
    Except Fault (Except SplitError (Arena × Arena)) :=
  if region.contains entry then do
    match ← a.crossing? region with
    | some e => return .error e
    | none =>
        let (nodes, rest) ← a.removeNodes region
        return .ok (← ofRegion region nodes entry, rest)
  else return .error (.entryOutside entry)

/-! ### Agreement of edges and predecessors -/

def outputError? (a : Arena) (source target : NodeId) : Option LinkError :=
  match a.get? target with
  | none => some (.targetMissing source target)
  | some n => if n.inputs.contains source then none else some (.inputMissing source target)

def inputError? (a : Arena) (target source : NodeId) : Option LinkError :=
  match a.get? source with
  | some n => if n.exit.targets target then none else some (.edgeMissing target source)
  | none => some (.edgeMissing target source)

/-- The first disagreement of edges and predecessors. -/
def linkError? (a : Arena) : Except Fault (Option LinkError) :=
  if !a.order.isEmpty && !a.contains a.entry then return some (.entryMissing a.entry)
  else a.order.findSomeM? fun id => do
    let n ← a.node id
    return (n.outputs.findSome? (a.outputError? id)).or (n.inputs.toList.findSome? (a.inputError? id))

def checkLinks (a : Arena) : Except Fault (Except LinkError Unit) := do
  match ← a.linkError? with
  | some e => return .error e
  | none => return .ok ()

end Arena

end Structurer
