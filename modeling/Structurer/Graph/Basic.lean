/-
**Control-flow graphs.**

A graph is a list of nodes in their current order, each under an identifier that is never used
again.  Beside the successors, which the nodes themselves hold, a graph keeps the predecessors of
every node; the operations here keep the two in step as long as no edge leads to a node that is
not in the graph.

Identifiers come from outside as well, so an operation may be asked for a node that is not there.
That is a `Fault`, and the operation says so instead of inventing a node.  So is a count
of edges that would have to go below zero, which means that edges and predecessors disagree.
-/

import Structurer.Graph.Node

namespace Structurer

/-- A request that a graph cannot meet. -/
inductive Fault where
  /-- A node that is not in the graph was to be read or changed. -/
  | missing (id : NodeId)
  /-- A node that is not in the graph was to be removed. -/
  | removing (id : NodeId)
  /-- More edges led into a node than it has predecessors. -/
  | underflow (id : NodeId)
  deriving DecidableEq, Repr

def Fault.message : Fault → String
  | missing id => "missing node " ++ id.title
  | removing id => "removing missing node " ++ id.title
  | underflow id => "too many edges into node " ++ id.title

/-- The entry of an identifier in a table, which has to be there. -/
def entryOf {β : Type} (table : List (NodeId × β)) (id : NodeId) : Except Fault β :=
  match table.lookup id with
  | some b => .ok b
  | none => .error (.missing id)

/-- The position of an identifier in a list, which has to be there. -/
def positionOf (ids : List NodeId) (id : NodeId) : Except Fault Nat :=
  if id ∈ ids then .ok (ids.idxOf id) else .error (.missing id)

structure Graph where
  /-- The nodes in their current order. -/
  nodes : List (NodeId × Node)
  nextSerial : Nat
  /-- Where execution starts. -/
  entry : NodeId

namespace Graph

def empty : Graph := ⟨[], 0, ⟨0⟩⟩

/-! ### Looking nodes up -/

def size (g : Graph) : Nat := g.nodes.length

def ids (g : Graph) : List NodeId := g.nodes.map (·.1)

def get? (g : Graph) (id : NodeId) : Option Node := g.nodes.lookup id

def contains (g : Graph) (id : NodeId) : Bool := (g.get? id).isSome

/-- The node of an identifier, which has to be in the graph. -/
def node (g : Graph) (id : NodeId) : Except Fault Node :=
  match g.get? id with
  | some n => .ok n
  | none => .error (.missing id)

/-- Is there nothing left but an entry that leads nowhere? -/
def isSolved (g : Graph) : Bool :=
  g.size == 1 && ((g.get? g.entry).map (·.exit.isRet)).getD false

/-! ### Changing nodes -/

/-- The graph with a node changed; nothing changes if the node is not there. -/
def modify (g : Graph) (id : NodeId) (f : Node → Node) : Graph :=
  { g with nodes := g.nodes.map fun (i, n) => if i = id then (i, f n) else (i, n) }

@[simp] theorem ids_modify (g : Graph) (id : NodeId) (f : Node → Node) :
    (g.modify id f).ids = g.ids := by
  simp only [modify, ids, List.map_map]
  refine List.map_congr_left fun e _ => ?_
  by_cases h : e.1 = id <;> simp [h]

theorem get?_modify_self (g : Graph) (id : NodeId) (f : Node → Node) :
    (g.modify id f).get? id = (g.get? id).map f := by
  simp only [modify, get?]
  induction g.nodes with
  | nil => rfl
  | cons e nodes ih =>
    obtain ⟨i, n⟩ := e
    by_cases h : id = i
    · subst h
      simp
    · have h' : (id == i) = false := by simpa using h
      simp only [List.map_cons, if_neg (Ne.symm h), List.lookup_cons, h']
      exact ih

theorem get?_modify_of_ne (g : Graph) (f : Node → Node) {id id' : NodeId} (h : id' ≠ id) :
    (g.modify id f).get? id' = g.get? id' := by
  simp only [modify, get?]
  induction g.nodes with
  | nil => rfl
  | cons e nodes ih =>
    obtain ⟨i, n⟩ := e
    by_cases he : i = id
    · have h' : (id' == i) = false := by simpa [he] using h
      simp only [List.map_cons, if_pos he, List.lookup_cons, h']
      exact ih
    · simp only [List.map_cons, if_neg he, List.lookup_cons]
      rw [ih]

def addInput (g : Graph) (target source : NodeId) : Graph :=
  g.modify target fun n => { n with inputs := n.inputs.insert source }

def dropInput (g : Graph) (target source : NodeId) : Graph :=
  g.modify target fun n => { n with inputs := n.inputs.erase source }

/-- The graph with one more node, at the end of the order, and the identifier of that node.  The
first node of an empty graph becomes the entry.  Edges to nodes that come later are only seen by
`recalculateInputs`. -/
def addNode (g : Graph) (n : Node) : NodeId × Graph :=
  let id : NodeId := ⟨g.nextSerial⟩
  let inputs := if n.exit.targets id then NodeSet.empty.insert id else NodeSet.empty
  let linked := n.outputs.foldl (fun g out => g.addInput out id) g
  (id,
    { nodes := linked.nodes ++ [(id, { n with inputs, index := g.size })]
      nextSerial := g.nextSerial + 1
      entry := if g.nodes.isEmpty then id else g.entry })

/-- The graph without a node.  The successors of the node forget it; its predecessors should have
been redirected before. -/
def erase (g : Graph) (id : NodeId) : Graph :=
  match g.get? id with
  | none => g
  | some n =>
      n.outputs.foldl (fun g out => g.dropInput out id)
        { g with nodes := g.nodes.filter (·.1 ≠ id) }

/-- A node taken out of the graph, and what is left. -/
def removeNode (g : Graph) (id : NodeId) : Except Fault (Node × Graph) :=
  match g.get? id with
  | some n => .ok (n, g.erase id)
  | none => .error (.removing id)

/-- A node leaves by another exit; the predecessors of old and new successors follow. -/
def setExit (g : Graph) (id : NodeId) (exit : Exit) : Except Fault Graph := do
  let old ← g.node id
  let g := g.modify id fun n => { n with exit }
  let g := (old.outputs.filter (!exit.targets ·)).foldl (fun g out => g.dropInput out id) g
  return exit.outputs.foldl (fun g out => g.addInput out id) g

/-- The edges from one node to `old` go to `new` instead. -/
def redirectEdge (g : Graph) (source old new : NodeId) : Except Fault Graph := do
  let n ← g.node source
  g.setExit source (n.exit.retarget old new)

/-- All edges to `old` go to `new` instead. -/
def redirectInputs (g : Graph) (old new : NodeId) : Except Fault Graph := do
  let n ← g.node old
  n.inputs.toList.foldlM
    (fun g source => if g.contains source then g.redirectEdge source old new else pure g) g

/-! ### What follows from successors and order -/

/-- The predecessors of a node, read off the successors of all nodes. -/
def sources (g : Graph) (id : NodeId) : NodeSet :=
  .ofList ((g.nodes.filter fun (_, n) => n.exit.targets id).map (·.1))

def recalculateInputs (g : Graph) : Graph :=
  { g with nodes := g.nodes.map fun (id, n) => (id, { n with inputs := g.sources id }) }

/-- Every node's index is its position. -/
def renumber (g : Graph) : Graph :=
  { g with nodes := g.nodes.mapIdx fun k (id, n) => (id, { n with index := k }) }

end Graph

end Structurer
