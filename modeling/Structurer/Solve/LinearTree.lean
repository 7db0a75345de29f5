/-
**Acyclic graphs as trees of guarded code.**

In a graph without cycles every node runs at most once.  A node records which way control left it
by setting flags, and a node runs if the flag of an edge into it is set.  The code of a node is
nested inside the nodes around all its predecessors, so that all of them have run, or have been
passed over, before its guard is tested.

The place of a node is the list of the positions around it, outermost first: a node is nested in
the longest common beginning of the places of its predecessors.

Values handed on along edges are parked in variables, because code side by side in the tree cannot
hand them on by the operand stack.
-/

import Structurer.Engine.Context
import Structurer.Graph.Acyclic

namespace Structurer

open Engine

/-- How control comes into a tree. -/
inductive TreeEntry where
  /-- The entry of the graph runs first and finds its stack. -/
  | onStack
  /-- The entry of the graph runs first and loads its stack from variables. -/
  | unconditional
  /-- A node runs only if its flag among the extra inputs was set before. -/
  | flagsOnly
  deriving DecidableEq, Repr

namespace LinearTree

/-! ### Flags -/

/-- The flags a node sets to tell which way control left it. -/
inductive Flags where
  | seq (flag : LocalId)
  | branch (ifTrue ifFalse : LocalId)
  | ret
  deriving DecidableEq, Repr

def Flags.ids : Flags → List LocalId
  | seq flag => [flag]
  | branch ifTrue ifFalse => [ifTrue, ifFalse]
  | ret => []

/-- New flags for a node, named after its index. -/
def freshFlags (n : Node) : EngineM Flags := do
  let name := "n" ++ toString n.index
  match n.exit with
  | .seq _ => return .seq (← freshFlag name)
  | .branch _ _ =>
      let ifTrue ← freshFlag (name ++ "T")
      let ifFalse ← freshFlag (name ++ "F")
      return .branch ifTrue ifFalse
  | .ret => return .ret

/-- The flags of a node that send control to `target`. -/
def Flags.toward (flags : Flags) (exit : Exit) (target : NodeId) : List LocalId :=
  match flags, exit with
  | seq flag, _ => [flag]
  | branch ifTrue ifFalse, .branch t f =>
      (if t = target then [ifTrue] else []) ++ (if f = target then [ifFalse] else [])
  | _, _ => []

/-- Code that sets the flags of a node; the condition of a branch is on the stack. -/
def Flags.record : Flags → Body
  | seq flag => [.i32Const 1, .localSet flag]
  | branch ifTrue ifFalse =>
      [.localSet ifTrue, .localGet ifTrue, .numeric .i32Eqz, .localSet ifFalse]
  | ret => []

def clear (flags : List LocalId) : Body :=
  flags.flatMap fun flag => [.i32Const 0, .localSet flag]

/-- Code that leaves whether one of several flags is set. -/
def anySet : List LocalId → Body
  | [] => []
  | flag :: flags => .localGet flag :: flags.flatMap fun f => [.localGet f, .numeric .i32Or]

/-! ### Places -/

/-- The place of a node in the tree: the positions of the nodes around it, outermost first. -/
abbrev Place := List Nat

/-- The longest common beginning of two places. -/
def commonPrefix : Place → Place → Place
  | a :: as, b :: bs => if a = b then a :: commonPrefix as bs else []
  | _, _ => []

/-- The longest common beginning of several places. -/
def commonPlace : List Place → Place
  | [] => []
  | p :: ps => ps.foldl commonPrefix p

/-- Code that has its place in the tree. -/
structure Placed where
  /-- The position of the node in the order of the tree. -/
  position : Nat
  /-- The position of the node it is nested in, if it is nested at all. -/
  anchor : Option Nat
  /-- Code that leaves whether the node is to run; none if it always runs. -/
  test : Body
  code : Body

/-- The code nested directly in a node, each piece followed by what is nested in it.  `fuel` bounds
the depth of the tree. -/
def assemble (placed : List Placed) : (fuel : Nat) → (anchor : Option Nat) → Body
  | 0, _ => []
  | fuel + 1, anchor =>
      (placed.filter (·.anchor = anchor)).flatMap fun p =>
        let code := p.code ++ assemble placed fuel (some p.position)
        if p.test.isEmpty then code else p.test ++ [.cond [] [] code []]

/-! ### Placing nodes -/

/-- What is fixed while nodes are placed. -/
structure Plan where
  graph : Graph
  entry : TreeEntry
  /-- The nodes in the order they are placed. -/
  order : List NodeId
  flags : List (NodeId × Flags)
  /-- Flags that make a node run and are set before the tree starts. -/
  extra : List (NodeId × LocalId)

/-- The nodes placed so far: the places inside them by position, and their code. -/
structure Tree where
  places : List (Nat × Place)
  placed : List Placed

/-- The place inside the node of a position. -/
def Tree.placeOf (t : Tree) (position : Nat) : Place :=
  (t.places.lookup position).getD [position]

/-- The flags that make a node run. -/
def Plan.findTriggers (p : Plan) (id : NodeId) (n : Node) : Except Fault (List LocalId) := do
  let flags ← n.inputs.toList.mapM fun input =>
    return (← entryOf p.flags input).toward (← p.graph.node input).exit id
  return flags.flatten ++ (p.extra.lookup id).toList

/-- The places of everything that can make a node run. -/
def Plan.findOrigins (p : Plan) (t : Tree) (id : NodeId) (n : Node) : Except Fault (List Place) := do
  let places ← n.inputs.toList.mapM fun input => return t.placeOf (← positionOf p.order input)
  return places ++ (p.extra.lookup id).toList.map fun _ => []

/-- The code of a node: its stack is loaded, it runs, it sets its flags and parks its stack. -/
def Plan.code (p : Plan) (id : NodeId) (n : Node) (first : Bool) : EngineM Body := do
  let flags ← entryOf p.flags id
  let note ← comment ("node " ++ toString n.index)
  let load ← if first && p.entry = .onStack then pure [] else loadStack n.inputStack
  let store ← if n.exit.isRet then pure [] else storeStack n.outputStack
  return note ++ load ++ n.body ++ flags.record ++ store

/-- A node gets its place.  A node that nothing leads to is passed over.  The last node of the
tree, if it is not nested, needs no guard: everything else has had its chance to return. -/
def Plan.place (p : Plan) (t : Tree) (id : NodeId) (position : Nat) : EngineM Tree := do
  let n ← p.graph.node id
  let first := p.entry ≠ .flagsOnly && position = 0
  let triggers ← p.findTriggers id n
  let origins ← p.findOrigins t id n
  if !first && triggers.isEmpty then
    emit (.skippingNode n.index)
    return t
  let around := if first then [] else commonPlace origins
  let code ← p.code id n first
  let last := position + 1 = p.order.length ∧ around = []
  let test := if first ∨ last then [] else anySet triggers
  return { places := (position, around ++ [position]) :: t.places
           placed := t.placed ++ [⟨position, around.getLast?, test, code⟩] }

end LinearTree

open LinearTree in
/-- The code of an acyclic graph, or nothing if the graph has a cycle or its entry does not come
first although it should.  Nodes among the extra inputs also run if their flag was set before.
The code starts with the stack of the entry if that is expected on the stack, and with an empty
one otherwise.  It never falls through. -/
def solveLinearTree (g : Graph) (extra : List (NodeId × LocalId)) (entry : TreeEntry) :
    EngineM (Option Body) := do
  match ← g.sort with
  | none => return none
  | some order =>
      if entry ≠ .flagsOnly ∧ order.head? ≠ some g.entry then return none
      emit (.solvingAcyclic order.length extra.length)
      let flags ← order.mapM fun id => return (id, ← freshFlags (← g.node id))
      let plan : Plan := { graph := g, entry, order, flags, extra }
      let tree ← order.zipIdx.foldlM (fun t (id, k) => plan.place t id k) ⟨[], []⟩
      return some
        (clear (flags.flatMap (·.2.ids)) ++ assemble tree.placed (order.length + 1) none ++
          [.unreachable])

end Structurer
