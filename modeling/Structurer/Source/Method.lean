/-
**Reading a method.**

A method source names the method, declares its variables, and lists its nodes:

    ;; comments and blank lines are ignored
    method my/pkg/Klass max (II)I -> i32
    local x i32
    node start () -> (i32) branch small big
      local.get $x
      local.get $x
      i32.const 10
      i32.lt_s
    node small (i32) -> () return
      return
    node big (i32) -> (i32) seq small
      i32.const 10
      i32.add

The first node is the entry.  Indented lines are the instructions of the node above them.  A node
may name successors that come later, so names are resolved when all nodes are known.
-/

import Structurer.Graph.Basic
import Structurer.Signature
import Structurer.Source.Instruction

namespace Structurer

/-- A method whose control flow is to be structured. -/
structure Method where
  signature : Signature
  locals : Locals
  graph : Graph

namespace Source

open Text

/-- The exit of a node, its successors still by name. -/
inductive NamedExit where
  | seq (next : String)
  | branch (ifTrue ifFalse : String)
  | ret
  deriving DecidableEq, Repr

/-- A node whose exit is to be resolved, with the line that declares it. -/
structure Pending where
  line : Nat
  id : NodeId
  exit : NamedExit
  deriving DecidableEq, Repr

/-- What has been read of a method. -/
structure Draft where
  signature : Option Signature
  locals : Locals
  graph : Graph
  names : List (String × NodeId)
  /-- The nodes in the order of their lines. -/
  pending : List Pending
  /-- The node that instructions go to. -/
  current : Option NodeId

namespace Draft

def empty : Draft := ⟨none, .empty, .empty, [], [], none⟩

end Draft

/-! ### Declarations -/

/-- The types in parentheses at the front of a text, and what follows them. -/
def readStack (cs : List Char) : Except SourceProblem (StackType × List Char) :=
  match stripHead? ['('] (trimStart cs) with
  | none => .error .noOpening
  | some inner =>
      match splitAtChar? ')' inner with
      | none => .error .noClosing
      | some (types, rest) => do return (← readTypes types, rest)

/-- The signature that follows the word `method`. -/
def readSignature (cs : List Char) : Except SourceProblem Signature := do
  let (className, rest) := splitWord cs
  let (name, rest) := splitWord rest
  let (descriptor, rest) := splitWord rest
  if descriptor.isEmpty then throw .methodShape
  match stripHead? ['-', '>'] rest with
  | none => throw .noArrowBeforeResults
  | some results =>
      return { className := String.ofList className
               name := String.ofList name
               descriptor := String.ofList descriptor
               results := ← readTypes results }

/-- The exit at the end of a node's line. -/
def readExit (cs : List Char) : Except SourceProblem NamedExit :=
  match (words cs).map String.ofList with
  | ["seq", next] => .ok (.seq next)
  | ["branch", ifTrue, ifFalse] => .ok (.branch ifTrue ifFalse)
  | ["return"] => .ok .ret
  | _ => .error (.exitShape (String.ofList (trim cs)))

/-- The line of the method's signature, which comes once. -/
def readMethodLine (d : Draft) (rest : List Char) : Except SourceProblem Draft := do
  if d.signature.isSome then throw .duplicateMethod
  return { d with signature := some (← readSignature rest) }

def readLocalLine (d : Draft) (rest : List Char) : Except SourceProblem Draft := do
  let (name, typeName) := splitWord rest
  let name := String.ofList name
  let valueType ← readType typeName
  if (d.locals.lookup name).isSome then throw (.duplicateLocal name)
  return { d with locals := (d.locals.add name valueType).2 }

/-- The line of a node: its name, its stacks, and its exit. -/
def readNodeLine (d : Draft) (line : Nat) (rest : List Char) : Except SourceProblem Draft := do
  let (name, rest) := splitWord rest
  let name := String.ofList name
  if (d.names.lookup name).isSome then throw (.duplicateNode name)
  let (inputStack, rest) ← readStack rest
  match stripHead? ['-', '>'] (trimStart rest) with
  | none => throw .noArrowAfterInput
  | some rest =>
      let (outputStack, rest) ← readStack rest
      let exit ← readExit rest
      let (id, graph) := d.graph.addNode (.new [] inputStack outputStack)
      return { d with
        graph
        names := d.names ++ [(name, id)]
        pending := d.pending ++ [⟨line, id, exit⟩]
        current := some id }

/-- An indented line: an instruction of the current node. -/
def readIndented (d : Draft) (text : List Char) : Except SourceProblem Draft :=
  match d.current with
  | none => .error .outsideNode
  | some id => do
      let i ← readInstruction d.locals text
      return { d with graph := d.graph.modify id fun n => { n with body := n.body ++ [i] } }

/-- A line that is not indented: a declaration. -/
def readDeclaration (d : Draft) (line : Nat) (text : List Char) : Except SourceProblem Draft :=
  let (keyword, rest) := splitWord text
  match String.ofList keyword with
  | "method" => readMethodLine d rest
  | "local" => readLocalLine d rest
  | "node" => readNodeLine d line rest
  | other => .error (.unknownDeclaration other)

def isIndented : List Char → Bool
  | c :: _ => isBlank c
  | [] => false

/-- One line, of the given number.  Blank lines and comments that are not indented say nothing. -/
def readLine (d : Draft) (line : Nat) (raw : List Char) : Except SourceProblem Draft :=
  let text := trim raw
  if text.isEmpty then .ok d
  else if isIndented raw then readIndented d text
  else if (stripHead? [';', ';'] text).isSome then .ok d
  else readDeclaration d line text

/-- The lines from the number `line` on. -/
def readLines (line : Nat) (d : Draft) : List (List Char) → Except SourceError Draft
  | [] => .ok d
  | raw :: rest =>
      match readLine d line raw with
      | .ok d => readLines (line + 1) d rest
      | .error problem => .error ⟨line, problem⟩

/-! ### Resolving names -/

def findNode (d : Draft) (name : String) : Except SourceProblem NodeId :=
  match d.names.lookup name with
  | some id => .ok id
  | none => .error (.unknownNode name)

/-- The exit with its successors found. -/
def resolveExit (d : Draft) : NamedExit → Except SourceProblem Exit
  | .seq next => return .seq (← findNode d next)
  | .branch ifTrue ifFalse => do
      let ifTrue ← findNode d ifTrue
      let ifFalse ← findNode d ifFalse
      return .branch ifTrue ifFalse
  | .ret => .ok .ret

/-- The graph with the exits of the pending nodes filled in. -/
def resolve (d : Draft) (g : Graph) : List Pending → Except SourceError Graph
  | [] => .ok g
  | p :: ps =>
      match resolveExit d p.exit with
      | .ok exit => resolve d (g.modify p.id fun n => { n with exit }) ps
      | .error problem => .error ⟨p.line, problem⟩

/-- The method of a draft of so many lines. -/
def finish (d : Draft) (lineCount : Nat) : Except SourceError Method := do
  let graph ← resolve d d.graph d.pending
  match d.signature with
  | none => throw ⟨lineCount, .missingMethod⟩
  | some signature =>
      if graph.nodes.isEmpty then throw ⟨lineCount, .noNodes⟩
      return { signature, locals := d.locals, graph := graph.recalculateInputs }

end Source

/-- The method that a source describes. -/
def Method.ofText (text : String) : Except SourceError Method := do
  let lines := Text.lines text
  Source.finish (← Source.readLines 1 .empty lines) lines.length

end Structurer
