/-
**The dispatch loop.**

Any graph can be run by a loop around a switch: a variable holds the number of the node to run
next, each case runs one node, sets the variable, parks its stack and jumps back.  It always works
and is the slowest and least readable form, so graphs that need it go on record.
-/

import Structurer.Engine.Context
import Structurer.Graph.Dump

namespace Structurer

open Engine

namespace Dispatch

/-- Code that pushes the number of a node's case. -/
def pushCase (cases : List NodeId) (id : NodeId) : Except Fault Instruction :=
  return .i32Const (Int32.ofNat (← positionOf cases id))

/-- Code that pushes the number of the node to run after one, or nothing if it leads nowhere. -/
def pushNext? (cases : List NodeId) : Exit → Except Fault (Option Instruction)
  | .seq next => return some (← pushCase cases next)
  | .branch ifTrue ifFalse => do
      let pushTrue ← pushCase cases ifTrue
      let pushFalse ← pushCase cases ifFalse
      return some (.cond [] [.i32] [pushTrue] [pushFalse])
  | .ret => return none

/-- The case of a node: its stack is loaded, it runs, and control goes back to the switch. -/
def caseOf (cases : List NodeId) (selector : LocalId) (label : LoopLabel) (n : Node) :
    EngineM Body := do
  let load ← loadStack n.inputStack
  let note ← comment ("execute " ++ toString n.index)
  match ← pushNext? cases n.exit with
  | none => return load ++ note ++ n.body ++ [.unreachable]
  | some push =>
      let store ← storeStack n.outputStack
      return load ++ note ++ n.body ++ [push, .localSet selector] ++ store ++ [.br label]

/-- What comes before the loop.  An entry that nothing leads back to runs there, if it always goes
on to one node; otherwise the entry is the first case to run. -/
def prologue (cases : List NodeId) (selector : LocalId) (entry : NodeId) (n : Node) :
    EngineM Body := do
  match n.exit, cases.contains entry with
  | .seq next, false =>
      let note ← comment ("execute " ++ toString n.index)
      let push ← pushCase cases next
      let store ← storeStack n.outputStack
      return note ++ n.body ++ [push, .localSet selector] ++ store
  | _, _ =>
      let store ← storeStack n.inputStack
      let push ← pushCase cases entry
      return store ++ [push, .localSet selector]

end Dispatch

open Dispatch in
/-- The node that runs a graph by a dispatch loop. -/
def flatDispatch (g : Graph) : EngineM Node := do
  let ctx ← get
  let (fingerprint, g) ← g.fingerprint ctx.settings.maxFingerprint
  emit (.dispatching g.size ctx.signature.display fingerprint)
  recordFallback fingerprint (g.dump ctx.locals)
  let entryNode ← g.node g.entry
  let runsFirst := entryNode.exit.isSeq && entryNode.inputs.toList.isEmpty
  let caseNodes := g.nodes.filter fun (id, _) => !(runsFirst && id = g.entry)
  let cases := caseNodes.map (·.1)
  let selector ← freshFlag "lbl"
  let label ← freshLabel
  let before ← prologue cases selector g.entry entryNode
  let bodies ← caseNodes.mapM fun (_, n) => caseOf cases selector label n
  let body := before ++ [.loop label [] [] [.switch selector bodies], .unreachable]
  return .new body entryNode.inputStack []

end Structurer
