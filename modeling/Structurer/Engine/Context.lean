/-
**The context of structuring.**

Regions of a method's graph are solved one by one, but all of them share one context, so that
labels and variables stay unique across the method.  What was added to the context before a
failure stays there.
-/

import Structurer.Engine.Error
import Structurer.Engine.Event
import Structurer.Engine.Settings
import Structurer.Signature
import Structurer.Verify.Checker

namespace Structurer

/-- A graph that could only be structured by a dispatch loop. -/
structure Fallback where
  fingerprint : String
  signature : Signature
  dump : List String
  deriving DecidableEq, Repr

/-- Everything about the method being structured but its graph. -/
structure Context where
  signature : Signature
  settings : Settings
  /-- The least important level that is recorded; nothing is recorded without one. -/
  verbosity : Option LogLevel
  /-- The variables of the method, and those that structuring added. -/
  locals : Locals
  labels : Labels
  /-- The graphs that needed a dispatch loop, in the order they came up. -/
  fallbacks : List Fallback
  log : List Event

namespace Context

/-- The context at the start of the work on a method. -/
def initial (signature : Signature) (locals : Locals) (settings : Settings)
    (verbosity : Option LogLevel) : Context :=
  { signature, settings, verbosity, locals, labels := .empty, fallbacks := [], log := [] }

/-- The stack check for code made at this point, which may jump to any open loop. -/
def checker (ctx : Context) : Checker :=
  { locals := ctx.locals
    methodResults := ctx.signature.results
    strict := ctx.settings.strictReferences
    outerLoops := ctx.labels.openLoops }

end Context

/-- Work that reads and extends the context.  A failure leaves the context as it was when the work
failed. -/
abbrev EngineM := ExceptT Failure (StateM Context)

namespace Engine

/-- A fault of a graph operation stops the engine. -/
instance : MonadLift (Except Fault) EngineM where
  monadLift
    | .ok a => pure a
    | .error f => throw (.fault f)

/-! ### The log -/

/-- Is everything recorded? -/
def isTracing : EngineM Bool := return LogLevel.trace.shown (← get).verbosity

/-- An event goes into the log if its level is recorded. -/
def emit (e : Event) : EngineM Unit :=
  modify fun ctx =>
    if e.level.shown ctx.verbosity then { ctx with log := ctx.log ++ [e] } else ctx

/-- An error goes into the log with what it was found in, and stops the engine. -/
def fail {α : Type} (e : StructureError) (dump : List String) : EngineM α := do
  emit (.fatal e.problem (← get).signature.display dump)
  throw (.error e)

/-! ### Labels and variables -/

def freshLabel : EngineM LoopLabel :=
  modifyGet fun ctx =>
    let (label, labels) := ctx.labels.fresh
    (label, { ctx with labels })

def enterLoop (label : LoopLabel) : EngineM Unit :=
  modify fun ctx => { ctx with labels := ctx.labels.enter label }

def leaveLoop (label : LoopLabel) : EngineM Unit :=
  modify fun ctx => { ctx with labels := ctx.labels.leave label }

/-- Work inside a loop, which is left even if the work fails. -/
def withLoop {α : Type} (label : LoopLabel) (work : EngineM α) : EngineM α := do
  enterLoop label
  let result ← observing work
  leaveLoop label
  liftExcept result
where
  liftExcept : Except Failure α → EngineM α
    | .ok a => pure a
    | .error e => throw e

/-- A new integer variable, for a flag or a selector. -/
def freshFlag (name : String) : EngineM LocalId :=
  modifyGet fun ctx =>
    let (id, locals) := ctx.locals.add name .i32
    (id, { ctx with locals })

def stackSlot (depth : Nat) (valueType : ValueType) : EngineM LocalId :=
  modifyGet fun ctx =>
    let (id, locals) := ctx.locals.stackSlot depth valueType
    (id, { ctx with locals })

/-! ### Generated code -/

/-- A comment in generated code, if comments are wanted. -/
def comment (text : String) : EngineM Body :=
  return if (← get).settings.comments then [.comment text] else []

/-- A comment about a stack; an empty stack is not worth one. -/
def stackComment (verb : String) (stack : StackType) : EngineM Body :=
  if stack.isEmpty then pure [] else comment (verb ++ " stack " ++ StackType.title stack)

/-- Code that moves values off the operand stack into their slots, the top first. -/
def storeStack (stack : StackType) : EngineM Body := do
  let note ← stackComment "store" stack
  let code ← stack.zipIdx.reverse.mapM fun (t, depth) => return .localSet (← stackSlot depth t)
  return note ++ code

/-- Code that pushes values from their slots back onto the operand stack. -/
def loadStack (stack : StackType) : EngineM Body := do
  let note ← stackComment "load" stack
  let code ← stack.zipIdx.mapM fun (t, depth) => return .localGet (← stackSlot depth t)
  return note ++ code

/-- A graph goes on record as needing a dispatch loop. -/
def recordFallback (fingerprint : String) (dump : List String) : EngineM Unit :=
  modify fun ctx =>
    { ctx with fallbacks := ctx.fallbacks ++ [⟨fingerprint, ctx.signature, dump⟩] }

end Engine

end Structurer
