/-
**Checks of graphs and results.**

A graph is sound when its edges and predecessors agree, every edge hands on the stack that its
target expects, and the body of every node fits the node's stacks.
-/

import Structurer.Engine.Context
import Structurer.Graph.Dump
import Structurer.Graph.Links

namespace Structurer

/-- The first edge, in the order of the nodes, whose stacks do not fit. -/
def Graph.edgeMismatch? (g : Graph) (strict : Bool) : Except Fault (Option StructureError) :=
  g.nodes.findSomeM? fun (_, n) =>
    n.outputs.findSomeM? fun out => do
      let target ← g.node out
      return if StackType.fits strict n.outputStack target.inputStack then none
        else some (.edgeMismatch n.index target.index n.outputStack target.inputStack)

namespace Context

/-- The first thing wrong with a graph: its links, then its edges, then its bodies. -/
def inspect (ctx : Context) (g : Graph) : Except Failure Unit :=
  match g.linkError? with
  | some e => .error (.error (.violation e.message (g.dump ctx.locals)))
  | none =>
      match g.edgeMismatch? ctx.settings.strictReferences with
      | .ok none => (ctx.checker.checkNodes g).mapError fun e => .error (.verifier e)
      | .ok (some e) => .error (.error e)
      | .error f => .error (.fault f)

end Context

namespace Engine

/-- A graph in a state it should not be in: the error goes into the log. -/
def violation (g : Graph) (message : String) : EngineM StructureError := do
  let dump := g.dump (← get).locals
  let e := StructureError.violation message dump
  emit (.fatal e.problem (← get).signature.display dump)
  return e

/-- Everything about a graph is checked. -/
def checkGraph (g : Graph) : EngineM Unit := do
  let ctx ← get
  match ctx.inspect g with
  | .ok () => pure ()
  | .error (.error e) => fail e (g.dump ctx.locals)
  | .error (.fault f) => throw (.fault f)

/-- A graph is checked after a step, if every step is to be checked. -/
def checkStep (g : Graph) (step : String) : EngineM Unit := do
  if (← get).settings.validateSteps then
    emit (.checking step)
    checkGraph g

/-- The node that a method was structured into is checked. -/
def checkSolved (n : Node) : EngineM Unit := do
  let ctx ← get
  match ctx.checker.checkNode n with
  | .ok () => pure ()
  | .error e => fail (.verifier e) (Body.render ctx.locals n.body)

end Engine

end Structurer
