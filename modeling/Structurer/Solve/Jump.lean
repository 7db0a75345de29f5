/-
**Jumps forward.**

Structured code can only jump back, to the header of an enclosing loop.  A jump forward is made of
a loop that runs its body once: the code before the jump parks what it needs in variables and jumps
to the header, and the second time around the loop runs the code after the jump.
-/

import Structurer.Engine.Context

namespace Structurer

/-- A loop that runs `once` the first time around and `otherwise` after a jump back. -/
def oneShotLoop (label : LoopLabel) (first : LocalId) (once otherwise : Body) : Body :=
  [.i32Const 1, .localSet first,
    .loop label [] []
      [.localGet first,
        .cond [] [] ([.i32Const 0, .localSet first] ++ once) otherwise]]

/-- The edges of a node to the nodes that `leaving` tells are replaced by code in the node, which
`jump` makes for each of them.  That code finds the output stack of the node and must not fall
through.  A node without edges left leads nowhere. -/
def inlineExits {m : Type → Type} [Monad m] [MonadLiftT (Except Fault) m]
    (leaving : NodeId → Bool) (jump : NodeId → m Body) (g : Graph) (id : NodeId) : m Graph := do
  let n ← (g.node id : Except Fault Node)
  let withBody (body : Body) (exit : Exit) : Except Fault Graph :=
    (g.modify id fun n => { n with body }).setExit id exit
  match n.exit with
  | .seq next =>
      if leaving next then withBody (n.body ++ (← jump next)) .ret else return g
  | .branch ifTrue ifFalse =>
      match leaving ifTrue, leaving ifFalse with
      | true, true => do
          let thenBody ← jump ifTrue
          let elseBody ← jump ifFalse
          withBody (n.body ++ [.cond n.outputStack [] thenBody elseBody]) .ret
      | true, false => do
          let thenBody ← jump ifTrue
          withBody (n.body ++ [.cond n.outputStack n.outputStack thenBody []]) (.seq ifFalse)
      | false, true => do
          let thenBody ← jump ifFalse
          withBody (n.body.negate ++ [.cond n.outputStack n.outputStack thenBody []]) (.seq ifTrue)
      | false, false => return g
  | .ret => return g

end Structurer
