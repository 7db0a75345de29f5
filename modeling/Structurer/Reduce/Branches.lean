/-
**Rules that turn branches into conditionals.**

A branch whose arms can be absorbed becomes a conditional at the end of its body.  What the other
arm leads to decides what control does afterwards.
-/

import Structurer.Reduce.Site

namespace Structurer.Reduce

def isRet (g : Graph) (id : NodeId) : Except Fault Bool := return (← g.node id).exit.isRet

/-! ### Both arms return -/

/-- A branch with two different arms that return and can be absorbed. -/
def terminating? (dup : Bool) (g : Graph) : Except Fault (Option (NodeId × NodeId × NodeId)) :=
  g.nodes.findSomeM? fun (id, n) => do
    match n.exit with
    | .branch ifTrue ifFalse =>
        if ifTrue = ifFalse then return none
        let applies ← isRet g ifTrue <&&> isRet g ifFalse <&&> g.canAbsorb dup ifTrue id <&&>
          g.canAbsorb dup ifFalse id
        return if applies then some (id, ifTrue, ifFalse) else none
    | _ => return none

/-- A branch whose arms both return becomes a conditional that returns. -/
def joinTerminating (dup : Bool) (g : Graph) : Except Fault (Option Graph) := do
  match ← terminating? dup g with
  | none => return none
  | some (id, ifTrue, ifFalse) =>
      let thenBody := (← g.node ifTrue).body
      let elseBody := (← g.node ifFalse).body
      let g := g.modify id fun n =>
        { n with body := n.body ++ [.cond n.outputStack [] thenBody elseBody, .unreachable] }
      let g ← g.setExit id .ret
      return some ((g.eraseOrphan ifTrue).eraseOrphan ifFalse)

/-! ### One arm is absorbed -/

/-- A branch absorbs one arm: its body runs if control takes the arm, and then control goes on to
the other arm, unless the body returns. -/
def absorbArm (g : Graph) (id : NodeId) (arm : Arm) : Except Fault Graph := do
  let thenBody := (← g.node arm.target).body
  let g := g.modify id fun n =>
    { n with body := arm.toward n.body ++ [.cond n.outputStack n.outputStack thenBody []] }
  let g ← g.setExit id (.seq arm.other)
  return g.eraseOrphan arm.target

/-- An arm that returns and can be absorbed, beside another arm that leaves the branch. -/
def oneTerminating? (dup : Bool) (g : Graph) : Except Fault (Option (NodeId × Arm)) :=
  g.firstArm? fun id arm =>
    if arm.target ≠ arm.other ∧ arm.other ≠ id then
      isRet g arm.target <&&> g.canAbsorb dup arm.target id
    else return false

/-- A branch with one arm that returns becomes a conditional followed by the other arm. -/
def joinOneTerminating (dup : Bool) (g : Graph) : Except Fault (Option Graph) := do
  match ← oneTerminating? dup g with
  | none => return none
  | some (id, arm) => return some (← absorbArm g id arm)

/-- An arm that leads into the other arm and can be absorbed. -/
def optional? (dup : Bool) (g : Graph) : Except Fault (Option (NodeId × Arm)) :=
  g.firstArm? fun id arm =>
    if arm.target ≠ arm.other ∧ arm.target ≠ id ∧ arm.other ≠ id then
      g.hasExit arm.target (.seq arm.other) <&&> g.canAbsorb dup arm.target id
    else return false

/-- A branch with one arm that leads into the other becomes a conditional with one arm. -/
def joinOptional (dup : Bool) (g : Graph) : Except Fault (Option Graph) := do
  match ← optional? dup g with
  | none => return none
  | some (id, arm) => return some (← absorbArm g id arm)

/-! ### Both arms lead into one node -/

/-- A branch whose arms lead into one node. -/
structure Diamond where
  branch : NodeId
  ifTrue : NodeId
  ifFalse : NodeId
  join : NodeId
  deriving DecidableEq, Repr

/-- The diamond of a branch whose arms can be absorbed. -/
def diamond? (dup : Bool) (g : Graph) : Except Fault (Option Diamond) :=
  g.nodes.findSomeM? fun (id, n) => do
    match n.exit with
    | .branch ifTrue ifFalse =>
        match (← g.node ifTrue).exit, (← g.node ifFalse).exit with
        | .seq join, .seq join' =>
            if join = join' ∧ ifTrue ≠ ifFalse ∧ join ≠ ifTrue ∧ join ≠ ifFalse then
              let applies ← g.canAbsorb dup ifTrue id <&&> g.canAbsorb dup ifFalse id
              return if applies then some ⟨id, ifTrue, ifFalse, join⟩ else none
            else return none
        | _, _ => return none
    | _ => return none

/-- A branch whose arms lead into one node becomes a conditional with two arms. -/
def joinConverging (dup : Bool) (g : Graph) : Except Fault (Option Graph) := do
  match ← diamond? dup g with
  | none => return none
  | some d =>
      let thenNode ← g.node d.ifTrue
      let elseNode ← g.node d.ifFalse
      let results := thenNode.outputStack
      let g := g.modify d.branch fun n =>
        { n with
          body := n.body ++ [.cond n.outputStack results thenNode.body elseNode.body]
          outputStack := results }
      let g ← g.setExit d.branch (.seq d.join)
      return some ((g.eraseOrphan d.ifTrue).eraseOrphan d.ifFalse)

end Structurer.Reduce
