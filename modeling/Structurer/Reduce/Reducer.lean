/-
**The reducer.**

The reducer applies its rules, in a fixed order and each as long as it applies, until the graph is
solved or a whole pass over the rules changes nothing.  Every rule makes a graph lighter: it has
fewer nodes, or fewer branches, or fewer nodes that go on.
-/

import Structurer.Engine.Check
import Structurer.Reduce.Branches
import Structurer.Reduce.Loops
import Structurer.Reduce.Straight

namespace Structurer

open Engine

/-- A reduction rule: it reduces one place of a graph, if there is one of its shape. -/
structure Rule where
  name : String
  apply : Graph → EngineM (Option Graph)

namespace Reduce

/-- A rule that the settings allow or forbid to copy nodes. -/
def duplicating (rule : Bool → Graph → Except Fault (Option Graph)) (g : Graph) :
    EngineM (Option Graph) := do
  rule (← get).settings.allowDuplication g

/-- A rule with a limit on the nodes it copies. -/
def limited (rule : Nat → Graph → Except Fault (Option Graph)) (g : Graph) :
    EngineM (Option Graph) := do
  rule (← get).settings.smallReturnLimit g

/-- The rules, in the order they are tried. -/
def rules : List Rule :=
  [⟨"fold constant branches", fun g => foldConstantBranch g⟩,
    ⟨"remove trivial branches", removeTrivialBranch⟩,
    ⟨"remove unreachable nodes", removeUnreachable⟩,
    ⟨"bypass empty nodes", fun g => bypassEmptyNode g⟩,
    ⟨"merge duplicate nodes", fun g => mergeDuplicates g⟩,
    ⟨"inline small returns", limited inlineSmallReturn⟩,
    ⟨"merge sequences", fun g => mergeSequence g⟩,
    ⟨"join terminating branches", duplicating joinTerminating⟩,
    ⟨"join one terminating branch", duplicating joinOneTerminating⟩,
    ⟨"make endless loops", makeEndlessLoop⟩,
    ⟨"make while loops", makeWhileLoop⟩,
    ⟨"join optional branches", duplicating joinOptional⟩,
    ⟨"join converging branches", duplicating joinConverging⟩,
    ⟨"merge two node cycles", fun g => mergeTwoNodeCycle g⟩,
    ⟨"make small circle loops", makeSmallCircle⟩,
    ⟨"make two exit circle loops", makeTwoExitCircle⟩]

end Reduce

/-- The weight of a graph: its nodes, its branches, and its nodes with successors, added up. -/
def Graph.weight (g : Graph) : Nat :=
  g.size + (g.nodes.filter fun (_, n) => n.exit.isBranch).length +
    (g.nodes.filter fun (_, n) => !n.exit.isRet).length

/-- How a reduction can end. -/
inductive Reduction where
  /-- One node is left, and it leads nowhere. -/
  | solved (g : Graph)
  /-- No rule applies any more; did one apply at all? -/
  | stuck (g : Graph) (changed : Bool)
  /-- The graph after a step did not pass its check. -/
  | rejected (g : Graph) (e : StructureError)

namespace Reduction

def graph : Reduction → Graph
  | solved g => g
  | stuck g _ => g
  | rejected g _ => g

end Reduction

namespace Reduce

/-- The error of a check, if it finds one. -/
def checkError? (g : Graph) (step : String) : EngineM (Option StructureError) := do
  match ← observing (checkStep g step) with
  | .ok () => return none
  | .error (.error e) => return some e
  | .error (.fault f) => throw (.fault f)

/-- The application of a rule goes into the log, with the graph it leads to. -/
def logApplied (name : String) (g : Graph) : EngineM Unit := do
  if ← isTracing then emit (.applied name g.size (g.dump (← get).locals))

/-- One rule, as long as it applies.  `fuel` bounds how often, and `changed` tells whether some
rule applied before. -/
def exhaust (rule : Rule) : (fuel : Nat) → Graph → (changed : Bool) → EngineM Reduction
  | 0, g, changed => return .stuck g changed
  | fuel + 1, g, changed => do
      match ← rule.apply g with
      | none => return .stuck g changed
      | some g =>
          logApplied rule.name g
          match ← checkError? g rule.name with
          | some e => return .rejected g e
          | none => if g.isSolved then return .solved g else exhaust rule fuel g true

/-- Several rules, each as long as it applies.  No rule applies more often than the weight of the
graph. -/
def pass : List Rule → Graph → (changed : Bool) → EngineM Reduction
  | [], g, changed => return .stuck g changed
  | rule :: rules, g, changed => do
      match ← exhaust rule (g.weight + 1) g changed with
      | .stuck g changed => pass rules g changed
      | ended => return ended

/-- Passes over all rules until one of them changes nothing.  `fuel` bounds their number. -/
def passes : (fuel : Nat) → Graph → (changed : Bool) → EngineM Reduction
  | 0, g, changed => return .stuck g changed
  | fuel + 1, g, changed => do
      match ← pass rules g false with
      | .stuck g true => passes fuel g true
      | .stuck g false => return .stuck g changed
      | ended => return ended

end Reduce

/-- Rules are applied until the graph is solved or none of them applies.  Every pass but the last
lowers the weight of the graph. -/
def reduce (g : Graph) : EngineM Reduction :=
  if g.isSolved then return .solved g else Reduce.passes (g.weight + 1) g false

end Structurer
