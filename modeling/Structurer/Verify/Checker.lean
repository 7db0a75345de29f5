/-
**The stack check.**

Code is run on types instead of values: the check follows the types on the operand stack through a
body, and through the bodies nested in it.  What comes after an instruction that never falls
through is dead and is not looked at.
-/

import Structurer.Code.Render
import Structurer.Graph.Basic
import Structurer.Verify.Error

namespace Structurer

/-- Whether execution can get past the end of some code. -/
inductive Flow where
  | fallsThrough
  | terminates
  deriving DecidableEq, Repr

/-- Execution gets past two alternatives unless both terminate. -/
def Flow.join : Flow → Flow → Flow
  | .terminates, .terminates => .terminates
  | _, _ => .fallsThrough

/-- What the stack check has to know besides the code. -/
structure Checker where
  locals : Locals
  /-- What a `return` must find on top of the stack. -/
  methodResults : StackType
  strict : Bool
  /-- The loops, outermost first, that enclose all the code.  They take no parameters. -/
  outerLoops : List LoopLabel

/-- A loop around the code being checked, with what its header expects on the stack. -/
structure LoopFrame where
  label : LoopLabel
  params : StackType
  deriving DecidableEq, Repr

namespace Checker

/-! ### Single steps -/

/-- The stack below the expected values, which must be on top of it. -/
def pop (c : Checker) (stack expected : StackType) : Except VerifyCause StackType :=
  if stack.isEmpty && !expected.isEmpty then .error .emptyStack
  else if StackType.endsWith c.strict stack expected then
    .ok (stack.take (stack.length - expected.length))
  else .error (.stackMismatch expected stack)

/-- A jump to a loop that encloses it, the innermost of that label, needs what the loop's header
expects on top of the stack. -/
def checkJump (c : Checker) (loops : List LoopFrame) (stack : StackType) (label : LoopLabel) :
    Except VerifyCause Unit :=
  match loops.find? (·.label == label) with
  | none => .error (.unknownLabel label)
  | some frame =>
      if StackType.endsWith c.strict stack frame.params then .ok ()
      else .error (.branchMismatch label frame.params stack)

def localType (c : Checker) (id : LocalId) : Except VerifyCause ValueType :=
  match c.locals.get? id with
  | some v => .ok v.valueType
  | none => .error (.unknownLocal id)

/-- The selector of a switch is an integer variable. -/
def checkSelector (c : Checker) (id : LocalId) : Except VerifyCause Unit := do
  let t ← c.localType id
  if t.fits c.strict .i32 then .ok () else .error (.stackMismatch [.i32] [t])

/-- The effect on the stack of an instruction without nested bodies: the stack after it, or
nothing if it never falls through. -/
def stepSimple (c : Checker) (loops : List LoopFrame) (stack : StackType) :
    Instruction → Except VerifyCause (Option StackType)
  | .i32Const _ => .ok (some (stack ++ [.i32]))
  | .i64Const _ => .ok (some (stack ++ [.i64]))
  | .f32Const _ => .ok (some (stack ++ [.f32]))
  | .f64Const _ => .ok (some (stack ++ [.f64]))
  | .localGet id => do
      let t ← c.localType id
      return some (stack ++ [t])
  | .localSet id => do
      let t ← c.localType id
      return some (← c.pop stack [t])
  | .numeric op => do
      let rest ← c.pop stack op.inputs
      return some (rest ++ [op.output])
  | .drop => if stack.isEmpty then .error .emptyStack else .ok (some stack.dropLast)
  | .call _ inputs outputs => do
      let rest ← c.pop stack inputs
      return some (rest ++ outputs)
  | .br label => do
      c.checkJump loops stack label
      return none
  | .brIf label => do
      let rest ← c.pop stack [.i32]
      c.checkJump loops rest label
      return some rest
  | .unreachable => .ok none
  | .ret =>
      if StackType.endsWith c.strict stack c.methodResults then .ok none
      else .error (.stackMismatch c.methodResults stack)
  | .comment _ => .ok (some stack)
  | .cond .. => .ok (some stack)
  | .loop .. => .ok (some stack)
  | .switch .. => .ok (some stack)

/-- The failure of an instruction at a place. -/
def failAt (c : Checker) (path : List Nat) (i : Instruction) (cause : VerifyCause) : VerifyError :=
  { location := ⟨none, path, (Body.render c.locals [i]).headD ""⟩, cause }

/-- A step of an instruction at a place. -/
def locate {α : Type} (c : Checker) (path : List Nat) (i : Instruction)
    (step : Except VerifyCause α) : Except VerifyError α :=
  step.mapError (c.failAt path i)

/-- The stack at the end of a block must be what the block leaves. -/
def checkEnd (c : Checker) (path : List Nat) (stack expected : StackType) :
    Except VerifyError Flow :=
  if StackType.fits c.strict stack expected then .ok .fallsThrough
  else .error { location := ⟨none, path, "end"⟩, cause := .stackMismatch expected stack }

/-! ### Bodies -/

mutual

/-- The stack after an instruction, or nothing if it never falls through.  `loops` are the
enclosing loops, innermost first, and `path` leads to the instruction. -/
def checkInstruction (c : Checker) (loops : List LoopFrame) (path : List Nat) (stack : StackType) :
    Instruction → Except VerifyError (Option StackType)
  | .cond params results t e => do
      let rest ← c.locate path (.cond params results t e)
        (do c.pop (← c.pop stack [.i32]) params)
      let flow ← checkBlock c loops (path ++ [0]) 0 params results t
      let flow' ← checkBlock c loops (path ++ [1]) 0 params results e
      return if flow.join flow' = .terminates then none else some (rest ++ results)
  | .loop label params results body => do
      let rest ← c.locate path (.loop label params results body) (c.pop stack params)
      let flow ← checkBlock c (⟨label, params⟩ :: loops) (path ++ [0]) 0 params results body
      return if flow = .terminates then none else some (rest ++ results)
  | .switch selector cases => do
      c.locate path (.switch selector cases) (c.checkSelector selector)
      let flow ← checkCases c loops path 0 cases
      return if flow = .terminates then none else some stack
  | i => c.locate path i (c.stepSimple loops stack i)

/-- A block from the position `k` on, with `stack` on entry and `expected` at its end. -/
def checkBlock (c : Checker) (loops : List LoopFrame) (path : List Nat) (k : Nat)
    (stack expected : StackType) : List Instruction → Except VerifyError Flow
  | [] => c.checkEnd path stack expected
  | i :: is => do
      match ← checkInstruction c loops (path ++ [k]) stack i with
      | none => return .terminates
      | some stack => checkBlock c loops path (k + 1) stack expected is

/-- The cases of a switch from the position `k` on.  They start and end with an empty stack. -/
def checkCases (c : Checker) (loops : List LoopFrame) (path : List Nat) (k : Nat) :
    List (List Instruction) → Except VerifyError Flow
  | [] => .ok .terminates
  | b :: bs => do
      let flow ← checkBlock c loops (path ++ [k]) 0 [] [] b
      let flow' ← checkCases c loops path (k + 1) bs
      return flow.join flow'

end

/-- A body that starts with `params` on the stack and leaves `results` if it falls through. -/
def checkBody (c : Checker) (body : Body) (params results : StackType) : Except VerifyError Flow :=
  c.checkBlock (c.outerLoops.reverse.map fun l => ⟨l, []⟩) [] 0 params results body

/-! ### Nodes -/

/-- What the body of a node leaves on the stack if it falls through. -/
def nodeResults (c : Checker) (n : Node) : StackType :=
  match n.exit with
  | .seq _ => n.outputStack
  | .branch _ _ => n.outputStack ++ [.i32]
  | .ret => c.methodResults

/-- The body of a node against its stacks and its exit.  A node without successors must not fall
through. -/
def checkNode (c : Checker) (n : Node) : Except VerifyError Unit :=
  let result : Except VerifyError Unit := do
    let flow ← c.checkBody n.body n.inputStack (c.nodeResults n)
    if n.exit = .ret ∧ flow = .fallsThrough then throw ⟨.nowhere, .fallsThrough⟩
  result.mapError fun e => { e with location := { e.location with node := some n.index } }

def checkNodes (c : Checker) (g : Graph) : Except VerifyError Unit :=
  g.nodes.forM fun (_, n) => c.checkNode n

end Checker

end Structurer
