/-
**Running code.**

Code is run on an operand stack, on local variables and in a world that answers its calls.  What the
functions called do is not known: the world answers each call by some values of the right types, or
lets it trap, and the answer may depend on all calls made before.  Arithmetic on floating-point
numbers is the world's business too.

A run of code ends in one of several ways: it reaches the end, it jumps to a loop around it, it
returns, or it traps.  Code that does not fit its stack can also get *stuck*, by popping what is not
there, or a value of the wrong kind, or by reading a variable that holds nothing, or by storing a value
that a variable does not take.  Code may also run
for ever; it has no result then.
-/

import Mathlib.Data.List.Forall2
import Structurer.Code.Body
import Structurer.Proofs.Iteration

namespace Structurer.Machine

open Number (Binary)
open Iteration

/-! ### Values and the world -/

/-- A value on the operand stack or in a local variable.  References are 32-bit integers. -/
inductive Value where
  | i32 (v : Int32)
  | i64 (v : Int64)
  | f32 (v : Binary .single)
  | f64 (v : Binary .double)
  deriving DecidableEq

namespace Value

def category : Value → StackCategory
  | i32 _ => .i32
  | i64 _ => .i64
  | f32 _ => .f32
  | f64 _ => .f64

def Has (v : Value) (t : ValueType) : Prop := v.category = t.erase

instance (v : Value) (t : ValueType) : Decidable (v.Has t) :=
  inferInstanceAs (Decidable (v.category = t.erase))

def ofBool (b : Bool) : Value := i32 (if b then 1 else 0)

def ofType : ValueType → Value
  | .i32 => i32 0
  | .i64 => i64 0
  | .f32 => f32 (.zero false)
  | .f64 => f64 (.zero false)
  | .ref => i32 0

theorem ofType_has (t : ValueType) : (ofType t).Has t := by
  cases t <;> rfl

end Value

/-- A call that was made: the function, its type, and its arguments, the top of the stack last. -/
structure Call where
  name : String
  inputs : StackType
  outputs : StackType
  args : List Value
  deriving DecidableEq

/-- What code cannot know: how calls are answered, and arithmetic on floating-point numbers. -/
structure World where
  /-- The answer to a call after some others, none if the call traps. -/
  answer : (calls : List Call) → (call : Call) → Option (List Value)
  /-- An answer has the types of the function's results. -/
  answer_has : ∀ {calls : List Call} {call : Call} {values : List Value},
    answer calls call = some values → List.Forall₂ Value.Has values call.outputs
  single : NumericOp → Binary .single → Binary .single → Binary .single
  double : NumericOp → Binary .double → Binary .double → Binary .double
  promote : Binary .single → Binary .double
  demote : Binary .double → Binary .single

def World.quiet : World where
  answer _ call := some (call.outputs.map Value.ofType)
  answer_has h := by
    cases h
    exact List.forall₂_map_left_iff.2 (List.forall₂_same.2 fun t _ => Value.ofType_has t)
  single _ a _ := a
  double _ a _ := a
  promote _ := .zero false
  demote _ := .zero false

def evalOp (w : World) : NumericOp → List Value → Option Value
  | .i32Add, [.i32 a, .i32 b] => some (.i32 (a + b))
  | .i32Sub, [.i32 a, .i32 b] => some (.i32 (a - b))
  | .i32Mul, [.i32 a, .i32 b] => some (.i32 (a * b))
  | .i32And, [.i32 a, .i32 b] => some (.i32 (a &&& b))
  | .i32Or, [.i32 a, .i32 b] => some (.i32 (a ||| b))
  | .i32Xor, [.i32 a, .i32 b] => some (.i32 (a ^^^ b))
  | .i32Eqz, [.i32 a] => some (.ofBool (a = 0))
  | .i32Eq, [.i32 a, .i32 b] => some (.ofBool (a = b))
  | .i32Ne, [.i32 a, .i32 b] => some (.ofBool (a ≠ b))
  | .i32LtS, [.i32 a, .i32 b] => some (.ofBool (a < b))
  | .i32LeS, [.i32 a, .i32 b] => some (.ofBool (a ≤ b))
  | .i32GtS, [.i32 a, .i32 b] => some (.ofBool (b < a))
  | .i32GeS, [.i32 a, .i32 b] => some (.ofBool (b ≤ a))
  | .i64Add, [.i64 a, .i64 b] => some (.i64 (a + b))
  | .i64Sub, [.i64 a, .i64 b] => some (.i64 (a - b))
  | .i64Mul, [.i64 a, .i64 b] => some (.i64 (a * b))
  | .i64Eqz, [.i64 a] => some (.ofBool (a = 0))
  | .i64Eq, [.i64 a, .i64 b] => some (.ofBool (a = b))
  | .i64Ne, [.i64 a, .i64 b] => some (.ofBool (a ≠ b))
  | .i64LtS, [.i64 a, .i64 b] => some (.ofBool (a < b))
  | .i64LeS, [.i64 a, .i64 b] => some (.ofBool (a ≤ b))
  | .i64GtS, [.i64 a, .i64 b] => some (.ofBool (b < a))
  | .i64GeS, [.i64 a, .i64 b] => some (.ofBool (b ≤ a))
  | .f32Add, [.f32 a, .f32 b] => some (.f32 (w.single .f32Add a b))
  | .f32Sub, [.f32 a, .f32 b] => some (.f32 (w.single .f32Sub a b))
  | .f32Mul, [.f32 a, .f32 b] => some (.f32 (w.single .f32Mul a b))
  | .f64Add, [.f64 a, .f64 b] => some (.f64 (w.double .f64Add a b))
  | .f64Sub, [.f64 a, .f64 b] => some (.f64 (w.double .f64Sub a b))
  | .f64Mul, [.f64 a, .f64 b] => some (.f64 (w.double .f64Mul a b))
  | .i32WrapI64, [.i64 a] => some (.i32 a.toInt32)
  | .i64ExtendI32S, [.i32 a] => some (.i64 a.toInt64)
  | .f64PromoteF32, [.f32 a] => some (.f64 (w.promote a))
  | .f32DemoteF64, [.f64 a] => some (.f32 (w.demote a))
  | _, _ => none

/-! ### States and results -/

/-- What a run works on. -/
structure State where
  /-- The operand stack, its top first. -/
  stack : List Value
  /-- What the local variables hold, if anything. -/
  locals : LocalId → Option Value
  /-- The calls made so far. -/
  calls : List Call

namespace State

def withStack (s : State) (stack : List Value) : State := { s with stack }

def push (s : State) (v : Value) : State := s.withStack (v :: s.stack)

def set (s : State) (id : LocalId) (v : Value) : State :=
  { s with locals := fun i => if i = id then some v else s.locals i }

variable (s : State) (l l' : List Value) (id : LocalId) (v : Value)

@[simp] theorem withStack_stack : (s.withStack l).stack = l := rfl
@[simp] theorem withStack_locals : (s.withStack l).locals = s.locals := rfl
@[simp] theorem withStack_calls : (s.withStack l).calls = s.calls := rfl
@[simp] theorem withStack_withStack : (s.withStack l).withStack l' = s.withStack l' := rfl
@[simp] theorem withStack_self : s.withStack s.stack = s := rfl
@[simp] theorem push_stack : (s.push v).stack = v :: s.stack := rfl
@[simp] theorem push_locals : (s.push v).locals = s.locals := rfl
@[simp] theorem push_calls : (s.push v).calls = s.calls := rfl
@[simp] theorem set_stack : (s.set id v).stack = s.stack := rfl
@[simp] theorem set_calls : (s.set id v).calls = s.calls := rfl
@[simp] theorem set_locals_self : (s.set id v).locals id = some v := by
  simp [set]

theorem set_locals_of_ne {id i : LocalId} (h : i ≠ id) :
    (s.set id v).locals i = s.locals i := by
  simp [set, h]

theorem set_withStack : (s.set id v).withStack l = (s.withStack l).set id v := rfl

end State

/-- How a run ends. -/
inductive Result where
  /-- The end of the code was reached. -/
  | next (s : State)
  /-- The code jumped to a loop around it. -/
  | jump (label : LoopLabel) (s : State)
  | returned (s : State)
  | trapped (s : State)
  /-- An instruction did not find what it needs. -/
  | stuck

def andThen (r : Option Result) (k : State → Option Result) : Option Result :=
  match r with
  | some (.next s) => k s
  | r => r

/-! ### Instructions -/

def State.callOf (s : State) (name : String) (inputs outputs : StackType) : Call :=
  ⟨name, inputs, outputs, (s.stack.take inputs.length).reverse⟩

def State.afterCall (s : State) (c : Call) : State :=
  ⟨s.stack.drop c.inputs.length, s.locals, s.calls ++ [c]⟩

def answered (made : State) : Option (List Value) → Result
  | some values => .next (made.withStack (values.reverse ++ made.stack))
  | none => .trapped made

/-- A call of a function, which takes arguments of its own types only. -/
def call (w : World) (name : String) (inputs outputs : StackType) (s : State) : Result :=
  if List.Forall₂ Value.Has (s.callOf name inputs outputs).args inputs then
    answered (s.afterCall (s.callOf name inputs outputs))
      (w.answer s.calls (s.callOf name inputs outputs))
  else .stuck

/-- Which values the variables take.  A run gets stuck when it stores another one. -/
class Storage where
  takes : LocalId → Value → Bool

namespace Storage

instance any : Storage := ⟨fun _ _ => true⟩

/-- Variables that are known take the values of their types, and no others take any. -/
abbrev typed (ls : Locals) : Storage := ⟨fun id v => (ls.get? id).any fun var => v.Has var.valueType⟩

end Storage

def assign [Storage] (id : LocalId) (v : Value) (s : State) : Result :=
  if Storage.takes id v then .next (s.set id v) else .stuck

@[simp] theorem assign_any (id : LocalId) (v : Value) (s : State) : assign id v s = .next (s.set id v) := rfl

variable [Storage]

def simple (w : World) : Instruction → State → Result
  | .i32Const v, s => .next (s.push (.i32 v))
  | .i64Const v, s => .next (s.push (.i64 v))
  | .f32Const v, s => .next (s.push (.f32 v))
  | .f64Const v, s => .next (s.push (.f64 v))
  | .localGet id, s =>
    match s.locals id with
    | some v => .next (s.push v)
    | none => .stuck
  | .localSet id, s =>
    match s.stack with
    | v :: rest => assign id v (s.withStack rest)
    | [] => .stuck
  | .numeric op, s =>
    match evalOp w op (s.stack.take op.inputs.length).reverse with
    | some v => .next (s.withStack (v :: s.stack.drop op.inputs.length))
    | none => .stuck
  | .drop, s =>
    match s.stack with
    | _ :: rest => .next (s.withStack rest)
    | [] => .stuck
  | .call name inputs outputs, s => call w name inputs outputs s
  | .br label, s => .jump label s
  | .brIf label, s =>
    match s.stack with
    | .i32 c :: rest => if c ≠ 0 then .jump label (s.withStack rest) else .next (s.withStack rest)
    | _ => .stuck
  | .unreachable, s => .trapped s
  | .ret, s => .returned s
  | .comment _, s => .next s
  | .cond .., s => .next s
  | .loop .., s => .next s
  | .switch .., s => .next s

/-- What a loop does at the end of a round.  A jump to the loop starts the next round, with the
values the header takes on top of what was below the loop. -/
def endRound (label : LoopLabel) (arity : Nat) (base : List Value) : Result → State ⊕ Result
  | .jump l s =>
    if l = label then
      if arity ≤ s.stack.length then .inl (s.withStack (s.stack.take arity ++ base))
      else .inr .stuck
    else .inr (.jump l s)
  | r => .inr r

/-- The rounds of a loop, whose body is run by `body`. -/
noncomputable def rounds (label : LoopLabel) (arity : Nat) (base : List Value)
    (body : State → Option Result) : State → Option Result :=
  iter fun s => (body s).map (endRound label arity base)

mutual

/-- The run of an instruction. -/
noncomputable def execInstruction (w : World) : Instruction → State → Option Result
  | .cond _ _ t e, s =>
    match s.stack with
    | .i32 c :: rest =>
      if c ≠ 0 then exec w t (s.withStack rest) else exec w e (s.withStack rest)
    | _ => some .stuck
  | .loop label params _ body, s =>
    if params.length ≤ s.stack.length then
      rounds label params.length (s.stack.drop params.length) (exec w body) s
    else some .stuck
  | .switch selector cases, s =>
    match s.locals selector with
    | some (.i32 k) => if 0 ≤ k then execCase w cases k.toInt.toNat s else some (.trapped s)
    | _ => some .stuck
  | i, s => some (simple w i s)

/-- The run of a body. -/
noncomputable def exec (w : World) : List Instruction → State → Option Result
  | [], s => some (.next s)
  | i :: is, s => andThen (execInstruction w i s) (exec w is)

/-- The run of the case of a number; without such a case the run traps. -/
noncomputable def execCase (w : World) : List (List Instruction) → Nat → State → Option Result
  | [], _, s => some (.trapped s)
  | b :: _, 0, s => exec w b s
  | _ :: bs, k + 1, s => execCase w bs k s

end

end Structurer.Machine
