/-
**Reading one instruction.**

Sources hold the flat instructions of basic blocks, one a line: a mnemonic and its operand.
-/

import Structurer.Code.Instruction
import Structurer.Number.Decimal
import Structurer.Source.Error
import Structurer.Text.Words

namespace Structurer.Source

open Text Number

def readType (cs : List Char) : Except SourceProblem ValueType :=
  match ValueType.ofName? (String.ofList cs) with
  | some t => .ok t
  | none => .error (.unknownType (String.ofList cs))

/-- The types that the words of a text spell. -/
def readTypes (cs : List Char) : Except SourceProblem StackType :=
  (words cs).mapM readType

/-- The variable of a name, in front of which a `$` may stand. -/
def readLocal (locals : Locals) (cs : List Char) : Except SourceProblem LocalId :=
  let name := String.ofList ((stripHead? ['$'] cs).getD cs)
  match locals.lookup name with
  | some id => .ok id
  | none => .error (.unknownLocal name)

/-- The number that a text spells. -/
def readNumber {α : Type} (read? : List Char → Option α) (cs : List Char) :
    Except SourceProblem α :=
  match read? cs with
  | some a => .ok a
  | none => .error (.invalidNumber (String.ofList cs))

/-- The type of a call: groups `(param ..)` and `(result ..)` in any number and order, and nothing
after them.  `fuel` bounds the number of groups. -/
def readCallType :
    (fuel : Nat) → (inputs outputs : StackType) → List Char →
      Except SourceProblem (StackType × StackType)
  | fuel + 1, inputs, outputs, cs =>
      match stripHead? ['('] (trimStart cs) with
      | none =>
          match trim cs with
          | [] => .ok (inputs, outputs)
          | rest => .error (.afterCall (String.ofList rest))
      | some cs =>
          match splitAtChar? ')' cs with
          | none => .error .noClosing
          | some (group, rest) => do
              let (keyword, types) := splitWord group
              match String.ofList keyword with
              | "param" => readCallType fuel (inputs ++ (← readTypes types)) outputs rest
              | "result" => readCallType fuel inputs (outputs ++ (← readTypes types)) rest
              | other => .error (.callGroup other)
  | 0, _, _, cs => .error (.afterCall (String.ofList (trim cs)))

/-- A call: a name and a type.  Every group has at least two characters, so the length of the text
bounds their number. -/
def readCall (cs : List Char) : Except SourceProblem Instruction := do
  let (name, rest) := splitWord cs
  let (inputs, outputs) ← readCallType (rest.length + 1) [] [] rest
  return .call (String.ofList name) inputs outputs

/-- The instruction that a line without blanks at its ends spells. -/
def readInstruction (locals : Locals) (line : List Char) : Except SourceProblem Instruction :=
  match stripHead? [';', ';'] line with
  | some text => .ok (.comment (String.ofList (trim text)))
  | none =>
      let (word, rest) := splitWord line
      match String.ofList word with
      | "i32.const" => return .i32Const (← readNumber int32? rest)
      | "i64.const" => return .i64Const (← readNumber int64? rest)
      | "f32.const" => return .f32Const (← readNumber (Binary.ofChars? .single) rest)
      | "f64.const" => return .f64Const (← readNumber (Binary.ofChars? .double) rest)
      | "local.get" => return .localGet (← readLocal locals rest)
      | "local.set" => return .localSet (← readLocal locals rest)
      | "drop" => .ok .drop
      | "unreachable" => .ok .unreachable
      | "return" => .ok .ret
      | "call" => readCall rest
      | mnemonic =>
          match NumericOp.ofMnemonic? mnemonic, rest with
          | some op, [] => .ok (.numeric op)
          | _, _ => .error (.unsupported (String.ofList line))

end Structurer.Source
