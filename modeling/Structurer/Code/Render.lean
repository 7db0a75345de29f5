/-
**Rendering code.**

Code is shown one instruction or block delimiter a line, two blanks of indentation for each level
of nesting.  A switch has no instruction of its own in the output: it becomes a ladder of nested
blocks around a jump table, in which leaving the block of depth `i` lands at the code of case `i`,
and one more block catches a selector out of range.
-/

import Structurer.Code.Body
import Structurer.Number.Shortest
import Structurer.Text.Words

namespace Structurer

/-- A group of a type, such as ` (param i32 i64)`; an empty group is left out. -/
def typeGroup (keyword : String) (types : StackType) : String :=
  if types.isEmpty then ""
  else " (" ++ keyword ++ String.join (types.map fun t => " " ++ t.name) ++ ")"

/-- The spelling of a type from parameters to results. -/
def blockType (params results : StackType) : String :=
  typeGroup "param" params ++ typeGroup "result" results

/-- A line of a given depth. -/
def indented (depth : Nat) (text : String) : String :=
  String.join (List.replicate depth "  ") ++ text

/-- The head of the ladder of a switch with `n` cases: the blocks opened, outermost first. -/
def switchHead (depth n : Nat) : List String :=
  indented depth "block ;; switch" ::
  indented (depth + 1) "block ;; out of range" ::
  (List.range n).map fun k =>
    indented (depth + 2 + k) ("block ;; case " ++ toString (n - 1 - k))

/-- The jump table of a switch with `n` cases: case `i` leaves `i` blocks. -/
def jumpTable (n : Nat) : String :=
  "br_table " ++ " ".intercalate ((List.range (n + 1)).map toString)

mutual

def Instruction.render (locals : Locals) (depth : Nat) : Instruction → List String
  | .i32Const v => [indented depth ("i32.const " ++ toString v.toInt)]
  | .i64Const v => [indented depth ("i64.const " ++ toString v.toInt)]
  | .f32Const v => [indented depth ("f32.const " ++ v.display)]
  | .f64Const v => [indented depth ("f64.const " ++ v.display)]
  | .localGet l => [indented depth ("local.get $" ++ locals.name l)]
  | .localSet l => [indented depth ("local.set $" ++ locals.name l)]
  | .numeric op => [indented depth op.mnemonic]
  | .drop => [indented depth "drop"]
  | .call n i o => [indented depth ("call " ++ n ++ blockType i o)]
  | .comment t => [indented depth (";; " ++ t)]
  | .cond p r t e =>
      indented depth ("if" ++ blockType p r) :: Body.renderAt locals (depth + 1) t ++
        (match e with
          | [] => []
          | e => indented depth "else" :: Body.renderAt locals (depth + 1) e) ++
        [indented depth "end"]
  | .loop l p r b =>
      indented depth ("loop " ++ l.display ++ blockType p r) ::
        Body.renderAt locals (depth + 1) b ++ [indented depth "end"]
  | .br l => [indented depth ("br " ++ l.display)]
  | .brIf l => [indented depth ("br_if " ++ l.display)]
  | .switch s cs =>
      switchHead depth cs.length ++
        [indented (depth + 2 + cs.length) ("local.get $" ++ locals.name s),
          indented (depth + 2 + cs.length) (jumpTable cs.length)] ++
        Body.renderCases locals (depth + 1) cs ++
        [indented (depth + 1) "end", indented (depth + 1) "unreachable", indented depth "end"]
  | .unreachable => [indented depth "unreachable"]
  | .ret => [indented depth "return"]

def Body.renderAt (locals : Locals) (depth : Nat) : List Instruction → List String
  | [] => []
  | i :: is => Instruction.render locals depth i ++ Body.renderAt locals depth is

/-- The lines of the cases of a switch: each closes its block, and leaves the whole switch if it
falls through.  The first of `n` cases stands `n` levels inside `depth`. -/
def Body.renderCases (locals : Locals) (depth : Nat) : List (List Instruction) → List String
  | [] => []
  | c :: cs =>
      let inner := depth + 1 + cs.length
      indented inner "end" :: Body.renderAt locals inner c ++
        (if Body.fallsThrough c then [indented inner ("br " ++ toString (cs.length + 1))]
          else []) ++
        Body.renderCases locals depth cs

end

namespace Body

def render (locals : Locals) (body : Body) : List String := renderAt locals 0 body

def inline (locals : Locals) (body : Body) : String :=
  " | ".intercalate ((render locals body).map fun l => String.ofList (Text.trim l.toList))

end Body

end Structurer
