/-
**Errors in method sources.**
-/

namespace Structurer

inductive SourceProblem where
  | outsideNode
  | duplicateMethod
  | duplicateLocal (name : String)
  | duplicateNode (name : String)
  | noArrowAfterInput
  | unknownDeclaration (word : String)
  | unknownNode (name : String)
  | missingMethod
  | noNodes
  | unknownType (name : String)
  | noOpening
  | noClosing
  | methodShape
  | noArrowBeforeResults
  | exitShape (text : String)
  | unknownLocal (name : String)
  | invalidNumber (text : String)
  | callGroup (word : String)
  | afterCall (text : String)
  | unsupported (line : String)
  deriving DecidableEq, Repr

def SourceProblem.message : SourceProblem → String
  | outsideNode => "instruction outside of a node"
  | duplicateMethod => "duplicate method line"
  | duplicateLocal name => "duplicate local `" ++ name ++ "`"
  | duplicateNode name => "duplicate node `" ++ name ++ "`"
  | noArrowAfterInput => "expected `->` after input stack"
  | unknownDeclaration word => "unknown declaration `" ++ word ++ "`"
  | unknownNode name => "unknown node `" ++ name ++ "`"
  | missingMethod => "missing method line"
  | noNodes => "method has no nodes"
  | unknownType name => "unknown type `" ++ name ++ "`"
  | noOpening => "expected `(`"
  | noClosing => "expected `)`"
  | methodShape => "expected `method <class> <name> <descriptor> -> <results>`"
  | noArrowBeforeResults => "expected `->` before method results"
  | exitShape text =>
      "expected `seq <next>`, `branch <true> <false>`, or `return` but got `" ++ text ++ "`"
  | unknownLocal name => "unknown local `" ++ name ++ "`"
  | invalidNumber text => "invalid number `" ++ text ++ "`"
  | callGroup word => "unexpected `" ++ word ++ "` in call type"
  | afterCall text => "unexpected `" ++ text ++ "` after call"
  | unsupported line => "unsupported instruction `" ++ line ++ "`"

structure SourceError where
  /-- The number of the line, counted from one. -/
  line : Nat
  problem : SourceProblem
  deriving DecidableEq, Repr

end Structurer
