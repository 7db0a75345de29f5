/-
**Error reports of the command line.**

A run that fails reports its error with all the particulars, in the form of nested records.
-/

import Structurer.Engine.Error
import Structurer.Source.Error
import Structurer.Store.Files
import Structurer.Text.Quoted

namespace Structurer

inductive RunError where
  | file (path : String) (e : FileError)
  | source (path : String) (e : SourceError)
  | unstructured (e : StructureError)
  deriving DecidableEq, Repr

namespace Report

open Text (quoted quotedPath)

/-- A record: its name, and its fields with their values. -/
def record (name : String) (fields : List (String × String)) : String :=
  name ++ " \x7b " ++ ", ".intercalate (fields.map fun (f, v) => f ++ ": " ++ v) ++ " \x7d"

def applied (name : String) (values : List String) : String :=
  name ++ "(" ++ ", ".intercalate values ++ ")"

def list (values : List String) : String := "[" ++ ", ".intercalate values ++ "]"

def systemError (code : Nat) (kind message : String) : String :=
  record "Os" [("code", toString code), ("kind", kind), ("message", quoted message)]

def fileError : FileError → String
  | .notFound => systemError 2 "NotFound" "No such file or directory"
  | .denied => systemError 13 "PermissionDenied" "Permission denied"
  | .notFolder => systemError 20 "NotADirectory" "Not a directory"
  | .isFolder => systemError 21 "IsADirectory" "Is a directory"
  | .nameTooLong => systemError 36 "InvalidFilename" "File name too long"
  | .notText =>
      record "Error"
        [("kind", "InvalidData"), ("message", quoted "stream did not contain valid UTF-8")]
  | .other code message => systemError code "Uncategorized" message

def sourceError (e : SourceError) : String :=
  record "ParseError" [("line", toString e.line), ("message", quoted e.problem.message)]

def verifyCause : VerifyCause → String
  | .stackMismatch expected actual =>
      record "StackMismatch"
        [("expected", StackType.title expected), ("actual", StackType.title actual)]
  | .emptyStack => "EmptyStack"
  | .unknownLocal id => applied "UnknownLocal" [id.title]
  | .unknownLabel label => applied "UnknownLabel" [label.title]
  | .fallsThrough => "FallsThrough"
  | .branchMismatch label expected actual =>
      record "BranchStackMismatch"
        [("label", label.title), ("expected", StackType.title expected),
          ("actual", StackType.title actual)]

def location (l : Location) : String :=
  let node :=
    match l.node with
    | some k => applied "Some" [toString k]
    | none => "None"
  record "Location"
    [("node", node), ("path", list (l.path.map toString)), ("instruction", quoted l.instruction)]

def structureError : StructureError → String
  | .verifier e =>
      applied "Verifier"
        [record "VerifierError"
          [("location", location e.location), ("kind", verifyCause e.cause)]]
  | .edgeMismatch source target output input =>
      record "EdgeStackMismatch"
        [("from", toString source), ("to", toString target),
          ("output", StackType.title output), ("input", StackType.title input)]
  | .violation message dump =>
      record "InvariantViolation"
        [("message", quoted message), ("dump", list (dump.map quoted))]
  | .emptyGraph => "EmptyGraph"

end Report

open Report in
/-- The line that reports an error. -/
def RunError.report (e : RunError) : String :=
  "Error: " ++
    (match e with
      | file path e => applied "Io" [Text.quotedPath path, fileError e]
      | source path e => applied "Parse" [Text.quotedPath path, sourceError e]
      | unstructured e => applied "Structure" [structureError e]) ++ "\n"

end Structurer
