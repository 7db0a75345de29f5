/-
**A run of the command line.**

A run reads a method source, structures it, keeps the graphs that needed a dispatch loop if it is
asked to, and writes the code.
-/

import Structurer.CommandLine.Options
import Structurer.CommandLine.Report
import Structurer.Source.Method
import Structurer.Store.GraphStore
import Structurer.Structure

namespace Structurer

/-- What a run leaves. -/
structure Outcome where
  status : Nat
  stdout : String
  stderr : String
  deriving DecidableEq, Repr

namespace CommandLine

def versionText : String := "JVM to WASM control flow structurer 0.1.0\n"

def helpText : String :=
  "Turns the basic blocks of a JVM method into structured WASM code\n\n" ++
  "Usage: structurer [OPTIONS] <INPUT>\n\n" ++
  "Arguments:\n" ++
  "  <INPUT>  Sets the method graph file to structure\n\n" ++
  "Options:\n" ++
  "      --output <FILE>      Write the structured code here instead of standard output\n" ++
  "      --allow-duplication  Inline nodes into several predecessors when that avoids a fallback\n" ++
  "      --strict-references  Don't treat references and i32 values as interchangeable\n" ++
  "      --validate-steps     Check the whole graph after every step\n" ++
  "      --comments           Annotate the generated code with comments\n" ++
  "      --graph-dir <DIR>    Save graphs which needed the dispatch loop fallback into this folder\n" ++
  "  -h, --help               Print help\n" ++
  "  -V, --version            Print version\n"

/-- The report of a command line that is not a valid one. -/
def usageText : String := "error: invalid arguments\n\nFor more information, try '--help'.\n"

/-- The code of a structured method: a line with the method's name, and the lines of its body. -/
def codeText (ctx : Context) (n : Node) : String :=
  String.join (((";; " ++ ctx.signature.display) :: Body.render ctx.locals n.body).map (· ++ "\n"))

def failed (e : RunError) : Outcome := ⟨1, "", e.report⟩

variable {m : Type → Type} [Monad m] [MonadFiles m]

/-- Graphs are kept in a folder.  What cannot be kept is left out. -/
def keepGraphs (folder : String) (fallbacks : List Fallback) : m Unit := do
  let _ ← fallbacks.foldlM (fun s f => return (← s.save f).2) (GraphStore.new folder)

/-- The code goes to its file, or to the standard output. -/
def deliver (options : Options) (code : String) : m Outcome := do
  match options.output with
  | none => return ⟨0, code, ""⟩
  | some path =>
      match ← MonadFiles.writeText path code with
      | .ok () => return ⟨0, "", ""⟩
      | .error e => return failed (.file path e)

/-- A method is structured as the options say. -/
def structureMethod (options : Options) (method : Method) : m Outcome := do
  let start := Context.initial method.signature method.locals options.settings none
  let (result, ctx) := (structureGraph method.graph).run start
  if let some folder := options.graphDir then keepGraphs folder ctx.fallbacks
  match result with
  | .ok n => deliver options (codeText ctx n)
  | .error (.error e) => return failed (.unstructured e)
  | .error (.fault f) => return ⟨101, "", f.message ++ "\n"⟩

def runOptions (options : Options) : m Outcome := do
  match ← MonadFiles.readText options.input with
  | .error e => return failed (.file options.input e)
  | .ok text =>
      match Method.ofText text with
      | .error e => return failed (.source options.input e)
      | .ok method => structureMethod options method

end CommandLine

open CommandLine in
/-- A run with the given arguments. -/
def run {m : Type → Type} [Monad m] [MonadFiles m] (args : List String) : m Outcome :=
  match Invocation.ofArgs args with
  | .run options => runOptions options
  | .version => return ⟨0, versionText, ""⟩
  | .help => return ⟨0, helpText, ""⟩
  | .invalid => return ⟨2, "", usageText⟩

end Structurer
