/-
**Command-line options.**

The command line is read from left to right.  Options may come before or after the input, the value
of an option after it or after an equals sign; `--` ends the options.  The first thing that is
wrong, or a request for the version or for help, settles what happens.
-/

import Structurer.Engine.Settings

namespace Structurer

inductive OptionFlag where
  | allowDuplication
  | strictReferences
  | validateSteps
  | comments
  deriving DecidableEq, Repr

inductive ValueOption where
  | output
  | graphDir
  deriving DecidableEq, Repr

/-- What a run is asked to do. -/
structure Options where
  /-- The method source to structure. -/
  input : String
  /-- Where the code goes instead of the standard output. -/
  output : Option String
  /-- Where graphs that needed a dispatch loop are kept. -/
  graphDir : Option String
  flags : List OptionFlag
  deriving DecidableEq, Repr

def Options.settings (o : Options) : Settings :=
  { Settings.standard with
    allowDuplication := o.flags.contains .allowDuplication
    strictReferences := o.flags.contains .strictReferences
    validateSteps := o.flags.contains .validateSteps
    comments := o.flags.contains .comments }

/-- What a command line asks for. -/
inductive Invocation where
  | run (options : Options)
  | version
  | help
  | invalid
  deriving DecidableEq, Repr

namespace CommandLine

/-- What has been read of a command line. -/
structure Reading where
  input : Option String
  output : Option String
  graphDir : Option String
  flags : List OptionFlag
  deriving DecidableEq, Repr

inductive LongOption where
  | flag (f : OptionFlag)
  | value (o : ValueOption)
  | version
  | help
  deriving DecidableEq, Repr

def LongOption.ofName? : String → Option LongOption
  | "allow-duplication" => some (.flag .allowDuplication)
  | "strict-references" => some (.flag .strictReferences)
  | "validate-steps" => some (.flag .validateSteps)
  | "comments" => some (.flag .comments)
  | "output" => some (.value .output)
  | "graph-dir" => some (.value .graphDir)
  | "version" => some .version
  | "help" => some .help
  | _ => none

namespace Reading

def empty : Reading := ⟨none, none, none, []⟩

/-- The input is set, which is possible once. -/
def setInput? (r : Reading) (value : String) : Option Reading :=
  if r.input.isSome then none else some { r with input := some value }

/-- A flag is set, which is possible once. -/
def setFlag? (r : Reading) (f : OptionFlag) : Option Reading :=
  if r.flags.contains f then none else some { r with flags := f :: r.flags }

/-- An option gets its value, which is possible once. -/
def setValue? (r : Reading) (o : ValueOption) (value : String) : Option Reading :=
  match o with
  | .output => if r.output.isSome then none else some { r with output := some value }
  | .graphDir => if r.graphDir.isSome then none else some { r with graphDir := some value }

/-- What is asked for at the end of the command line; an input is needed. -/
def finish (r : Reading) : Invocation :=
  match r.input with
  | some input => .run { input, output := r.output, graphDir := r.graphDir, flags := r.flags }
  | none => .invalid

end Reading

/-- Could an argument be an option?  A single hyphen is a value like any other. -/
def isOption (arg : String) : Bool := arg.startsWith "-" && arg ≠ "-"

/-- The name of a long option, and its value if one is attached by an equals sign. -/
def splitAttached (arg : List Char) : String × Option String :=
  let name := arg.takeWhile (· ≠ '=')
  match arg.dropWhile (· ≠ '=') with
  | [] => (String.ofList name, none)
  | _ :: value => (String.ofList name, some (String.ofList value))

/-- The arguments after the options: all of them are inputs. -/
def readInputs (r : Reading) : List String → Invocation
  | [] => r.finish
  | arg :: args =>
      match r.setInput? arg with
      | some r => readInputs r args
      | none => .invalid

/-- A short option: only those for the version and for help exist. -/
def readShort : List Char → Invocation
  | 'V' :: _ => .version
  | 'h' :: _ => .help
  | _ => .invalid

/-- Does reading go on, and with what, or is the outcome settled? -/
inductive Step where
  | next (r : Reading)
  /-- The option takes the next argument as its value. -/
  | await (o : ValueOption)
  | settled (i : Invocation)

/-- Reading goes on if it can. -/
def Step.ofOption : Option Reading → Step
  | some r => .next r
  | none => .settled .invalid

/-- A long option, without its hyphens. -/
def readLong (r : Reading) (arg : List Char) : Step :=
  match splitAttached arg with
  | (name, value?) =>
      match LongOption.ofName? name, value? with
      | some (.value o), some value => .ofOption (r.setValue? o value)
      | some (.value o), none => .await o
      | some (.flag f), none => .ofOption (r.setFlag? f)
      | some .version, none => .settled .version
      | some .help, none => .settled .help
      | _, _ => .settled .invalid

/-- The arguments of a command line, from left to right; `awaited` is an option whose value is the
next argument. -/
def readArgs (r : Reading) : (awaited : Option ValueOption) → List String → Invocation
  | some _, [] => .invalid
  | none, [] => r.finish
  | some o, arg :: args =>
      if isOption arg then .invalid
      else
        match r.setValue? o arg with
        | some r => readArgs r none args
        | none => .invalid
  | none, arg :: args =>
      match arg.toList with
      | ['-', '-'] => readInputs r args
      | '-' :: '-' :: long =>
          match readLong r long with
          | .next r => readArgs r none args
          | .await o => readArgs r (some o) args
          | .settled i => i
      | '-' :: c :: short => readShort (c :: short)
      | _ =>
          match r.setInput? arg with
          | some r => readArgs r none args
          | none => .invalid

end CommandLine

/-- What a command line asks for. -/
def Invocation.ofArgs (args : List String) : Invocation :=
  CommandLine.readArgs .empty none args

end Structurer
