/-
**The program.**

The outermost layer: files of the operating system, the standard streams, and the exit status.
-/

import Structurer.CommandLine.Run

namespace Structurer

/-- The number of an error, which some accesses give with its sign turned. -/
def errorNumber (code : UInt32) : Nat := min code.toNat (0 - code).toNat

def FileError.ofSystem : IO.Error → FileError
  | .noFileOrDirectory .. => .notFound
  | .permissionDenied .. => .denied
  | .inappropriateType _ code details =>
      match errorNumber code with
      | 20 => .notFolder
      | 21 => .isFolder
      | number => .other number details
  | .invalidArgument _ code details =>
      match errorNumber code with
      | 36 => .nameTooLong
      | number => .other number details
  | e => .other 0 (toString e)

def attempt {α : Type} (access : IO α) : IO (Except FileError α) :=
  try return .ok (← access) catch e => return .error (.ofSystem e)

instance : MonadFiles IO where
  readText path := do
    match ← attempt (IO.FS.readBinFile path) with
    | .error e => return .error e
    | .ok bytes =>
        match String.fromUTF8? bytes with
        | some text => return .ok text
        | none => return .error .notText
  writeText path content := attempt (IO.FS.writeFile path content)
  appendText path content := do
    match ← attempt (IO.FS.readBinFile path) with
    | .error e => return .error e
    | .ok _ => attempt (IO.FS.withFile path .append fun h => h.putStr content)
  makeFolders path := if path.isEmpty then return .ok () else attempt (IO.FS.createDirAll path)

end Structurer

/-- The program: a run with the arguments of the command line. -/
def main (args : List String) : IO UInt32 := do
  let outcome ← Structurer.run args
  IO.print outcome.stdout
  IO.eprint outcome.stderr
  return outcome.status.toUInt32
