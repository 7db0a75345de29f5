/-
**The store of fallback graphs.**

Graphs that needed a dispatch loop are worth keeping: they show which shapes the reducer does not
know yet.  The store keeps them in a folder, one file for each fingerprint.  The first method of a
fingerprint writes its name, its mangled name and the dump of its graph; later methods only add
their names, and each method only once.  A failure to write is reported and otherwise ignored.
-/

import Structurer.Engine.Context
import Structurer.Store.Files

namespace Structurer

structure GraphStore where
  folder : String
  /-- The lines of the files met so far, by fingerprint. -/
  known : List (String × List String)
  deriving DecidableEq, Repr

namespace GraphStore

def new (folder : String) : GraphStore := ⟨folder, []⟩

def join (folder name : String) : String :=
  if name.startsWith "/" then name
  else if folder.isEmpty || folder.endsWith "/" then folder ++ name
  else folder ++ "/" ++ name

def path (s : GraphStore) (fingerprint : String) : String := join s.folder (fingerprint ++ ".txt")

def remember (s : GraphStore) (fingerprint : String) (lines : List String) : GraphStore :=
  { s with known := (fingerprint, lines) :: s.known.filter (·.1 ≠ fingerprint) }

/-- The text of the first method of a fingerprint. -/
def firstText (f : Fallback) : String :=
  String.join ((f.signature.display :: f.signature.mangled :: f.dump).map (· ++ "\n"))

/-- The text of a later method of a fingerprint. -/
def laterText (f : Fallback) : String := f.signature.display ++ "\n" ++ f.signature.mangled ++ "\n"

variable {m : Type → Type} [Monad m] [MonadFiles m]

/-- The lines of a file: those known, or else those read, none if it cannot be read. -/
def linesOf (s : GraphStore) (fingerprint : String) : m (List String) := do
  match s.known.lookup fingerprint with
  | some lines => return lines
  | none =>
      match ← MonadFiles.readText (s.path fingerprint) with
      | .ok text => return (Text.lines text).map String.ofList
      | .error _ => return []

/-- The file of a fingerprint is written, and the folder made if it is not there. -/
def writeFirst (s : GraphStore) (f : Fallback) : m (Except FileError Unit) := do
  match ← MonadFiles.makeFolders s.folder with
  | .error e => return .error e
  | .ok () => MonadFiles.writeText (s.path f.fingerprint) (firstText f)

/-- A graph is kept, unless its method is in the file already.  The answer tells what went wrong,
if anything did. -/
def save (s : GraphStore) (f : Fallback) : m (Except FileError Unit × GraphStore) := do
  let lines ← s.linesOf f.fingerprint
  let s := s.remember f.fingerprint lines
  let names := [f.signature.display, f.signature.mangled]
  if lines.isEmpty then
    match ← s.writeFirst f with
    | .ok () => return (.ok (), s.remember f.fingerprint (names ++ f.dump))
    | .error e => return (.error e, s)
  else if f.signature.display ∈ lines then return (.ok (), s)
  else
    match ← MonadFiles.appendText (s.path f.fingerprint) (laterText f) with
    | .ok () => return (.ok (), s.remember f.fingerprint (names ++ lines))
    | .error e => return (.error e, s)

end GraphStore

end Structurer
