/-
**Files.**

What the library needs of a file system, as an interface that any monad may offer, and a file
system in memory that offers it.

A path is resolved part by part, from the root if it starts with a slash and else from the folder
the program runs in: an empty part and `.` stay where they are, `..` goes up, and any other part
must name a folder unless it is the last.  Nothing is above the root.
-/

namespace Structurer

inductive FileError where
  | notFound
  | denied
  | notFolder
  | isFolder
  | nameTooLong
  /-- The content of the file is no text. -/
  | notText
  /-- Any other error of the system, by its number. -/
  | other (code : Nat) (message : String)
  deriving DecidableEq, Repr

class MonadFiles (m : Type → Type) where
  readText : String → m (Except FileError String)
  /-- A file gets a text, and is made if it is not there. -/
  writeText : String → String → m (Except FileError Unit)
  /-- A text is added at the end of a file that is there. -/
  appendText : String → String → m (Except FileError Unit)
  /-- A folder, and the folders around it, are made if they are not there. -/
  makeFolders : String → m (Except FileError Unit)

/-- A place in the file system: the names that lead to it from the root. -/
abbrev FilePlace := List String

/-- The longest name of a file or folder, in bytes. -/
def maxNameBytes : Nat := 255

structure Files where
  /-- The files with their texts, in the order they were made. -/
  texts : List (FilePlace × String)
  /-- The folders besides the one the program runs in and those around it. -/
  folders : List FilePlace
  /-- The folder the program runs in. -/
  working : FilePlace
  deriving DecidableEq, Repr

inductive FileEntry where
  | text (place : FilePlace) (content : String)
  | folder (place : FilePlace)
  /-- Nothing is there, but the folder around it is. -/
  | free (place : FilePlace)
  deriving DecidableEq, Repr

namespace Files

/-- A file system without files, and a program that runs in a folder of the root. -/
def empty : Files := ⟨[], [], ["work"]⟩

def isFolder (fs : Files) (place : FilePlace) : Bool :=
  place.isPrefixOf fs.working || fs.folders.contains place

/-- What is at a place, the folder around which is there. -/
def entryAt (fs : Files) (place : FilePlace) : FileEntry :=
  if fs.isFolder place then .folder place
  else
    match fs.texts.lookup place with
    | some content => .text place content
    | none => .free place

/-- What the parts of a path lead to from a folder. -/
def resolveFrom (fs : Files) : FilePlace → List String → Except FileError FileEntry
  | place, [] => .ok (.folder place)
  | place, part :: parts =>
      if part = "" ∨ part = "." then resolveFrom fs place parts
      else if part = ".." then resolveFrom fs place.dropLast parts
      else if part.utf8ByteSize > maxNameBytes then .error .nameTooLong
      else
        match fs.entryAt (place ++ [part]), parts with
        | .folder place, parts => resolveFrom fs place parts
        | entry, [] => .ok entry
        | .text _ _, _ => .error .notFolder
        | .free _, _ => .error .notFound

def parts (path : String) : List String := (path.toList.splitOn '/').map String.ofList

/-- The folder from which a path leads. -/
def start (fs : Files) (path : String) : FilePlace := if path.startsWith "/" then [] else fs.working

/-- What a path leads to.  An empty path leads nowhere. -/
def resolve (fs : Files) (path : String) : Except FileError FileEntry :=
  if path.isEmpty then .error .notFound else fs.resolveFrom (fs.start path) (parts path)

def read (fs : Files) (path : String) : Except FileError String := do
  match ← fs.resolve path with
  | .text _ content => return content
  | .folder _ => throw .isFolder
  | .free _ => throw .notFound

/-- A file with its text among others, in the place of its old text if it has one. -/
def insertText (place : FilePlace) (content : String) :
    List (FilePlace × String) → List (FilePlace × String)
  | [] => [(place, content)]
  | (p, c) :: rest =>
      if p = place then (place, content) :: rest else (p, c) :: insertText place content rest

def setText (fs : Files) (place : FilePlace) (content : String) : Files :=
  { fs with texts := insertText place content fs.texts }

/-- A path without the slashes at its end. -/
def withoutSlashes (path : String) : String :=
  String.ofList (path.toList.reverse.dropWhile (· = '/')).reverse

/-- The file system after a text was written.  A path that ends with a slash is no file. -/
def write (fs : Files) (path content : String) : Except FileError Files := do
  let bare := withoutSlashes path
  let entry ← fs.resolve bare
  if bare ≠ path then throw .isFolder
  match entry with
  | .text place _ => return fs.setText place content
  | .free place => return fs.setText place content
  | .folder _ => throw .isFolder

/-- The file system after a text was added at the end of a file. -/
def append (fs : Files) (path content : String) : Except FileError Files := do
  match ← fs.resolve path with
  | .text place old => return fs.setText place (old ++ content)
  | .free _ => throw .notFound
  | .folder _ => throw .isFolder

/-- The file system with the folders on the way from a folder, which are made if they are not
there. -/
def makeFrom (fs : Files) : FilePlace → List String → Except FileError Files
  | _, [] => .ok fs
  | place, part :: parts =>
      if part = "" ∨ part = "." then makeFrom fs place parts
      else if part = ".." then makeFrom fs place.dropLast parts
      else if part.utf8ByteSize > maxNameBytes then .error .nameTooLong
      else
        match fs.entryAt (place ++ [part]) with
        | .folder place => makeFrom fs place parts
        | .text _ _ => .error .notFolder
        | .free place => makeFrom { fs with folders := place :: fs.folders } place parts

/-- The file system with a folder and the folders around it. -/
def make (fs : Files) (path : String) : Except FileError Files :=
  if path.isEmpty then .ok fs else fs.makeFrom (fs.start path) (parts path)

def remove (fs : Files) (path : String) : Files :=
  match fs.resolve path with
  | .ok (.text place _) => { fs with texts := fs.texts.filter (·.1 ≠ place) }
  | _ => fs

/-- The file system with one more file, and the folders around it. -/
def put (fs : Files) (path content : String) : Files :=
  let folder := "/".intercalate (parts path).dropLast
  match fs.make folder with
  | .ok fs => (fs.write path content).toOption.getD fs
  | .error _ => fs

/-- The file system of some files, given by path and text. -/
def ofList (files : List (String × String)) : Files :=
  files.foldl (fun fs (path, content) => fs.put path content) empty

/-- The files below the folder the program runs in, by their paths from there. -/
def toList (fs : Files) : List (String × String) :=
  (fs.texts.filter (fs.working.isPrefixOf ·.1)).map fun (place, content) =>
    ("/".intercalate (place.drop fs.working.length), content)

/-- A change of the file system that may fail, in which case nothing changes. -/
def update (change : Files → Except FileError Files) : StateM Files (Except FileError Unit) :=
  modifyGet fun fs =>
    match change fs with
    | .ok fs => (.ok (), fs)
    | .error e => (.error e, fs)

instance : MonadFiles (StateM Files) where
  readText path := return (← get).read path
  writeText path content := update (·.write path content)
  appendText path content := update (·.append path content)
  makeFolders path := update (·.make path)

end Files

end Structurer
