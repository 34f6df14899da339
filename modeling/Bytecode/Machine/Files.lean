import Bytecode.Bytes

/-!
# Files

Files are read and written whole, and a path is a string of bytes. What becomes of a path is up to
the file system: a `FileSystem` is known by its answers, each of which may depend on all that has
been written before. Any file system can lie under a machine.

A `FileTree` is one that can be executed: directories and files below a root, and a working
directory where the paths start that do not begin with a slash. Leading directories must exist; an
empty component and `.` stay where they are, `..` goes up and stays at the root. Names and paths
have a greatest length; a path is measured before it is followed, a name where it is looked up.
-/

namespace Bytecode

/-- Why a file cannot be read or written, in the words of the file system. -/
structure FileError where
  message : String
  deriving DecidableEq, Repr

namespace FileError

def notFound : FileError := ⟨"No such file or directory (os error 2)"⟩

def notDirectory : FileError := ⟨"Not a directory (os error 20)"⟩

def isDirectory : FileError := ⟨"Is a directory (os error 21)"⟩

/-- The path, or a name in it, is longer than the file system takes. -/
def nameTooLong : FileError := ⟨"File name too long (os error 36)"⟩

/-- The path holds a zero byte. -/
def zeroInPath : FileError := ⟨"file name contained an unexpected NUL byte"⟩

end FileError

/-- All that was written, each time a path and the bytes for it, the last first. What could not be
written is there as well: the attempt may have left the file cut off or empty. -/
abbrev Writes := List (Bytes × Bytes)

/-- How a file system answers, given what was written before. -/
structure FileSystem where
  /-- The contents of the file at a path. -/
  read : Writes → Bytes → Except FileError Bytes
  /-- Whether a path takes these bytes. -/
  write : Writes → Bytes → Bytes → Except FileError Unit

/-! ## Trees of files -/

/-- The names that lead from the root to a place. -/
abbrev Location := List Bytes

/-- Directories and files below a root. -/
structure FileTree where
  workingDirectory : Location := []
  /-- The directories, apart from the working directory and those on the way to it. -/
  directories : List Location := []
  /-- The contents of every file. -/
  contents : List (Location × Bytes) := []

namespace FileTree

/-- The most bytes of a name. -/
def maxName : Nat := 255

/-- The most bytes of a path. -/
def maxPath : Nat := 4095

/-- The parts of a path between slashes. -/
def components : Bytes → List Bytes
  | [] => [[]]
  | byte :: path =>
    if byte = 0x2F then [] :: components path
    else
      match components path with
      | part :: parts => (byte :: part) :: parts
      | [] => [[byte]]

/-- The contents of the file at a location. -/
def contents? (tree : FileTree) (location : Location) : Option Bytes :=
  tree.contents.lookup location

/-- Whether a location is a directory. -/
def isDirectory (tree : FileTree) (location : Location) : Bool :=
  location.isPrefixOf tree.workingDirectory || tree.directories.contains location

/-- Go from a directory into one component of a path. -/
def enter (tree : FileTree) (directory : Location) (name : Bytes) : Except FileError Location :=
  if name = [0x2E] then .ok directory
  else if name = [0x2E, 0x2E] then .ok directory.dropLast
  else if maxName < name.length then .error .nameTooLong
  else if tree.isDirectory (directory ++ [name]) then .ok (directory ++ [name])
  else if (tree.contents? (directory ++ [name])).isSome then .error .notDirectory
  else .error .notFound

/-- What a path refers to. -/
inductive Target where
  | directory
  /-- A name in a directory; `slashed` if the path goes on with a slash. -/
  | entry (directory : Location) (name : Bytes) (slashed : Bool)

/-- Follow a path. The last name need not exist. -/
def locate (tree : FileTree) (path : Bytes) : Except FileError Target := do
  if path.contains 0 then throw .zeroInPath
  if maxPath < path.length then throw .nameTooLong
  if path.isEmpty then throw .notFound
  let start := if path.head? = some 0x2F then [] else tree.workingDirectory
  let parts := components path
  let names := parts.filter fun name ↦ !name.isEmpty
  let directory ← names.dropLast.foldlM tree.enter start
  match names.getLast? with
  | none => return .directory
  | some name =>
    if name = [0x2E] ∨ name = [0x2E, 0x2E] then return .directory
    if tree.isDirectory (directory ++ [name]) then return .directory
    return .entry directory name (parts.getLast? == some [])

/-- The contents of the file at a path. -/
def load (tree : FileTree) (path : Bytes) : Except FileError Bytes := do
  match ← tree.locate path with
  | .directory => throw .isDirectory
  | .entry directory name slashed =>
    if maxName < name.length then throw .nameTooLong
    match tree.contents? (directory ++ [name]) with
    | none => throw .notFound
    | some bytes => if slashed then throw .notDirectory else return bytes

/-- Write a file, replacing what it held. A name that goes on with a slash is taken for that of a
directory before it is looked up. -/
def store (tree : FileTree) (path bytes : Bytes) : Except FileError FileTree := do
  match ← tree.locate path with
  | .directory => throw .isDirectory
  | .entry directory name slashed =>
    if slashed then throw .isDirectory
    if maxName < name.length then throw .nameTooLong
    return { tree with contents := (directory ++ [name], bytes) :: tree.contents }

/-- The tree once all this was written. What a path does not take changes nothing. -/
def after (tree : FileTree) : Writes → FileTree
  | [] => tree
  | (path, bytes) :: written =>
    ((tree.after written).store path bytes).toOption.getD (tree.after written)

/-- The file system that is this tree as long as nothing was written. -/
def system (tree : FileTree) : FileSystem where
  read written path := (tree.after written).load path
  write written path bytes := ((tree.after written).store path bytes).map fun _ ↦ ()

end FileTree

/-! ## Reading and writing -/

/-- A file system and what was written to it. Where none is given, it is that of an empty tree. -/
structure Files where
  system : FileSystem := FileTree.system {}
  written : Writes := []

/-- The files of a tree. -/
def FileTree.files (tree : FileTree) : Files :=
  { system := tree.system }

namespace Files

/-- The contents of the file at a path. -/
def load (files : Files) (path : Bytes) : Except FileError Bytes :=
  files.system.read files.written path

/-- Write a file, replacing what it held. -/
def store (files : Files) (path bytes : Bytes) : Except FileError Unit × Files :=
  (files.system.write files.written path bytes,
    { files with written := (path, bytes) :: files.written })

end Files

end Bytecode
