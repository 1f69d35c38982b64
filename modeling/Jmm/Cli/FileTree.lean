import Jmm.Cli.Files

/-!
# Files in memory

A tree of text files, and `FileTree.access`, the operations on it.  A path is followed from the top
of the tree, one piece after the other; every piece but the last has to lead to a directory.
-/

set_option autoImplicit false

namespace Jmm.Cli

/-- Text files and directories, by the pieces of their paths.  The top is a directory. -/
structure FileTree where
  files : List (List String × String) := []
  directories : List (List String) := []
deriving Inhabited

namespace FileTree

/-- The text of a file. -/
def file? (t : FileTree) (place : List String) : Option String :=
  (t.files.find? fun f ↦ f.1 == place).map Prod.snd

/-- Whether a directory is at a place. -/
def hasDirectory (t : FileTree) (place : List String) : Bool :=
  place.isEmpty || t.directories.contains place

/-- How many bytes a name may have. -/
def maxNameSize : Nat := 255

/-- The place some pieces of a path lead to from another place. -/
def follow (t : FileTree) : List String → List String → Except FileError (List String)
  | place, [] => .ok place
  | place, piece :: rest =>
    if t.hasDirectory place then
      if Path.isIdle piece then t.follow place rest
      else if piece == ".." then t.follow place.dropLast rest
      else if maxNameSize < piece.utf8ByteSize then .error .nameTooLong
      else t.follow (place ++ [piece]) rest
    else if (t.file? place).isSome then .error .notADirectory
    else .error .notFound

/-- The place a path leads to.  Paths from the root lead out of the tree. -/
def place (t : FileTree) (path : String) : Except FileError (List String) :=
  if path.toList.contains '\x00' then .error .nulInName
  else if path.isEmpty || Path.isAbsolute path then .error .notFound
  else t.follow [] (Path.pieces path)

/-- The text of the file at a path. -/
def readText (t : FileTree) (path : String) : Except FileError String := do
  let place ← t.place path
  if t.hasDirectory place then throw .isADirectory
  match t.file? place with
  | some text => return text
  | none => throw .notFound

/-- The tree with a text in the file at a path. -/
def writeText (t : FileTree) (path text : String) : Except FileError FileTree := do
  let place ← t.place path
  if t.hasDirectory place then throw .isADirectory
  return { t with files := (t.files.filter fun f ↦ f.1 != place) ++ [(place, text)] }

/-- The tree with a new directory. -/
def makeDirectory (t : FileTree) (path : String) : Except FileError FileTree := do
  let place ← t.place path
  if t.hasDirectory place || (t.file? place).isSome then throw .alreadyExists
  return { t with directories := t.directories ++ [place] }

/-- Whether a path leads to a file. -/
def isFile (t : FileTree) (path : String) : Bool :=
  match t.readText path with
  | .ok _ => true
  | .error _ => false

/-- Whether a path leads to a directory. -/
def isDirectory (t : FileTree) (path : String) : Bool :=
  match t.place path with
  | .ok place => t.hasDirectory place
  | .error _ => false

/-- Replaces the tree by a changed one, if there is one. -/
def commit (change : FileTree → Except FileError FileTree) :
    StateM FileTree (Except FileError Unit) := do
  match change (← get) with
  | .ok t => set t; return .ok ()
  | .error e => return .error e

/-- The operations on a tree. -/
def access : FileAccess (StateM FileTree) where
  readText path := do return (← get).readText path
  writeText path text := commit fun t ↦ t.writeText path text
  makeDirectory path := commit fun t ↦ t.makeDirectory path
  isFile path := do return (← get).isFile path
  isDirectory path := do return (← get).isDirectory path

/-- The tree with a file at a path, and with the directories it is in. -/
def withFile (t : FileTree) (path text : String) : FileTree :=
  let place := (Path.pieces path).filter fun p ↦ !Path.isIdle p
  let outer := (List.range place.length).map fun n ↦ place.take n
  { files := t.files ++ [(place, text)]
    directories := t.directories ++ outer.filter fun d ↦ !t.hasDirectory d }

/-- The tree of some files. -/
def ofFiles (files : List (String × String)) : FileTree :=
  files.foldl (fun t f ↦ t.withFile f.1 f.2) {}

/-- The files of a tree with their paths. -/
def toFiles (t : FileTree) : List (String × String) :=
  t.files.map fun f ↦ ("/".intercalate f.1, f.2)

end FileTree
end Jmm.Cli
