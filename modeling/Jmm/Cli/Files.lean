import Jmm.Cli.Path

/-!
# Access to files

What the command line needs of a file system, as a record of operations in a monad.  Every operation
either succeeds or fails with one of the errors of the system.
-/

set_option autoImplicit false

namespace Jmm.Cli

/-- The errors of the system. -/
inductive FileError where
  | notFound
  | accessDenied
  | alreadyExists
  | notADirectory
  | isADirectory
  | nameTooLong
  | nulInName
  | notText
  /-- Any other error, by number. -/
  | other (code : Nat)
deriving DecidableEq, Repr, Inhabited

/-- An error of the system in words. -/
def FileError.message : FileError → String
  | notFound => "No such file or directory (os error 2)"
  | accessDenied => "Permission denied (os error 13)"
  | alreadyExists => "File exists (os error 17)"
  | notADirectory => "Not a directory (os error 20)"
  | isADirectory => "Is a directory (os error 21)"
  | nameTooLong => "File name too long (os error 36)"
  | nulInName => "file name contained an unexpected NUL byte"
  | notText => "stream did not contain valid UTF-8"
  | other code => "System error (os error " ++ toString code ++ ")"

/-- The error of a number. -/
def FileError.ofNumber : Nat → FileError
  | 2 => notFound
  | 13 => accessDenied
  | 17 => alreadyExists
  | 20 => notADirectory
  | 21 => isADirectory
  | 36 => nameTooLong
  | n => other n

/-- The operations on files, by path. -/
structure FileAccess (m : Type → Type) where
  readText : String → m (Except FileError String)
  writeText : String → String → m (Except FileError Unit)
  makeDirectory : String → m (Except FileError Unit)
  isFile : String → m Bool
  isDirectory : String → m Bool

namespace FileAccess

variable {m : Type → Type} [Monad m]

/-- Makes a directory that may be there already. -/
def ensureDirectory (fs : FileAccess m) (path : String) : m (Except FileError Unit) := do
  match ← fs.makeDirectory path with
  | .ok _ => return .ok ()
  | .error e => if ← fs.isDirectory path then return .ok () else return .error e

/-- Makes the first of some directories, each of which is in the next one.  The others are made as
far as they are needed; the empty path needs nothing. -/
def makeInside (fs : FileAccess m) : List String → m (Except FileError Unit)
  | [] => return .ok ()
  | path :: outer => do
    if path.isEmpty then return .ok ()
    match ← fs.makeDirectory path with
    | .ok _ => return .ok ()
    | .error .notFound =>
      match ← fs.makeInside outer with
      | .ok _ => fs.ensureDirectory path
      | .error e => return .error e
    | .error e => if ← fs.isDirectory path then return .ok () else return .error e

/-- Makes a directory and those it is in. -/
def makeDirectories (fs : FileAccess m) (path : String) : m (Except FileError Unit) :=
  fs.makeInside (Path.ancestors path.length path)

end FileAccess
end Jmm.Cli
