import Jmm.Text.Split

/-!
# Paths

Paths as they are written, with slashes.  Two slashes in a row and the segment `.` add nothing to a
path, except that a path may start with `.`; `parent?` drops the last segment that counts, and
leaves what stands before it as it is written.
-/

set_option autoImplicit false

namespace Jmm.Cli.Path

/-- The pieces of a path between its slashes. -/
def pieces (path : String) : List String :=
  (Text.splitWhen (· == '/') path.toList).map String.ofList

/-- A piece that adds nothing. -/
def isIdle (piece : String) : Bool := piece == "" || piece == "."

/-- The pieces without those at the end that add nothing. -/
def dropIdle (ps : List String) : List String := (ps.reverse.dropWhile isIdle).reverse

/-- The start of a path that stays, a slash or a dot, and the pieces after it. -/
def base (path : String) : String × List String :=
  match path.toList with
  | '/' :: cs => ("/", pieces (String.ofList cs))
  | ['.'] => (".", [])
  | '.' :: '/' :: cs => (".", "" :: pieces (String.ofList cs))
  | _ => ("", pieces path)

/-- The path of the directory a path is in; empty for a path of one segment, and none for a path
without segments. -/
def parent? (path : String) : Option String :=
  let (start, ps) := base path
  match dropIdle ps with
  | [] => if start == "." then some "" else none
  | ps => some (start ++ "/".intercalate (dropIdle ps.dropLast))

/-- The directory of a file, `.` if the path does not name one. -/
def directoryOf (path : String) : String :=
  match parent? path with
  | some p => if p.isEmpty then "." else p
  | none => "."

/-- A path that starts at the root. -/
def isAbsolute (path : String) : Bool :=
  match path.toList with
  | '/' :: _ => true
  | _ => false

/-- The path of a name inside a directory. -/
def join (dir name : String) : String :=
  if isAbsolute name || dir.isEmpty then name
  else if dir.toList.getLast? == some '/' then dir ++ name
  else dir ++ "/" ++ name

/-- A path and the directories it is in, from the inside out. -/
def ancestors : Nat → String → List String
  | 0, path => [path]
  | fuel + 1, path =>
    match parent? path with
    | some p => path :: ancestors fuel p
    | none => [path]

end Jmm.Cli.Path
