import Jmm.Cli.Run

/-!
# The command line tool

`main` gives the arguments, the environment and the files of the system to `Jmm.Cli.run`.
-/

set_option autoImplicit false

namespace Jmm.Cli

/-- The number of an error; some operations report it negated. -/
def errorNumber (code : UInt32) : Nat :=
  if code.toNat < Nat.pow 2 31 then code.toNat else UInt32.size - code.toNat

/-- An error of the system. -/
def FileError.ofSystem : IO.Error → FileError
  | .noFileOrDirectory _ _ _ => .notFound
  | .permissionDenied _ code _ | .alreadyExists _ code _ | .inappropriateType _ code _
  | .invalidArgument _ code _ | .resourceExhausted _ code _ | .otherError code _ =>
    ofNumber (errorNumber code)
  | .userError _ => .notText
  | _ => ofNumber 5

/-- The result of an operation of the system. -/
def attempt {α : Type} (op : IO α) : IO (Except FileError α) := do
  try return .ok (← op)
  catch e => return .error (.ofSystem e)

/-- The operations on the files of the system. -/
def systemFiles : FileAccess IO where
  readText path := attempt (IO.FS.readFile path)
  writeText path text := attempt (IO.FS.writeFile path text)
  makeDirectory path := attempt (IO.FS.createDir path)
  isFile path := do
    match ← attempt (IO.FS.readFile path) with
    | .ok _ => return true
    | .error e => return e == .notText || e == .accessDenied
  isDirectory path := do
    match ← attempt (IO.FS.readFile path) with
    | .ok _ => return false
    | .error e => return e == .isADirectory

end Jmm.Cli

/-- Runs the command line tool. -/
def main (arguments : List String) : IO UInt32 := do
  let env : Jmm.Cli.Environment :=
    { noColor := (← IO.getEnv "NO_COLOR").isSome, term := ← IO.getEnv "TERM" }
  let (code, screen) ← Jmm.Cli.run Jmm.Cli.systemFiles env arguments
  IO.print screen.stdout
  IO.eprint screen.stderr
  return code.toUInt32
