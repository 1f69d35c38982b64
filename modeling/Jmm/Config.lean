/-!
# Configuration

The settings of a compilation, with their defaults.
-/

set_option autoImplicit false

namespace Jmm

/-- How diagnostics are written. -/
inductive DiagnosticsFormat where
  | text
  | json
deriving DecidableEq, Repr, Inhabited

namespace DiagnosticsFormat

/-- The name of a format. -/
def name : DiagnosticsFormat → String
  | text => "text"
  | json => "json"

/-- The format of a name. -/
def ofName : String → Option DiagnosticsFormat
  | "text" => some text
  | "json" => some json
  | _ => none

end DiagnosticsFormat

/-- The settings of a compilation. -/
structure Config where
  /-- Whether code is produced in spite of violations. -/
  continueOnError : Bool := false
  /-- Whether `x = x + k` becomes one increment. -/
  incrementFusion : Bool := true
  emitOllir : Bool := true
  emitJasmin : Bool := true
  /-- The directory results are written to; none stands for that of the input. -/
  outputDir : Option String := none
  diagnosticsFormat : DiagnosticsFormat := .text
deriving DecidableEq, Repr, Inhabited

end Jmm
