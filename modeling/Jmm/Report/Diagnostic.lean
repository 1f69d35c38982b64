import Jmm.Json.Written
import Jmm.Typing.Violation

/-!
# Diagnostics

A report to the user: how severe it is, where it points, what it says, and the code of the rule
behind it.  It is written on one line, or as a JSON object; the latter is also read back.
-/

set_option autoImplicit false

namespace Jmm

/-- How severe a report is. -/
inductive Severity where
  | error
  | warning
deriving DecidableEq, Repr, Inhabited

namespace Severity

/-- The name of a severity. -/
def text : Severity → String
  | error => "error"
  | warning => "warning"

/-- The severity of a name. -/
def ofText : String → Option Severity
  | "error" => some error
  | "warning" => some warning
  | _ => none

end Severity

/-- A report to the user. -/
structure Diagnostic where
  severity : Severity
  span : Span
  message : String
  code : Option String := none
deriving DecidableEq, Repr, Inhabited

namespace Diagnostic

/-- The name of the stage all reports come from. -/
def stage : String := "SEMANTIC"

/-- The report of a violation. -/
def ofViolation (v : Violation) : Diagnostic := ⟨.error, v.span, v.message, some v.code⟩

/-- Whether a report is an error. -/
def isError (d : Diagnostic) : Bool := d.severity == .error

/-- A report on one line. -/
def text (d : Diagnostic) : String :=
  d.severity.text
    ++ (match d.code with
      | some code => "[" ++ code ++ "]"
      | none => "")
    ++ " " ++ d.span.text ++ ": " ++ d.message

/-! ## JSON -/

/-- A report as a JSON object, without `code` if there is none. -/
def toJson (d : Diagnostic) : Json :=
  .object ([("severity", .string d.severity.text), ("stage", .string stage),
      ("line", .nat d.span.line), ("column", .nat d.span.column), ("message", .string d.message)]
    ++ match d.code with
      | some code => [("code", .string code)]
      | none => [])

/-- Reports as an indented JSON array. -/
def listText (ds : List Diagnostic) : String := Json.pretty (.array (ds.map toJson))

open Json (Written)

/-- One of a few names, as a string or as the one member of an object with the value `null`. -/
def readName : Written → Option String
  | .string s => s
  | .object [(name, .null)] => name
  | _ => none

/-- A severity. -/
def readSeverity (w : Written) : Option Severity := (readName w).bind Severity.ofText

/-- The one stage. -/
def readStage (w : Written) : Option Unit :=
  (readName w).bind fun s ↦ if s = stage then some () else none

/-- A whole number of 32 bits. -/
def readNat : Written → Option Nat
  | .number l => l.unsigned32?
  | _ => none

/-- A string. -/
def readText : Written → Option String
  | .string s => s
  | _ => none

/-- A code, or none for `null`. -/
def readCode : Written → Option (Option String)
  | .null => some none
  | .string s => s.map some
  | _ => none

/-- The one member of a name; `some none` if there is none and no result if there are several. -/
def single? (name : String) (members : List (Option String × Written)) : Option (Option Written) :=
  match members.filter fun m ↦ m.1 == some name with
  | [] => some none
  | [m] => some (some m.2)
  | _ => none

/-- The one member of a name, which has to be there. -/
def required? (name : String) (members : List (Option String × Written)) : Option Written :=
  (single? name members).join

/-- The report of the given parts. -/
def ofParts (severity stage line column message : Written) (code : Option Written) :
    Option Diagnostic := do
  let severity ← readSeverity severity
  readStage stage
  let line ← readNat line
  let column ← readNat column
  let message ← readText message
  let code ←
    match code with
    | some w => readCode w
    | none => some none
  return ⟨severity, ⟨line, column⟩, message, code⟩

/-- A report written as an object with named members, or as an array of the same parts in order.
Members of other names are skipped; the code may be missing. -/
def ofWritten : Written → Option Diagnostic
  | .object members => do
    if members.any fun m ↦ m.1.isNone then none
    ofParts (← required? "severity" members) (← required? "stage" members)
      (← required? "line" members) (← required? "column" members) (← required? "message" members)
      (← single? "code" members)
  | .array [severity, stage, line, column, message] =>
    ofParts severity stage line column message none
  | .array [severity, stage, line, column, message, code] =>
    ofParts severity stage line column message (some code)
  | _ => none

end Diagnostic
end Jmm
