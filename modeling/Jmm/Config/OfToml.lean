import Jmm.Config
import Jmm.Toml.Document

/-!
# Configuration files

A configuration is a TOML document with the tables `check`, `codegen` and `output`.  Every setting
may be missing, and settings of other names are skipped.  A table may also be given as an array of
its settings in order, of which the tail may be missing.
-/

set_option autoImplicit false

namespace Jmm

/-- What can be wrong with a configuration. -/
inductive ConfigError where
  /-- The text is no document, or a setting has the wrong type. -/
  | unreadable
  | emptyOutputDir
deriving DecidableEq, Repr, Inhabited

/-- An error of a configuration in words. -/
def ConfigError.message : ConfigError → String
  | unreadable => "Failed to parse config"
  | emptyOutputDir => "Invalid config: output.dir cannot be empty"

namespace Config

/-- The setting of a name in a table, or the one at a position in an array. -/
def setting? (section_ : Toml) (name : String) (position : Nat) : Option Toml :=
  match section_ with
  | .table entries => Toml.entry? name entries
  | .array items => items[position]?
  | _ => none

/-- A truth value, or the default for a setting that is missing. -/
def readBool (default : Bool) : Option Toml → Option Bool
  | none => some default
  | some (.boolean b) => some b
  | some _ => none

/-- A text, if it is there. -/
def readText : Option Toml → Option (Option String)
  | none => some none
  | some (.string s) => some (some s)
  | some _ => none

/-- A format, by name; the name may also be the key of an empty table or array. -/
def readFormat : Option Toml → Option DiagnosticsFormat
  | none => some .text
  | some (.string s) => DiagnosticsFormat.ofName s
  | some (.table [(name, .table [])]) => DiagnosticsFormat.ofName name
  | some (.table [(name, .array [])]) => DiagnosticsFormat.ofName name
  | some _ => none

/-- A section, the empty table if it is missing. -/
def section? (name : String) (position : Nat) (document : Toml) : Option Toml :=
  match setting? document name position with
  | none => some (.table [])
  | some (.table entries) => some (.table entries)
  | some (.array items) => some (.array items)
  | some _ => none

/-- The configuration of a document. -/
def ofDocument (document : Toml) : Option Config := do
  let check ← section? "check" 0 document
  let codegen ← section? "codegen" 1 document
  let output ← section? "output" 2 document
  return { continueOnError := ← readBool false (setting? check "continue_on_error" 0)
           incrementFusion := ← readBool true (setting? codegen "increment_fusion" 0)
           emitOllir := ← readBool true (setting? codegen "emit_ollir" 1)
           emitJasmin := ← readBool true (setting? codegen "emit_jasmin" 2)
           outputDir := ← readText (setting? output "dir" 0)
           diagnosticsFormat := ← readFormat (setting? output "diagnostics_format" 1) }

/-- A configuration whose settings make sense. -/
def validate (c : Config) : Except ConfigError Config :=
  if c.outputDir = some "" then .error .emptyOutputDir else .ok c

/-- The configuration written as a TOML document. -/
def parse (text : String) : Except ConfigError Config :=
  match (Toml.parse text).bind fun entries ↦ ofDocument (.table entries) with
  | none => .error .unreadable
  | some c => c.validate

end Config
end Jmm
