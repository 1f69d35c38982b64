import Jmm.Config
import Jmm.Jasmin.Emission
import Jmm.Node.OfJson
import Jmm.Ollir.Lowering
import Jmm.Program.OfNode
import Jmm.Report.Diagnostic

/-!
# Compilation

A unit goes through all stages: analysis, OLLIR, assembly.  Violations are part of the result, and
stop the compilation after the analysis unless the configuration says otherwise; a unit that no
stage can handle is an error.
-/

set_option autoImplicit false

namespace Jmm

/-- The reasons why a unit has no result. -/
inductive CompileError where
  /-- The text is no tree of nodes. -/
  | unreadable
  | malformed (m : Malformed)
  | classCount (c : ClassCount)
  | fault (f : Jasmin.Fault)
deriving DecidableEq, Repr, Inhabited

/-- An error in words.  A text that is no tree of nodes is not analysed further. -/
def CompileError.message : CompileError → String
  | unreadable => "Invalid AST input"
  | malformed m => m.message
  | classCount c => c.message
  | fault f => "Internal compiler error: " ++ f.message

/-- The result of a compilation. -/
structure Output where
  diagnostics : List Diagnostic
  ollir : Option String := none
  jasmin : Option String := none
deriving DecidableEq, Repr, Inhabited

/-- Whether a result reports an error. -/
def Output.hasErrors (o : Output) : Bool := o.diagnostics.any Diagnostic.isError

/-- The reports of an analysis. -/
def Analysis.diagnostics (a : Analysis) : List Diagnostic :=
  a.violations.map Diagnostic.ofViolation

/-- The program written as a tree of nodes. -/
def Program.parse (text : String) : Except CompileError Program :=
  match Node.parse text with
  | none => .error .unreadable
  | some n => n.toProgram.mapError .malformed

/-- The assembly of an OLLIR class; methods without a variable table are given one. -/
def Ollir.Class.assemble (c : Ollir.Class) (fusion : Bool) : Except Jasmin.Fault Jasmin.Class :=
  Jasmin.emitClass fusion c.assignSlots

namespace Analysis

/-- The OLLIR class of an analysed class. -/
def lower (a : Analysis) (c : ClassDecl) : Ollir.Class := ((Ollir.lowerClass a c).run {}).1

/-- The results of an analysed class. -/
def emit (a : Analysis) (config : Config) (c : ClassDecl) : Except Jasmin.Fault Output := do
  let unit := a.lower c
  let jasmin ←
    if config.emitJasmin then
      (unit.assemble config.incrementFusion).map fun j ↦ some j.text
    else pure none
  return { diagnostics := a.diagnostics
           ollir := if config.emitOllir then some unit.text else none
           jasmin }

end Analysis

/-- The result of compiling a program. -/
def Program.compile (config : Config) (p : Program) : Except CompileError Output := do
  let c ← p.class?.mapError .classCount
  let a := Analysis.ofClass p.imports c
  if a.hasErrors && !config.continueOnError then return { diagnostics := a.diagnostics }
  else (a.emit config c).mapError .fault

/-- The result of compiling a program written as a tree of nodes. -/
def compileText (config : Config) (text : String) : Except CompileError Output := do
  (← Program.parse text).compile config

end Jmm
