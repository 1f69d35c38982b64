import Jmm.Cli.Files
import Jmm.Cli.Invocation
import Jmm.Compile
import Jmm.Config.OfToml
import Jmm.Report.Snippet
import Jmm.Text.Styled

/-!
# Running a command

A command reads its configuration and its unit, reports what the analysis finds, and writes results.
It is written against `FileAccess`, and what it prints is collected in a `Screen`; so all it does to
the world is done by the operations it is given.

The exit code is zero, one if errors were reported, and two if the command could not be carried out.
-/

set_option autoImplicit false

namespace Jmm.Cli

open Text (Color Style Styled)

/-- The part of the environment that decides on colours. -/
structure Environment where
  noColor : Bool := false
  term : Option String := none
deriving DecidableEq, Repr, Inhabited

/-- Whether colours are used, given the choice on the command line. -/
def Environment.usesColor (env : Environment) (choice : Option String) : Bool :=
  if env.noColor then false
  else
    match choice with
    | some "always" => true
    | some "never" => false
    | _ =>
      match env.term with
      | some t => t != "dumb"
      | none => false

/-- What has been printed so far. -/
structure Screen where
  stdout : String := ""
  stderr : String := ""
deriving DecidableEq, Repr, Inhabited

/-- The reasons why a command cannot be carried out. -/
inductive Failure where
  | configUnreadable (path : String) (e : FileError)
  | configInvalid (path : String) (e : ConfigError)
  | unknownFormat (name : String)
  | unreadable (path : String) (e : FileError)
  | invalidTree (path : String) (e : CompileError)
  | notAnalysable (c : ClassCount)
  | notCompilable (path : String) (e : CompileError)
  | noDirectory (path : String) (e : FileError)
  | notWritable (path : String) (e : FileError)
deriving DecidableEq, Repr, Inhabited

/-- A failure in words, from the outermost reason to the innermost. -/
def Failure.message : Failure → String
  | configUnreadable path e =>
    "failed to load config from " ++ path ++ ": Failed to read config file: " ++ e.message ++ ": "
      ++ e.message
  | configInvalid path e => "failed to load config from " ++ path ++ ": " ++ e.message
  | unknownFormat name =>
    "unknown diagnostics format '" ++ name ++ "' (expected text or json)"
  | unreadable path e => "failed to read " ++ path ++ ": " ++ e.message
  | invalidTree path e => "invalid syntax tree in " ++ path ++ ": " ++ e.message
  | notAnalysable c => c.message
  | notCompilable path e => "failed to compile " ++ path ++ ": " ++ e.message
  | noDirectory path e => "failed to create " ++ path ++ ": " ++ e.message
  | notWritable path e => "failed to write " ++ path ++ ": " ++ e.message

/-- A command that may fail, prints, and has operations on files. -/
abbrev Action (m : Type → Type) := ExceptT Failure (StateT Screen m)

/-- What a command is given. -/
structure Context (m : Type → Type) where
  files : FileAccess m
  color : Bool

namespace Context

variable {m : Type → Type} [Monad m]

/-! ## Printing -/

/-- Prints on the standard output. -/
def print (c : Context m) (t : Styled) : Action m Unit :=
  modify fun s ↦ { s with stdout := s.stdout ++ t.render c.color }

/-- Prints on the error output. -/
def printError (c : Context m) (t : Styled) : Action m Unit :=
  modify fun s ↦ { s with stderr := s.stderr ++ t.render c.color }

/-- Bold text of a colour. -/
def bold (color : Color) (t : String) : Styled := Styled.inStyle ⟨some color, true, false⟩ t

/-- The colour of a severity on one line. -/
def severityColor : Severity → Color
  | .error => .red
  | .warning => .yellow

/-! ## Files -/

/-- The result of an operation on files. -/
def onFiles {α : Type} (failure : FileError → Failure) (op : m (Except FileError α)) :
    Action m α := do
  match ← (liftM op : StateT Screen m (Except FileError α)) with
  | .ok a => return a
  | .error e => throw (failure e)

/-- The name of the configuration file beside a unit. -/
def configName : String := "jmm.toml"

/-- The configuration in a file. -/
def readConfig (c : Context m) (path : String) : Action m Config := do
  let text ← onFiles (.configUnreadable path) (c.files.readText path)
  match Config.parse text with
  | .ok config => return config
  | .error e => throw (.configInvalid path e)

/-- The configuration: that of the file named on the command line, or of the one beside the unit,
or the default. -/
def loadConfig (c : Context m) (named : Option String) (file : String) : Action m Config := do
  match named with
  | some path => c.readConfig path
  | none =>
    let beside := Path.join (Path.directoryOf file) configName
    if ← (liftM (c.files.isFile beside) : StateT Screen m Bool) then c.readConfig beside
    else return {}

/-- The program in a file. -/
def readProgram (c : Context m) (file : String) : Action m Program := do
  let text ← onFiles (.unreadable file) (c.files.readText file)
  match Program.parse text with
  | .ok p => return p
  | .error e => throw (.invalidTree file e)

/-! ## Reports -/

/-- Prints reports: as JSON on the standard output, or as text on the error output, with the lines
they point to if the source is at hand. -/
def report (c : Context m) (format : DiagnosticsFormat) (source : Option String)
    (ds : List Diagnostic) : Action m Unit := do
  match format, source with
  | .json, _ => c.print [.text (Diagnostic.listText ds ++ "\n")]
  | .text, some path =>
    let text ← onFiles (.unreadable path) (c.files.readText path)
    let t := Report.SourceText.ofString text
    c.printError (ds.flatMap fun d ↦ d.annotated path t)
  | .text, none =>
    c.printError (ds.flatMap fun d ↦ bold (severityColor d.severity) d.text ++ [.text "\n"])

/-- The exit code after reports with errors or without; as text, the number of errors is printed. -/
def conclude (c : Context m) (format : DiagnosticsFormat) (hasErrors : Bool)
    (ds : List Diagnostic) : Action m Nat := do
  if hasErrors then
    if format = .text then
      c.print (bold .red (toString ds.length ++ " error(s)") ++ [.text "\n"])
    return 1
  else return 0

/-! ## Commands -/

/-- Analyses the unit in a file. -/
def check (c : Context m) (config : Config) (source : Option String) (file : String) :
    Action m Nat := do
  let p ← c.readProgram file
  match p.analyze with
  | .error e => throw (.notAnalysable e)
  | .ok a =>
    c.report config.diagnosticsFormat source a.diagnostics
    if !a.hasErrors && config.diagnosticsFormat == .text then
      c.print (bold .green "ok" ++ [.text (" " ++ a.table.className ++ ": no errors\n")])
    c.conclude config.diagnosticsFormat a.hasErrors a.diagnostics

/-- Writes a result into the file of a class in a directory. -/
def writeResult (c : Context m) (config : Config) (dir name extension : String)
    (text : Option String) : Action m Unit := do
  match text with
  | none => return ()
  | some text =>
    onFiles (.noDirectory dir) (c.files.makeDirectories dir)
    let path := Path.join dir (name ++ "." ++ extension)
    onFiles (.notWritable path) (c.files.writeText path text)
    if config.diagnosticsFormat = .text then
      c.print (bold .green "wrote" ++ [.text (" " ++ path ++ "\n")])

/-- Compiles the unit in a file, and prints the results or writes them into files. -/
def compile (c : Context m) (config : Config) (source : Option String) (toStdout : Bool)
    (file : String) : Action m Nat := do
  let p ← c.readProgram file
  let name := (p.classes.head?.map ClassDecl.name).getD ""
  match p.compile config with
  | .error e => throw (.notCompilable file e)
  | .ok o =>
    c.report config.diagnosticsFormat source o.diagnostics
    if toStdout then
      c.print [.text (o.ollir.getD "" ++ o.jasmin.getD "")]
    else
      let dir := config.outputDir.getD (Path.directoryOf file)
      c.writeResult config dir name "ollir" o.ollir
      c.writeResult config dir name "j" o.jasmin
    c.conclude config.diagnosticsFormat o.hasErrors o.diagnostics

/-- The configuration with another output directory, if one is given. -/
def withOutDir (config : Config) (dir : Option String) : Config :=
  { config with outputDir := dir <|> config.outputDir }

/-- Carries out a task on a file. -/
def perform (c : Context m) (named : Option String) (file : String) (task : Task) :
    Action m Nat := do
  let config ← c.loadConfig named file
  match task with
  | .check format source =>
    match format with
    | none => c.check config source file
    | some name =>
      match DiagnosticsFormat.ofName name with
      | some f => c.check { config with diagnosticsFormat := f } source file
      | none => throw (.unknownFormat name)
  | .ollir dir toStdout =>
    let config := withOutDir { config with emitOllir := true, emitJasmin := false } dir
    c.compile config none toStdout file
  | .build dir source noFusion continueOnError =>
    let config := withOutDir config dir
    let config :=
      { config with
        incrementFusion := config.incrementFusion && !noFusion
        continueOnError := config.continueOnError || continueOnError }
    c.compile config source false file

/-- Carries out a task; a failure is printed and gives the exit code two. -/
def performOrFail (c : Context m) (named : Option String) (file : String) (task : Task) :
    StateT Screen m Nat := do
  match ← (c.perform named file task).run with
  | .ok code => return code
  | .error f =>
    let shown := bold .red "error" ++ [.text (": " ++ f.message ++ "\n")]
    modify fun s ↦ { s with stderr := s.stderr ++ shown.render c.color }
    return 2

end Context

/-- The name and the version of the tool. -/
def versionText : String := "jmmc 0.2.0"

/-- Runs a command line: its exit code and what it prints. -/
def run {m : Type → Type} [Monad m] (files : FileAccess m) (env : Environment)
    (arguments : List String) : m (Nat × Screen) := do
  match Invocation.parse arguments with
  | .error e => return (2, { stderr := "error: " ++ e.message ++ "\n" })
  | .ok .version => return (0, { stdout := versionText ++ "\n" })
  | .ok (.run config color file task) =>
    let c : Context m := ⟨files, env.usesColor color⟩
    (c.performOrFail config file task).run {}

end Jmm.Cli
