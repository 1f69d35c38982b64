/-!
# Invocations

What a command line asks for.  An option is written `--name value`, `--name=value`, `-n value` or
`-nvalue`; letters of options without value may share one dash.  Some options may stand anywhere,
the others only after the command they belong to.  After `--` nothing is an option.
-/

set_option autoImplicit false

namespace Jmm.Cli

/-- The commands. -/
inductive Command where
  | check
  | ollir
  | build
deriving DecidableEq, Repr, Inhabited

/-- The command of a name. -/
def Command.ofName : String → Option Command
  | "check" => some check
  | "ollir" => some ollir
  | "build" => some build
  | _ => none

/-- The options. -/
inductive Flag where
  | config
  | color
  | verbose
  | quiet
  | logFormat
  | version
  | format
  | source
  | outDir
  | stdout
  | noIncrementFusion
  | continueOnError
deriving DecidableEq, Repr, Inhabited

namespace Flag

/-- Every option. -/
def all : List Flag :=
  [config, color, verbose, quiet, logFormat, version, format, source, outDir, stdout,
    noIncrementFusion, continueOnError]

/-- The name of an option. -/
def name : Flag → String
  | config => "config"
  | color => "color"
  | verbose => "verbose"
  | quiet => "quiet"
  | logFormat => "log-format"
  | version => "version"
  | format => "format"
  | source => "source"
  | outDir => "out-dir"
  | stdout => "stdout"
  | noIncrementFusion => "no-increment-fusion"
  | continueOnError => "continue-on-error"

/-- The letter of an option. -/
def letter? : Flag → Option Char
  | verbose => some 'v'
  | quiet => some 'q'
  | version => some 'V'
  | outDir => some 'o'
  | _ => none

/-- Whether a value follows an option. -/
def hasValue : Flag → Bool
  | config | color | logFormat | format | source | outDir => true
  | _ => false

/-- Whether an option may stand where the given command, if any, has been named. -/
def isAllowed : Flag → Option Command → Bool
  | config, _ | color, _ | verbose, _ | quiet, _ | logFormat, _ => true
  | version, c => c == none
  | format, c => c == some .check
  | source, c => c == some .check || c == some .build
  | outDir, c => c == some .ollir || c == some .build
  | stdout, c => c == some .ollir
  | noIncrementFusion, c => c == some .build
  | continueOnError, c => c == some .build

/-- Whether an option takes a value. -/
def accepts : Flag → String → Bool
  | logFormat, v => v == "pretty" || v == "json"
  | _, v => !v.isEmpty

/-- The option of a name. -/
def ofName (command : Option Command) (s : String) : Option Flag :=
  all.find? fun f ↦ f.name == s && f.isAllowed command

/-- The option of a letter. -/
def ofLetter (command : Option Command) (c : Char) : Option Flag :=
  all.find? fun f ↦ f.letter? == some c && f.isAllowed command

end Flag

/-- What can be wrong with a command line. -/
inductive UsageError where
  | unexpected (argument : String)
  | missingValue (flag : Flag)
  | invalidValue (flag : Flag) (value : String)
  | unknownCommand (name : String)
  | missingCommand
  | missingFile
deriving DecidableEq, Repr, Inhabited

/-- An error of a command line in words. -/
def UsageError.message : UsageError → String
  | unexpected argument => "unexpected argument '" ++ argument ++ "' found"
  | missingValue flag => "a value is required for '--" ++ flag.name ++ "' but none was supplied"
  | invalidValue flag value => "invalid value '" ++ value ++ "' for '--" ++ flag.name ++ "'"
  | unknownCommand name => "unrecognized subcommand '" ++ name ++ "'"
  | missingCommand => "a subcommand is required"
  | missingFile => "a file is required"

/-- What has been given so far: options with their values, last first, a command and a file. -/
structure Given where
  flags : List (Flag × String) := []
  command : Option Command := none
  file : Option String := none
deriving DecidableEq, Repr, Inhabited

namespace Given

/-- With one more option. -/
def addFlag (g : Given) (f : Flag) (value : String) : Except UsageError Given :=
  if f.hasValue && !f.accepts value then .error (.invalidValue f value)
  else .ok { g with flags := (f, value) :: g.flags }

/-- With one more argument that is no option: the command, then its file. -/
def addWord (g : Given) (word : String) : Except UsageError Given :=
  match g.command, g.file with
  | none, _ =>
    match Command.ofName word with
    | some c => .ok { g with command := some c }
    | none => .error (.unknownCommand word)
  | some _, none => .ok { g with file := some word }
  | some _, some _ => .error (.unexpected word)

/-- With arguments none of which is an option. -/
def addWords (g : Given) (words : List String) : Except UsageError Given :=
  words.foldlM addWord g

/-- The value of the last option of its kind. -/
def value? (g : Given) (f : Flag) : Option String :=
  (g.flags.find? fun e ↦ e.1 == f).map Prod.snd

/-- Whether an option has been given. -/
def has (g : Given) (f : Flag) : Bool := (g.value? f).isSome

/-- With the options of the letters after a dash, and the option that still lacks its value. -/
def addLetters (g : Given) (argument : String) :
    List Char → Except UsageError (Given × Option Flag)
  | [] => .ok (g, none)
  | c :: cs =>
    match Flag.ofLetter g.command c with
    | none => .error (.unexpected argument)
    | some f =>
      if f.hasValue then
        match cs with
        | [] => .ok (g, some f)
        | '=' :: value => (g.addFlag f (String.ofList value)).map fun g ↦ (g, none)
        | value => (g.addFlag f (String.ofList value)).map fun g ↦ (g, none)
      else
        match g.addFlag f "" with
        | .ok g => g.addLetters argument cs
        | .error e => .error e

/-- With the option of a name and what follows the name, and the option that still lacks its
value. -/
def addName (g : Given) (argument : String) (name rest : List Char) :
    Except UsageError (Given × Option Flag) :=
  match Flag.ofName g.command (String.ofList name), rest with
  | none, _ => .error (.unexpected argument)
  | some f, '=' :: value =>
    if f.hasValue then (g.addFlag f (String.ofList value)).map fun g ↦ (g, none)
    else .error (.unexpected argument)
  | some f, _ => if f.hasValue then .ok (g, some f) else (g.addFlag f "").map fun g ↦ (g, none)

/-- With one more argument, and the option that still lacks its value. -/
def addArgument (g : Given) (argument : String) : Except UsageError (Given × Option Flag) :=
  match argument.toList with
  | '-' :: '-' :: cs =>
    g.addName argument (cs.takeWhile (· != '=')) (cs.dropWhile (· != '='))
  | '-' :: c :: cs => g.addLetters argument (c :: cs)
  | _ => (g.addWord argument).map fun g ↦ (g, none)

/-- Whether an argument cannot be the value of an option. -/
def isOption (argument : String) : Bool :=
  match argument.toList with
  | '-' :: _ :: _ => true
  | _ => false

/-- With all arguments. -/
def addAll (g : Given) : List String → Except UsageError Given
  | [] => .ok g
  | "--" :: words => g.addWords words
  | argument :: rest =>
    match g.addArgument argument with
    | .error e => .error e
    | .ok (g, none) => if g.has .version then .ok g else g.addAll rest
    | .ok (g, some f) =>
      match rest with
      | [] => .error (.missingValue f)
      | value :: rest =>
        if isOption value then .error (.missingValue f)
        else
          match g.addFlag f value with
          | .ok g => g.addAll rest
          | .error e => .error e

end Given

/-- What to do with a file. -/
inductive Task where
  | check (format source : Option String)
  | ollir (outDir : Option String) (toStdout : Bool)
  | build (outDir source : Option String) (noFusion continueOnError : Bool)
deriving DecidableEq, Repr, Inhabited

/-- What a command line asks for. -/
inductive Invocation where
  | version
  | run (config color : Option String) (file : String) (task : Task)
deriving DecidableEq, Repr, Inhabited

/-- The task of a command with the options given. -/
def Given.task (g : Given) : Command → Task
  | .check => .check (g.value? .format) (g.value? .source)
  | .ollir => .ollir (g.value? .outDir) (g.has .stdout)
  | .build =>
    .build (g.value? .outDir) (g.value? .source) (g.has .noIncrementFusion)
      (g.has .continueOnError)

/-- The invocation of a command line. -/
def Invocation.parse (arguments : List String) : Except UsageError Invocation := do
  let g ← Given.addAll {} arguments
  if g.has .version then return .version
  match g.command, g.file with
  | none, _ => throw .missingCommand
  | some _, none => throw .missingFile
  | some c, some file => return .run (g.value? .config) (g.value? .color) file (g.task c)

end Jmm.Cli
