import Jmm.Ollir.Method
import Jmm.Typing.SymbolTable

/-!
# Classes of OLLIR

A class with its imports, fields and methods, and the rules by which the machine finds classes.  The
dotted path of an import and the last segment of that path both name its class, whose path is the
same with slashes.
-/

set_option autoImplicit false

namespace Jmm.Ollir

/-- A field of a class. -/
structure Field where
  name : String
  type : Ty
  isPrivate : Bool := false
deriving DecidableEq, Repr, Inhabited

/-- The access modifier of a field. -/
def Field.access (f : Field) : String := if f.isPrivate then "private" else "public"

/-- A class. -/
structure Class where
  name : String
  /-- The dotted paths of the imports. -/
  imports : List String := []
  superclass : Option String := none
  fields : List Field := []
  methods : List Method := []
deriving DecidableEq, Repr, Inhabited

namespace Class

/-- The first field of a name. -/
def field? (c : Class) (name : String) : Option Field := c.fields.find? fun f ↦ f.name == name

/-- The first method of a name. -/
def method? (c : Class) (name : String) : Option Method := c.methods.find? fun m ↦ m.name == name

/-- The path of a class: its name for the class itself, the path of the first import known under
the name, and the name for any other class. -/
def classPath (c : Class) (name : String) : String :=
  if name = c.name then name
  else
    match c.imports.find? fun i ↦ i == name || Text.lastSegment i == name with
    | some i => Text.slashed i
    | none => name

/-- The path of the superclass. -/
def superPath (c : Class) : String :=
  match c.superclass with
  | some name => c.classPath name
  | none => rootClassPath

/-! ## Text -/

/-- The lines before the methods. -/
def header (c : Class) : String :=
  String.join (c.imports.map fun i ↦ "import " ++ i ++ ";\n")
    ++ c.name
    ++ (match c.superclass with
      | some name => " extends " ++ name
      | none => "")
    ++ " \x7b\n\n"
    ++ String.join (c.fields.map fun f ↦
      ".field " ++ f.access ++ " " ++ f.name ++ "." ++ f.type.text ++ ";\n")

/-- The default constructor, which every class has. -/
def constructor (c : Class) : String :=
  ".construct " ++ c.name ++ "().V \x7b\ninvokespecial(this, \"<init>\").V;\n\x7d\n"

/-- A class as text. -/
def text (c : Class) : String :=
  c.header ++ (if c.methods.isEmpty then "" else "\n")
    ++ String.join (c.methods.map fun m ↦ m.text ++ "\n")
    ++ c.constructor ++ "\x7d\n"

end Class
end Jmm.Ollir
