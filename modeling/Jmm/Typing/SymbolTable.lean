import Jmm.Typing.Ty

/-!
# The symbol table of a unit

The facts a unit states about its one class: name, superclass, imports, fields and method
signatures.  Of several fields of one name the first counts, of several methods the last.

An import is known under its full dotted path and under its last segment.  `qualifiedName` turns a
class name into the path by which the machine knows the class.
-/

set_option autoImplicit false

namespace Jmm

/-- A declared field, parameter or local variable. -/
structure Symbol where
  name : String
  type : Ty
  isVararg : Bool := false
deriving DecidableEq, Repr, Inhabited

/-- The symbol a variable declaration introduces. -/
def Symbol.ofVar (d : VarDecl) : Symbol := ⟨d.name, Ty.ofTypeName d.type, d.type.isVararg⟩

/-- The symbol a parameter introduces. -/
def Symbol.ofParam (p : Param) : Symbol := ⟨p.name, Ty.ofTypeName p.type, p.type.isVararg⟩

/-- The signature of a method, and its local variables. -/
structure Signature where
  name : String
  returns : Ty
  isStatic : Bool
  isPublic : Bool
  params : List Symbol
  locals : List Symbol
deriving DecidableEq, Repr, Inhabited

namespace Signature

/-- The signature a method declares. -/
def ofDecl (m : MethodDecl) : Signature :=
  { name := m.name
    returns := Ty.ofTypeName m.returns
    isStatic := m.isStatic
    isPublic := m.isPublic
    params := m.params.map Symbol.ofParam
    locals := m.locals.map Symbol.ofVar }

/-- A method with one parameter only, which is a vararg. -/
def isSingleVararg (s : Signature) : Bool :=
  match s.params with
  | [only] => only.isVararg
  | _ => false

end Signature

/-- The facts a unit states about its class. -/
structure SymbolTable where
  className : String
  superclass : Option String
  /-- The dotted paths of the imports, in order. -/
  imports : List String
  fields : List Symbol
  /-- The names of the private fields. -/
  privateFields : List String
  /-- The methods, in order of declaration. -/
  methods : List Signature
deriving DecidableEq, Repr, Inhabited

/-- The path of the class that every class without superclass extends. -/
def rootClassPath : String := "java/lang/Object"

namespace SymbolTable

/-- The table of a class declared beside the given imports. -/
def ofClass (imports : List ImportDecl) (c : ClassDecl) : SymbolTable :=
  { className := c.name
    superclass := c.superclass
    imports := imports.map ImportDecl.dotted
    fields := c.fields.map Symbol.ofVar
    privateFields := (c.fields.filter VarDecl.isPrivate).map VarDecl.name
    methods := c.methods.map Signature.ofDecl }

/-- The first field of a name. -/
def field? (t : SymbolTable) (name : String) : Option Symbol :=
  t.fields.find? fun f ↦ f.name == name

/-- Whether some field of the name is private. -/
def isPrivateField (t : SymbolTable) (name : String) : Bool := t.privateFields.contains name

/-- The last method of a name. -/
def method? (t : SymbolTable) (name : String) : Option Signature :=
  t.methods.reverse.find? fun m ↦ m.name == name

/-- The return type of the method of a name. -/
def returnType? (t : SymbolTable) (method : String) : Option Ty :=
  (t.method? method).map Signature.returns

/-- Whether a name is an import: its full path, or the last segment of it. -/
def isImport (t : SymbolTable) (name : String) : Bool :=
  t.imports.any fun i ↦ i == name || Text.lastSegment i == name

/-- The path of a class: its name for the class itself, the path of the first import with that last
segment, and the name for any other class. -/
def qualifiedName (t : SymbolTable) (name : String) : String :=
  if name = t.className then name
  else
    match t.imports.find? fun i ↦ Text.lastSegment i == name with
    | some i => Text.slashed i
    | none => name

/-- The path of the superclass. -/
def superPath (t : SymbolTable) : String :=
  match t.superclass with
  | some name => t.qualifiedName name
  | none => rootClassPath

end SymbolTable
end Jmm
