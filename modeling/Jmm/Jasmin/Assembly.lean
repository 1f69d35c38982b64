import Jmm.Jasmin.Op

/-!
# Assembly

Classes and methods of assembly and their text.  A method states how deep its operand stack gets
and how many slots its frame has.  Every class has a constructor that only calls that of its
superclass.
-/

set_option autoImplicit false

namespace Jmm.Jasmin

/-- A method of assembly. -/
structure Method where
  name : String
  isPublic : Bool
  isStatic : Bool
  descriptor : MethodDescriptor
  stackLimit : Nat
  localsLimit : Nat
  lines : List Line
deriving DecidableEq, Repr, Inhabited

/-- A method as text. -/
def Method.text (m : Method) : String :=
  ".method " ++ (if m.isPublic then "public" else "private")
    ++ (if m.isStatic then " static" else "") ++ " " ++ m.name ++ m.descriptor.text ++ "\n"
    ++ "   .limit stack " ++ toString m.stackLimit ++ "\n"
    ++ "   .limit locals " ++ toString m.localsLimit ++ "\n"
    ++ String.join (m.lines.map Line.text)
    ++ ".end method\n"

/-- A field of assembly. -/
structure Field where
  access : String
  name : String
  descriptor : Descriptor
deriving DecidableEq, Repr, Inhabited

/-- A field as text. -/
def Field.text (f : Field) : String :=
  ".field " ++ f.access ++ " " ++ f.name ++ " " ++ f.descriptor.text ++ "\n"

/-- A class of assembly. -/
structure Class where
  name : String
  superPath : String
  fields : List Field
  methods : List Method
deriving DecidableEq, Repr, Inhabited

/-- The constructor of a class as text. -/
def Class.constructor (c : Class) : String :=
  ".method public <init>()V\n   aload_0\n   invokespecial " ++ c.superPath
    ++ "/<init>()V\n   return\n.end method\n"

/-- A class as text. -/
def Class.text (c : Class) : String :=
  ".class public " ++ c.name ++ "\n.super " ++ c.superPath ++ "\n\n"
    ++ String.join (c.fields.map Field.text) ++ (if c.fields.isEmpty then "" else "\n")
    ++ c.constructor
    ++ String.join (c.methods.map fun m ↦ "\n" ++ m.text)

end Jmm.Jasmin
