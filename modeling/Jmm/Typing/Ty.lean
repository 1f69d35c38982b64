import Jmm.Program

/-!
# Types

The types of declarations and expressions.  Besides the types a program can write there are four
that only inference produces: the type of a failed inference, the type of an imported name, about
which nothing is known, and one type each for a new array and for an array literal, which are
arrays of integers whatever they are assigned to.

Whether a name is declared with `...` is not part of its type: `int...` and `int` are one type.
-/

set_option autoImplicit false

namespace Jmm

/-- The type of a declaration or an expression. -/
inductive Ty where
  | int
  | boolean
  | void
  | string
  /-- A class, by name. -/
  | named (name : String)
  | array (element : Ty)
  /-- The type of an expression that inference could not type. -/
  | error
  /-- The type of a name that is an import. -/
  | imported
  /-- The type of `new int[n]`. -/
  | newArray
  /-- The type of an array literal whose elements are all integer literals. -/
  | arrayInit
deriving DecidableEq, Repr, Inhabited

namespace Ty

/-- The type with the given name. -/
def ofName : String → Ty
  | "int" => int
  | "boolean" => boolean
  | "void" => void
  | "String" => string
  | name => named name

/-- The type a declaration names; `...` does not count. -/
def ofTypeName (t : TypeName) : Ty :=
  if t.isArray then array (ofName t.name) else ofName t.name

/-- The base name of a type, which for an array is that of its elements. -/
def name : Ty → String
  | int => "int"
  | boolean => "boolean"
  | void => "void"
  | string => "String"
  | named n => n
  | array element => element.name
  | error => "error"
  | imported => "Imported"
  | newArray => "newArray"
  | arrayInit => "arrayInit"

/-- A type as text. -/
def text : Ty → String
  | array element => element.text ++ "[]"
  | t => t.name

/-- An array, declared or inferred. -/
def isArray : Ty → Bool
  | array _ => true
  | newArray => true
  | arrayInit => true
  | _ => false

/-- The type of the elements of an array. -/
def element? : Ty → Option Ty
  | array element => some element
  | newArray => some int
  | arrayInit => some int
  | _ => none

end Ty
end Jmm
