import Jmm.Typing.Ty

/-!
# Types and operands of OLLIR

OLLIR is the three-address code between programs and assembly.  Every value in it carries its type,
and an operand is a value that is there without computation: a literal, a variable, an element of
an array, the receiver, or a class named as such.
-/

set_option autoImplicit false

namespace Jmm.Ollir

/-- The type of an OLLIR value. -/
inductive Ty where
  | int32
  | boolean
  | void
  | string
  | named (className : String)
  | array (element : Ty)
deriving DecidableEq, Repr, Inhabited

namespace Ty

/-- Arrays of integers. -/
abbrev intArray : Ty := array int32

/-- An array. -/
def isArray : Ty → Bool
  | array _ => true
  | _ => false

/-- A type whose values are references. -/
def isReference : Ty → Bool
  | string => true
  | named _ => true
  | array _ => true
  | _ => false

/-- The type of the elements of an array. -/
def element? : Ty → Option Ty
  | array element => some element
  | _ => none

/-- The type of the elements of an array, integers for anything else. -/
def elementOrInt (t : Ty) : Ty := t.element?.getD int32

/-- The OLLIR type of a program type.  A type that says nothing becomes `void`. -/
def ofTy : Jmm.Ty → Ty
  | .int => int32
  | .boolean => boolean
  | .void => void
  | .string => string
  | .named name => named name
  | .array element => array (ofTy element)
  | .newArray => intArray
  | .arrayInit => intArray
  | .error => void
  | .imported => void

/-- The OLLIR type of a name of the given type: a vararg holds an array of its type. -/
def ofBinding (t : Jmm.Ty) (isVararg : Bool) : Ty :=
  if isVararg && !(ofTy t).isArray then array (ofTy t) else ofTy t

/-- A type as the suffix of a value. -/
def text : Ty → String
  | int32 => "i32"
  | boolean => "bool"
  | void => "V"
  | string => "String"
  | named className => className
  | array element => "array." ++ element.text

end Ty

/-- A value that is there without computation. -/
inductive Operand where
  | literal (value : Int32) (type : Ty)
  | var (name : String) (type : Ty)
  /-- An element of the array `name`; the type is that of the element. -/
  | element (name : String) (index : Operand) (type : Ty)
  /-- The receiver of a method of the class. -/
  | receiver (className : String)
  /-- A class or package named as such, which has no value. -/
  | classRef (name : String)
deriving DecidableEq, Repr, Inhabited

namespace Operand

/-- An integer literal. -/
def int (value : Int32) : Operand := literal value .int32

/-- A truth literal, one or zero. -/
def bool (value : Bool) : Operand := literal (if value then 1 else 0) .boolean

/-- The type of an operand. -/
def type : Operand → Ty
  | literal _ t => t
  | var _ t => t
  | element _ _ t => t
  | receiver className => .named className
  | classRef name => .named name

/-- The variable an operand reads, which for an element is its array. -/
def name? : Operand → Option String
  | var name _ => some name
  | element name _ _ => some name
  | _ => none

/-- An operand as text. -/
def text : Operand → String
  | literal value t => Text.int32Text value ++ "." ++ t.text
  | var name t => name ++ "." ++ t.text
  | element name index t =>
    name ++ ".array." ++ t.text ++ "[" ++ index.text ++ "]." ++ t.text
  | receiver _ => "this"
  | classRef name => name

end Operand
end Jmm.Ollir
