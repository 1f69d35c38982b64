import Jmm.Ollir.Class

/-!
# Descriptors

The machine names types by descriptors: a letter for a primitive type, the path of a class between
`L` and `;`, a bracket before the descriptor of the elements of an array.  The descriptor of a
method lists those of its parameters and that of its result.
-/

set_option autoImplicit false

namespace Jmm.Jasmin

/-- The descriptor of a type. -/
inductive Descriptor where
  | int
  | boolean
  | void
  | object (path : String)
  | array (element : Descriptor)
deriving DecidableEq, Repr, Inhabited

namespace Descriptor

/-- The path of the class of strings. -/
def stringPath : String := "java/lang/String"

/-- The descriptor of an OLLIR type, with class names resolved by the class that uses it. -/
def ofTy (c : Ollir.Class) : Ollir.Ty → Descriptor
  | .int32 => int
  | .boolean => boolean
  | .void => void
  | .string => object stringPath
  | .named className => object (c.classPath className)
  | .array element => array (ofTy c element)

/-- A descriptor as text. -/
def text : Descriptor → String
  | int => "I"
  | boolean => "Z"
  | void => "V"
  | object path => "L" ++ path ++ ";"
  | array element => "[" ++ element.text

end Descriptor

/-- The descriptor of a method. -/
structure MethodDescriptor where
  params : List Descriptor
  result : Descriptor
deriving DecidableEq, Repr, Inhabited

namespace MethodDescriptor

/-- The descriptor of a method with parameters and result of the given types. -/
def ofTys (c : Ollir.Class) (params : List Ollir.Ty) (result : Ollir.Ty) : MethodDescriptor :=
  ⟨params.map (Descriptor.ofTy c), Descriptor.ofTy c result⟩

/-- The descriptor of a method as text. -/
def text (d : MethodDescriptor) : String :=
  "(" ++ String.join (d.params.map Descriptor.text) ++ ")" ++ d.result.text

end MethodDescriptor
end Jmm.Jasmin
