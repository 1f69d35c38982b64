import Jmm.Typing.Ty

/-!
# Violations

The rules a program can break, each with the facts its report names, a stable code and the position
it is reported at.
-/

set_option autoImplicit false

namespace Jmm

/-- The two constructs with a condition. -/
inductive Construct where
  | cond
  | loop
deriving DecidableEq, Repr, Inhabited

/-- The name of a construct in reports. -/
def Construct.text : Construct → String
  | cond => "If"
  | loop => "While"

/-- A broken rule and where it is broken. -/
inductive Violation where
  | varargNotLast (method param : String) (span : Span)
  | varargReturn (method : String) (span : Span)
  | varargLocal (method name : String) (span : Span)
  | varargField (name : String) (span : Span)
  | conditionType (construct : Construct) (method : String) (found : Ty) (span : Span)
  | assignedType (method target : String) (targetType valueType : Ty) (span : Span)
  | staticFieldAssignment (method field : String) (span : Span)
  | untypedReturn (method : String) (span : Span)
  | returnType (method : String) (expected found : Ty) (span : Span)
  | receiverInStatic (method : String) (span : Span)
  | methodNotFound (caller callee : String) (span : Span)
  | argumentTypes (caller callee : String) (span : Span)
deriving DecidableEq, Repr, Inhabited

namespace Violation

/-- The position a violation is reported at. -/
def span : Violation → Span
  | varargNotLast _ _ s | varargReturn _ s | varargLocal _ _ s | varargField _ s => s
  | conditionType _ _ _ s | assignedType _ _ _ _ s | staticFieldAssignment _ _ s => s
  | untypedReturn _ s | returnType _ _ _ s | receiverInStatic _ s => s
  | methodNotFound _ _ s | argumentTypes _ _ s => s

/-- The code of the rule that is broken. -/
def code : Violation → String
  | varargNotLast .. => "E1001"
  | varargReturn .. => "E1002"
  | varargLocal .. => "E1003"
  | varargField .. => "E1004"
  | conditionType .. => "E2001"
  | assignedType .. => "E2002"
  | staticFieldAssignment .. => "E2003"
  | untypedReturn .. => "E2004"
  | returnType .. => "E2005"
  | receiverInStatic .. => "E2006"
  | methodNotFound .. => "E2007"
  | argumentTypes .. => "E2008"

/-- A text between quotes. -/
private def named (s : String) : String := "'" ++ s ++ "'"

/-- A violation in words. -/
def message : Violation → String
  | varargNotLast method param _ =>
    "Parameter " ++ named param ++ " of method " ++ named method
      ++ " can't be a vararg because it isn't the last parameter"
  | varargReturn method _ => "Return type of method " ++ named method ++ " can't be a vararg"
  | varargLocal method name _ =>
    "Local variable " ++ named name ++ " of method " ++ named method ++ " can't be a vararg"
  | varargField name _ => "Field " ++ named name ++ " can't be a vararg"
  | conditionType construct method found _ =>
    construct.text ++ " condition in method " ++ named method ++ " must be boolean, found "
      ++ named found.text
  | assignedType method target targetType valueType _ =>
    "In method " ++ named method ++ " " ++ named target ++ " of type " ++ named targetType.text
      ++ " can't be assigned a value of type " ++ named valueType.text
  | staticFieldAssignment method field _ =>
    "In method " ++ named method ++ " invalid assignment to field " ++ named field
      ++ " from a static method"
  | untypedReturn method _ =>
    "Return statement of method " ++ named method ++ " performs an invalid operation"
  | returnType method expected found _ =>
    "Return statement of method " ++ named method ++ " returns " ++ named found.text
      ++ ", expected " ++ named expected.text
  | receiverInStatic method _ =>
    "In method " ++ named method ++ " invalid use of 'this' inside a static method"
  | methodNotFound caller callee _ =>
    "Method " ++ named callee ++ " called from " ++ named caller ++ " was not found"
  | argumentTypes caller callee _ =>
    "Call from " ++ named caller ++ " to " ++ named callee
      ++ ": number or type of the arguments doesn't match"

end Violation
end Jmm
