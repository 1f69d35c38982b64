import Jmm.Typing.SymbolTable

/-!
# Assignability

When a value of one type may be stored where another type is declared, and when the arguments of a
call fit the parameters of a method.  Imported types are taken on trust, a class and its superclass
may stand for each other, and an array may be stored in any array.
-/

set_option autoImplicit false

namespace Jmm.SymbolTable

/-- A type about which nothing is known: an imported name, or a class that is an import. -/
def isExternal (t : SymbolTable) : Ty → Bool
  | .imported => true
  | .named name => t.isImport name
  | _ => false

/-- Whether the two types are the class and its superclass, in either order. -/
def areRelated (t : SymbolTable) (a b : Ty) : Bool :=
  match t.superclass with
  | none => false
  | some parent =>
    (a == .named t.className && b == .named parent)
      || (a == .named parent && b == .named t.className)

/-- Whether a value of type `source` may be stored where `target` is declared. -/
def canAssign (t : SymbolTable) (source target : Ty) : Bool :=
  (t.isExternal source && t.isExternal target) || t.areRelated source target
    || (source.isArray && target.isArray) || source.name == target.name

/-- The parameters before a trailing vararg, and the element type of that vararg. -/
def splitVararg (formals : List Symbol) : List Symbol × Option Ty :=
  match formals.getLast? with
  | some p => if p.isVararg then (formals.dropLast, some p.type) else (formals, none)
  | none => (formals, none)

/-- Whether arguments may stand for a vararg with elements of the given type: none at all, one
array of such elements, or any number of such elements. -/
def fillsVararg (element : Ty) : List Ty → Bool
  | [] => true
  | first :: rest =>
    if rest.isEmpty && first.isArray then first.element? == some element
    else (first :: rest).all (fun a ↦ a == first && !a.isArray) && first == element

/-- Whether arguments of the given types fit the parameters.  Arguments beyond the parameters are
not looked at unless the last parameter is a vararg. -/
def accepts (t : SymbolTable) (formals : List Symbol) (actuals : List Ty) : Bool :=
  let (fixed, vararg) := splitVararg formals
  fixed.length ≤ actuals.length
    && (fixed.zip actuals).all (fun p ↦ t.canAssign p.2 p.1.type)
    && match vararg with
      | none => true
      | some element => fillsVararg element (actuals.drop fixed.length)

end Jmm.SymbolTable
