import Jmm.Ollir.Operand

/-!
# Variable tables

A `VarTable` binds the variables of a method to slots of its frame.  It keeps the order in which
names were first bound, and the first binding of a name stays: binding it again changes nothing.
-/

set_option autoImplicit false

namespace Jmm.Ollir

/-- What kind of variable a binding is for. -/
inductive VarScope where
  | receiver
  | parameter
  | local
  | field
deriving DecidableEq, Repr, Inhabited

/-- The slot of a variable.  A table that is supplied may give any slots; those that are counted
when there is none are of 16 bits. -/
structure Binding where
  scope : VarScope
  slot : Nat
  type : Ty
deriving DecidableEq, Repr, Inhabited

/-- The bindings of a method, in the order in which they were made. -/
structure VarTable where
  entries : List (String × Binding) := []
deriving DecidableEq, Repr, Inhabited

namespace VarTable

/-- The binding of a name. -/
def get? (t : VarTable) (name : String) : Option Binding :=
  (t.entries.find? fun e ↦ e.1 == name).map Prod.snd

/-- Whether a name is bound. -/
def contains (t : VarTable) (name : String) : Bool := t.entries.any fun e ↦ e.1 == name

/-- The table with a name bound, unless it is bound already. -/
def insert (t : VarTable) (name : String) (b : Binding) : VarTable :=
  if t.contains name then t else ⟨t.entries ++ [(name, b)]⟩

/-- The number of names bound. -/
def size (t : VarTable) : Nat := t.entries.length

/-- Whether no name is bound. -/
def isEmpty (t : VarTable) : Bool := t.entries.isEmpty

/-- The number of slots a frame needs: one more than the largest slot bound to a variable that is
no field. -/
def frameSize (t : VarTable) : Nat :=
  t.entries.foldl (fun n e ↦ if e.2.scope = .field then n else max n (e.2.slot + 1)) 0

end VarTable
end Jmm.Ollir
