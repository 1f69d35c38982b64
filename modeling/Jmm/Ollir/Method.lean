import Jmm.Ollir.Instr
import Jmm.Ollir.VarTable

/-!
# Methods of OLLIR

A method holds its instructions and, apart from them, its labels: each label has the index of the
instruction it stands before, which is the number of instructions for a label at the end.
`Method.listing` puts the two together again in the order in which they were added.
-/

set_option autoImplicit false

namespace Jmm.Ollir

/-- A label or an instruction. -/
inductive Item where
  | label (name : String)
  | instr (i : Instr)
deriving DecidableEq, Repr, Inhabited

/-- An item as a line of text. -/
def Item.text : Item → String
  | label name => name ++ ":\n"
  | instr i => i.text ++ ";\n"

/-- A method. -/
structure Method where
  name : String
  isPublic : Bool := false
  isStatic : Bool := false
  params : List Operand := []
  returns : Ty
  instrs : List Instr := []
  /-- The labels, each with the index of the instruction it stands before. -/
  labels : List (String × Nat) := []
  vars : VarTable := {}
deriving DecidableEq, Repr, Inhabited

namespace Method

/-! ## Adding to a method -/

/-- The method with one more instruction. -/
def push (m : Method) (i : Instr) : Method := { m with instrs := m.instrs ++ [i] }

/-- The method with a label before the instruction that comes next. -/
def placeLabel (m : Method) (label : String) : Method :=
  { m with labels := m.labels ++ [(label, m.instrs.length)] }

/-- The method with one more label or instruction. -/
def add (m : Method) : Item → Method
  | .label name => m.placeLabel name
  | .instr i => m.push i

/-- The method with more labels and instructions. -/
def extend (m : Method) (items : List Item) : Method := items.foldl add m

/-! ## Labels -/

/-- The labels before the instruction at an index. -/
def labelsAt (m : Method) (index : Nat) : List String :=
  (m.labels.filter fun l ↦ l.2 == index).map Prod.fst

/-- The index of the instruction a label stands before. -/
def labelTarget? (m : Method) (label : String) : Option Nat :=
  (m.labels.find? fun l ↦ l.1 == label).map Prod.snd

/-- The labels and instructions from the given instructions on, the first of which has the given
index. -/
def listingFrom (m : Method) : Nat → List Instr → List Item
  | index, [] => (m.labelsAt index).map Item.label
  | index, i :: is =>
    (m.labelsAt index).map Item.label ++ Item.instr i :: m.listingFrom (index + 1) is

/-- All labels and instructions, in order. -/
def listing (m : Method) : List Item := m.listingFrom 0 m.instrs

/-! ## Text -/

/-- The first line of a method. -/
def header (m : Method) : String :=
  ".method " ++ (if m.isPublic then "public " else "") ++ (if m.isStatic then "static " else "")
    ++ m.name ++ "(" ++ ", ".intercalate (m.params.map Operand.text) ++ ")." ++ m.returns.text
    ++ " \x7b\n"

/-- A method as text, one label or instruction a line. -/
def text (m : Method) : String :=
  m.header ++ String.join (m.listing.map Item.text) ++ "\x7d\n"

end Method
end Jmm.Ollir
