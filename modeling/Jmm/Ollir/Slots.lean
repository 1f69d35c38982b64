import Jmm.Ollir.Class

/-!
# Slots

Every method without a variable table is given one.  The receiver of an instance method comes
first, then the parameters, then every other variable in the order of its first appearance in the
instructions, and each new name takes the next free slot.  Slots are counted in 16 bits, so that
the count starts again from zero when they are used up.
-/

set_option autoImplicit false

namespace Jmm.Ollir

namespace VarTable

/-- The table with a name at the next slot, unless it is bound already. -/
def declare (t : VarTable) (name : String) (scope : VarScope) (type : Ty) : VarTable :=
  t.insert name ⟨scope, t.size % UInt16.size, type⟩

/-- The table with the variables of an operand. -/
def addOperand (t : VarTable) : Operand → VarTable
  | .var name type => t.declare name .local type
  | .element name index type => (t.declare name .local (.array type)).addOperand index
  | .literal _ _ => t
  | .receiver _ => t
  | .classRef _ => t

/-- The table with the variables of an instruction. -/
def addInstr (t : VarTable) : Instr → VarTable
  | .assign target _ value => (t.addOperand target).addInstr value
  | .single operand => t.addOperand operand
  | .binary _ left right _ => (t.addOperand left).addOperand right
  | .not operand _ => t.addOperand operand
  | .call c => c.args.foldl addOperand (t.addOperand c.caller)
  | .getField object _ _ => t.addOperand object
  | .putField object _ _ value => (t.addOperand object).addOperand value
  | .branch test _ => t.addInstr test
  | .goto _ => t
  | .ret _ (some value) => t.addOperand value
  | .ret _ none => t

/-- The table with a parameter. -/
def addParam (t : VarTable) : Operand → VarTable
  | .var name type => t.declare name .parameter type
  | _ => t

end VarTable

/-- The name of the receiver in a variable table. -/
def receiverName : String := "this"

/-- The variable table of a method of the class. -/
def Method.table (className : String) (m : Method) : VarTable :=
  let start : VarTable :=
    if m.isStatic then {} else VarTable.declare {} receiverName .receiver (.named className)
  m.instrs.foldl VarTable.addInstr (m.params.foldl VarTable.addParam start)

/-- The method with a variable table; one that is there is kept. -/
def Method.assignSlots (className : String) (m : Method) : Method :=
  if m.vars.isEmpty then { m with vars := m.table className } else m

/-- The class with a variable table in every method. -/
def Class.assignSlots (c : Class) : Class :=
  { c with methods := c.methods.map (Method.assignSlots c.name) }

end Jmm.Ollir
