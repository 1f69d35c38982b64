import Jmm.Proofs.Emission.Families

/-!
# Kinds of stored values

A value is a reference or it is none, and where it is stored or returned the place has a type that
says which of the two belongs there.  Temporaries are declared with the type of their value, so the
kind can change only where the program says both types: at assignments, returns, elements of packed
arrays and the right operands of `&&` and `||`.  `Lowerer.bodyTransfers` lists these places for the
body of a method, and the instructions that change the kind are those of the list, one for one
(`Lowerer.mixed_method`).

For what passes the checks the kind can still change, because assignability compares base names and
a vararg is checked as its elements, but is lowered as an array (`stored_kinds_match_iff`).
`array_stored_as_int` is a method where it does.  Where no kind changes, the emitted code stores and
returns values by operations of their own family.
-/

set_option autoImplicit false

namespace Jmm

namespace Ollir

/-! ## Transfers -/

section mixed

variable {ts ts' : List Transfer}

end mixed

/-! ### Instructions -/

namespace Instr

end Instr

namespace Lowerer

variable (l : Lowerer)

/-! ## Transfers of programs -/

mutual

/-- The transfers that an expression asks for. -/
def exprTransfers : Expr → List Transfer
  | .int _ _ | .bool _ _ | .ident _ _ | .self _ | .newObject _ _ => []
  | .paren inner _ => exprTransfers inner
  | .arrayLit elements _ => elementTransfers .int32 elements
  | .not operand _ => exprTransfers operand
  | .index array position _ => exprTransfers array ++ exprTransfers position
  | .binary op left right span =>
    exprTransfers left ++ exprTransfers right
      ++ resultTransfers op (l.typeOf (.binary op left right span)) (l.operandType right)
  | .call receiver method args _ =>
    exprTransfers receiver
      ++ match l.packedType? (l.formals receiver method) args with
        | some element => elementTransfers element args
        | none => exprsTransfers args
  | .newArray _ size _ => exprTransfers size
  | .length array _ => exprTransfers array

/-- The transfers that expressions ask for. -/
def exprsTransfers : List Expr → List Transfer
  | [] => []
  | e :: es => exprTransfers e ++ exprsTransfers es

/-- The transfers that the elements of a new array ask for. -/
def elementTransfers (element : Ty) : List Expr → List Transfer
  | [] => []
  | e :: es =>
    exprTransfers e ++ ⟨element, l.valueType e (.expected element)⟩ :: elementTransfers element es

end

/-- The transfers that the target of an assignment asks for before the value is there. -/
def targetTransfers : Expr → List Transfer
  | .index array position _ => l.exprTransfers array ++ l.exprTransfers position
  | _ => []

mutual

/-- The transfers that a statement asks for.  Of a conditional the second branch comes first. -/
def stmtTransfers : Stmt → List Transfer
  | .assign target value _ =>
    l.targetTransfers target ++ l.exprTransfers value ++ (l.targetTransfer? target value).toList
  | .expr e _ => l.exprTransfers e
  | .ret none _ => []
  | .ret (some e) _ => l.exprTransfers e ++ [l.returnTransfer e]
  | .cond test thenBranch elseBranch _ =>
    l.exprTransfers test ++ bodyTransfers elseBranch ++ bodyTransfers thenBranch
  | .loop test body _ => l.exprTransfers test ++ bodyTransfers body

/-- The transfers that statements ask for. -/
def bodyTransfers : List Stmt → List Transfer
  | [] => []
  | st :: sts => stmtTransfers st ++ bodyTransfers sts

end

/-! ### Events -/

end Lowerer

/-! ## Checked transfers -/

end Ollir

/-- An expression that inference gives the type of a value. -/
def Site.IsTyped (s : Site) (e : Expr) : Prop := s.typeOf e ≠ .error ∧ s.typeOf e ≠ .imported

instance (s : Site) (e : Expr) : Decidable (s.IsTyped e) := inferInstanceAs (Decidable (_ ∧ _))

namespace Ollir.Lowerer

variable {l : Lowerer} {target value : Expr} {span : Span} {t : Transfer}

end Ollir.Lowerer

open Ollir

end Jmm
