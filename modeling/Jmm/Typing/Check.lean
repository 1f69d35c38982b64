import Jmm.Typing.Assignable
import Jmm.Typing.Infer

/-!
# Checking method bodies

The violations in a method body, in the order of the text: those of a statement come before those
of the expressions in it, and those of a call before those in its receiver and arguments.  A failed
check never hides the ones in nested statements and expressions.
-/

set_option autoImplicit false

namespace Jmm

/-- A method whose body is checked. -/
structure Checker where
  table : SymbolTable
  scopes : Scopes
  decl : MethodDecl

namespace Checker

/-- The place from which names in the body are seen. -/
def site (c : Checker) : Site := ⟨c.table, c.scopes, c.decl.name⟩

/-! ## Single rules -/

/-- The variable an assignment writes: a bare name, or the bare name of the array written to; the
empty name otherwise. -/
def targetName : Expr → String
  | .index array _ _ => array.identifier?.getD ""
  | e => e.identifier?.getD ""

/-- A condition has to be a truth value. -/
def condition (c : Checker) (construct : Construct) (test : Expr) (span : Span) :
    List Violation :=
  let found := c.site.typeOf test
  if found = .boolean then [] else [.conditionType construct c.decl.name found span]

/-- A static method does not assign to fields. -/
def staticAssignment (c : Checker) (target : Expr) (span : Span) : List Violation :=
  if c.decl.isStatic && c.scopes.isField (targetName target) c.decl.name then
    [.staticFieldAssignment c.decl.name (targetName target) span]
  else []

/-- The assigned value has to fit its target. -/
def assignedType (c : Checker) (target value : Expr) (span : Span) : List Violation :=
  let targetType := c.site.typeOf target
  let valueType := c.site.typeOf value
  if c.table.canAssign valueType targetType then []
  else [.assignedType c.decl.name (targetName target) targetType valueType span]

/-- The type of the value a return statement gives. -/
def returnedType (c : Checker) : Option Expr → Ty
  | some value => c.site.typeOf value
  | none => .void

/-- The returned value has to have the declared type exactly. -/
def returned (c : Checker) (value : Option Expr) (span : Span) : List Violation :=
  let expected := Ty.ofTypeName c.decl.returns
  let found := c.returnedType value
  if found = .error then [.untypedReturn c.decl.name span]
  else if found = expected then []
  else [.returnType c.decl.name expected found span]

/-- A static method does not use its receiver. -/
def receiver (c : Checker) (span : Span) : List Violation :=
  if c.decl.isStatic then [.receiverInStatic c.decl.name span] else []

/-- A call on the class itself has to name one of its methods and fit its parameters, unless there
is a superclass that may provide the method. -/
def callee (c : Checker) (receiver : Expr) (method : String) (args : List Expr) (span : Span) :
    List Violation :=
  if c.site.typeOf receiver = .named c.table.className ∧ c.table.superclass = none then
    match c.table.method? method with
    | none => [.methodNotFound c.decl.name method span]
    | some s =>
      if c.table.accepts s.params (args.map c.site.typeOf) then []
      else [.argumentTypes c.decl.name method span]
  else []

/-! ## Expressions and statements -/

mutual

/-- The violations in an expression. -/
def expr (c : Checker) : Expr → List Violation
  | .int _ _ | .bool _ _ | .ident _ _ | .newObject _ _ => []
  | .self span => c.receiver span
  | .paren inner _ => c.expr inner
  | .arrayLit elements _ => c.exprs elements
  | .not operand _ => c.expr operand
  | .index array position _ => c.expr array ++ c.expr position
  | .binary _ left right _ => c.expr left ++ c.expr right
  | .call receiver method args span =>
    c.callee receiver method args span ++ c.expr receiver ++ c.exprs args
  | .newArray _ size _ => c.expr size
  | .length array _ => c.expr array

/-- The violations in a list of expressions. -/
def exprs (c : Checker) : List Expr → List Violation
  | [] => []
  | e :: es => c.expr e ++ c.exprs es

end

mutual

/-- The violations in a statement. -/
def stmt (c : Checker) : Stmt → List Violation
  | .assign target value span =>
    c.staticAssignment target span ++ c.assignedType target value span ++ c.expr target
      ++ c.expr value
  | .expr e _ => c.expr e
  | .ret value span =>
    c.returned value span
      ++ match value with
        | some e => c.expr e
        | none => []
  | .cond test thenBranch elseBranch span =>
    c.condition .cond test span ++ c.expr test ++ c.stmts thenBranch ++ c.stmts elseBranch
  | .loop test body span => c.condition .loop test span ++ c.expr test ++ c.stmts body

/-- The violations in a list of statements. -/
def stmts (c : Checker) : List Stmt → List Violation
  | [] => []
  | s :: ss => c.stmt s ++ c.stmts ss

end

/-- The violations in the body of the method. -/
def body (c : Checker) : List Violation := c.stmts c.decl.body

end Checker
end Jmm
