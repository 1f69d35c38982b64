import Jmm.Compile
import Jmm.Proofs.Typing.LoweredTypes

/-!
# Broken rules

The checker walks over a method body and reports on the way.  Here the rules are stated one by one,
each as a test of a single node, without a walk: `Checker.testRule`, `fieldRule`, `assignRule` and
`returnRule` look at a statement, `receiverRule` and `callRule` at an expression.

What the checker reports is, up to order, one violation for each node of the body that breaks a rule
(`checker_reports_broken_rules`), where nodes are counted as often as they occur, at any depth.
Hence nothing is reported if and only if all nodes obey all rules (`Checker.Obeys`).

A target that is neither a variable nor an element of one has the empty name (`Expr.writtenName`),
so that it may stand for a field that has no name (`nameless_field_reported`).
-/

set_option autoImplicit false

namespace Jmm

/-! ## The nodes of a body -/

namespace Expr

mutual

/-- An expression and the expressions in it, at any depth, each as often as it occurs. -/
def parts : Expr → List Expr
  | .int value span => [.int value span]
  | .bool value span => [.bool value span]
  | .ident name span => [.ident name span]
  | .self span => [.self span]
  | .paren inner span => .paren inner span :: parts inner
  | .arrayLit elements span => .arrayLit elements span :: partsAll elements
  | .not operand span => .not operand span :: parts operand
  | .index array position span => .index array position span :: (parts array ++ parts position)
  | .binary op left right span => .binary op left right span :: (parts left ++ parts right)
  | .call receiver method args span =>
    .call receiver method args span :: (parts receiver ++ partsAll args)
  | .newArray element size span => .newArray element size span :: parts size
  | .newObject className span => [.newObject className span]
  | .length array span => .length array span :: parts array

/-- Expressions and the expressions in them. -/
def partsAll : List Expr → List Expr
  | [] => []
  | e :: es => parts e ++ partsAll es

end

theorem partsAll_eq_flatMap (es : List Expr) : partsAll es = es.flatMap parts := by
  induction es with
  | nil => rfl
  | cons e es ih => rw [partsAll, ih, List.flatMap_cons]

/-- The parts of an expression are itself and the parts of its children. -/
theorem parts_eq (e : Expr) : e.parts = e :: e.children.flatMap parts := by
  cases e <;> simp [parts, children, partsAll_eq_flatMap]

/-- The name that an assignment to a target writes to, which for an element is that of its array.
Only bare names count, and any other target has the empty name. -/
def writtenName : Expr → String
  | .ident name _ => name
  | .index (.ident name _) _ _ => name
  | _ => ""

end Expr

/-- The expressions in statements, at any depth, each as often as it occurs. -/
def Stmt.exprParts (sts : List Stmt) : List Expr := (Stmt.exprsAll sts).flatMap Expr.parts

namespace Checker

variable (c : Checker)

/-! ## The rules -/

/-- The test of a conditional or loop is a truth value. -/
def testRule : Stmt → Option Violation
  | .cond test _ _ span =>
    if c.site.typeOf test = .boolean then none
    else some (.conditionType .cond c.decl.name (c.site.typeOf test) span)
  | .loop test _ span =>
    if c.site.typeOf test = .boolean then none
    else some (.conditionType .loop c.decl.name (c.site.typeOf test) span)
  | _ => none

/-- In a static method no assignment writes to a field. -/
def fieldRule : Stmt → Option Violation
  | .assign target _ span =>
    if c.decl.isStatic = true ∧ c.scopes.isField target.writtenName c.decl.name = true then
      some (.staticFieldAssignment c.decl.name target.writtenName span)
    else none
  | _ => none

/-- The value of an assignment is assignable to its target. -/
def assignRule : Stmt → Option Violation
  | .assign target value span =>
    if c.table.canAssign (c.site.typeOf value) (c.site.typeOf target) = true then none
    else some (.assignedType c.decl.name target.writtenName (c.site.typeOf target)
      (c.site.typeOf value) span)
  | _ => none

/-- What is returned has a type, and it is the declared one.  Nothing is returned where `void` is
declared. -/
def returnRule : Stmt → Option Violation
  | .ret none span =>
    if Ty.ofTypeName c.decl.returns = .void then none
    else some (.returnType c.decl.name (Ty.ofTypeName c.decl.returns) .void span)
  | .ret (some value) span =>
    if c.site.typeOf value = .error then some (.untypedReturn c.decl.name span)
    else if c.site.typeOf value ≠ Ty.ofTypeName c.decl.returns then
      some (.returnType c.decl.name (Ty.ofTypeName c.decl.returns) (c.site.typeOf value) span)
    else none
  | _ => none

/-- A static method does not use its receiver. -/
def receiverRule : Expr → Option Violation
  | .self span => if c.decl.isStatic = true then some (.receiverInStatic c.decl.name span) else none
  | _ => none

/-- In a class without superclass, a call on the class itself names one of its methods and has
arguments that fit. -/
def callRule : Expr → Option Violation
  | .call receiver method args span =>
    if c.table.superclass = none ∧ c.site.typeOf receiver = .named c.table.className then
      match c.table.method? method with
      | none => some (.methodNotFound c.decl.name method span)
      | some s =>
        if c.table.accepts s.params (args.map c.site.typeOf) = true then none
        else some (.argumentTypes c.decl.name method span)
    else none
  | _ => none

/-- The violations of all rules by the nodes of the body, rule after rule. -/
def brokenRules : List Violation :=
  (Stmt.partsAll c.decl.body).filterMap c.testRule
    ++ (Stmt.partsAll c.decl.body).filterMap c.fieldRule
    ++ (Stmt.partsAll c.decl.body).filterMap c.assignRule
    ++ (Stmt.partsAll c.decl.body).filterMap c.returnRule
    ++ (Stmt.exprParts c.decl.body).filterMap c.receiverRule
    ++ (Stmt.exprParts c.decl.body).filterMap c.callRule

/-- All nodes of the body obey all rules. -/
structure Obeys : Prop where
  cond : ∀ test thenBranch elseBranch span,
    .cond test thenBranch elseBranch span ∈ Stmt.partsAll c.decl.body →
    c.site.typeOf test = .boolean
  loop : ∀ test body span, .loop test body span ∈ Stmt.partsAll c.decl.body →
    c.site.typeOf test = .boolean
  field : ∀ target value span, .assign target value span ∈ Stmt.partsAll c.decl.body →
    c.decl.isStatic = true → c.scopes.isField target.writtenName c.decl.name = false
  assign : ∀ target value span, .assign target value span ∈ Stmt.partsAll c.decl.body →
    c.table.canAssign (c.site.typeOf value) (c.site.typeOf target) = true
  ret : ∀ value span, .ret (some value) span ∈ Stmt.partsAll c.decl.body →
    c.site.typeOf value = Ty.ofTypeName c.decl.returns
  retVoid : ∀ span, .ret none span ∈ Stmt.partsAll c.decl.body →
    Ty.ofTypeName c.decl.returns = .void
  receiver : ∀ span, .self span ∈ Stmt.exprParts c.decl.body → c.decl.isStatic = false
  call : ∀ receiver method args span,
    .call receiver method args span ∈ Stmt.exprParts c.decl.body →
    c.table.superclass = none → c.site.typeOf receiver = .named c.table.className →
    ∃ s, c.table.method? method = some s
      ∧ c.table.accepts s.params (args.map c.site.typeOf) = true

/-! ## Expressions -/

/-- What the rules say of an expression, the expressions in it left aside. -/
def exprRules (e : Expr) : List Violation := (c.receiverRule e).toList ++ (c.callRule e).toList

theorem callee_eq (receiver : Expr) (method : String) (args : List Expr) (span : Span) :
    c.callee receiver method args span = c.exprRules (.call receiver method args span) := by
  show _ = (c.callRule (.call receiver method args span)).toList
  rw [callee, callRule]
  by_cases hreceiver : c.site.typeOf receiver = .named c.table.className
      ∧ c.table.superclass = none
  · rw [if_pos hreceiver, if_pos hreceiver.symm]
    cases c.table.method? method with
    | none => rfl
    | some s =>
      dsimp only
      split <;> rfl
  · rw [if_neg hreceiver, if_neg fun h ↦ hreceiver h.symm]
    rfl

theorem exprs_eq {es : List Expr} (ih : ∀ e ∈ es, c.expr e = e.parts.flatMap c.exprRules) :
    c.exprs es = (Expr.partsAll es).flatMap c.exprRules := by
  induction es with
  | nil => rfl
  | cons e es ihes =>
    obtain ⟨hfirst, hrest⟩ := List.forall_mem_cons.mp ih
    rw [exprs, Expr.partsAll, List.flatMap_append, hfirst, ihes hrest]

/-- The violations in an expression are those of its parts, in order. -/
theorem expr_eq_flatMap (e : Expr) : c.expr e = e.parts.flatMap c.exprRules := by
  induction e with
  | int | bool | ident | newObject => rfl
  | self span =>
    rw [expr, receiver, Expr.parts, List.flatMap_singleton, exprRules, receiverRule]
    split <;> rfl
  | paren inner span ih | not inner span ih | newArray _ inner span ih | length inner span ih =>
    exact ih
  | arrayLit elements span ih => exact c.exprs_eq ih
  | index first second span iha ihb | binary _ first second span iha ihb =>
    rw [expr, iha, ihb, ← List.flatMap_append]
    rfl
  | call receiver method args span ihr iha =>
    rw [expr, Expr.parts, List.flatMap_cons, List.flatMap_append, c.callee_eq, ihr, c.exprs_eq iha,
      List.append_assoc]

/-! ## Statements -/

/-- What the rules say of a statement, the statements and expressions in it left aside. -/
def stmtRules (st : Stmt) : List Violation :=
  (c.testRule st).toList ++ (c.fieldRule st).toList ++ (c.assignRule st).toList
    ++ (c.returnRule st).toList

theorem targetName_eq (target : Expr) : targetName target = target.writtenName := by
  cases target with
  | index array position span => cases array <;> rfl
  | _ => rfl

theorem assign_eq (target value : Expr) (span : Span) :
    c.staticAssignment target span ++ c.assignedType target value span
      = c.stmtRules (.assign target value span) := by
  have hfield : c.staticAssignment target span
      = (c.fieldRule (.assign target value span)).toList := by
    simp only [staticAssignment, fieldRule, targetName_eq, Bool.and_eq_true]
    split <;> rfl
  have hassign : c.assignedType target value span
      = (c.assignRule (.assign target value span)).toList := by
    rw [assignedType, assignRule, targetName_eq]
    split <;> rfl
  rw [hfield, hassign]
  exact (List.append_nil _).symm

theorem returned_eq (value : Option Expr) (span : Span) :
    c.returned value span = c.stmtRules (.ret value span) := by
  show _ = (c.returnRule (.ret value span)).toList
  rw [returned]
  cases value with
  | none =>
    rw [returnedType, returnRule, if_neg fun h ↦ Ty.noConfusion h]
    simp only [eq_comm]
    split <;> rfl
  | some value =>
    rw [returnedType, returnRule]
    split
    · rfl
    · rw [ite_not]
      split <;> rfl

theorem condition_eq (construct : Construct) (test : Expr) (span : Span) :
    c.condition construct test span
      = if c.site.typeOf test = .boolean then []
        else [.conditionType construct c.decl.name (c.site.typeOf test) span] := rfl

theorem cond_eq (test : Expr) (thenBranch elseBranch : List Stmt) (span : Span) :
    c.condition .cond test span = c.stmtRules (.cond test thenBranch elseBranch span) := by
  rw [condition_eq, stmtRules, testRule]
  split <;> rfl

theorem loop_eq (test : Expr) (body : List Stmt) (span : Span) :
    c.condition .loop test span = c.stmtRules (.loop test body span) := by
  rw [condition_eq, stmtRules, testRule]
  split <;> rfl

/-- Two lists of two parts each have the same elements as the lists of the parts. -/
theorem perm_append_append (a b a' b' : List Violation) :
    (a ++ b ++ (a' ++ b')).Perm (a ++ a' ++ (b ++ b')) := by
  rw [List.append_assoc, List.append_assoc]
  exact (List.perm_append_comm_assoc b a' b').append_left a

theorem stmts_perm {sts : List Stmt}
    (ih : ∀ st ∈ sts, (c.stmt st).Perm (st.parts.flatMap c.stmtRules ++ st.exprs.flatMap c.expr)) :
    (c.stmts sts).Perm
      ((Stmt.partsAll sts).flatMap c.stmtRules ++ (Stmt.exprsAll sts).flatMap c.expr) := by
  induction sts with
  | nil => exact .refl _
  | cons st sts ihs =>
    obtain ⟨hfirst, hrest⟩ := List.forall_mem_cons.mp ih
    rw [stmts, Stmt.partsAll, Stmt.exprsAll, List.flatMap_append, List.flatMap_append]
    exact (hfirst.append (ihs hrest)).trans (perm_append_append _ _ _ _)

/-- The violations in a statement are those of the statements in it and those in its
expressions. -/
theorem stmt_perm (st : Stmt) :
    (c.stmt st).Perm (st.parts.flatMap c.stmtRules ++ st.exprs.flatMap c.expr) := by
  induction st with
  | assign target value span =>
    rw [stmt, assign_eq, List.append_assoc]
    simp [Stmt.parts, Stmt.exprs]
  | expr e span => simp [stmt, Stmt.parts, Stmt.exprs, stmtRules, testRule, fieldRule, assignRule,
      returnRule]
  | ret value span =>
    cases value <;> simp [stmt, returned_eq, Stmt.parts, Stmt.exprs]
  | cond test thenBranch elseBranch span iht ihe =>
    rw [stmt, Stmt.parts, Stmt.exprs, c.cond_eq test thenBranch elseBranch span]
    simp only [List.flatMap_cons, List.flatMap_append]
    have hbranches := ((c.stmts_perm iht).append (c.stmts_perm ihe)).trans
      (perm_append_append _ _ _ _)
    rw [List.append_assoc]
    exact (hbranches.append_left _).trans (perm_append_append _ _ _ _)
  | loop test body span ih =>
    rw [stmt, Stmt.parts, Stmt.exprs, c.loop_eq test body span]
    simp only [List.flatMap_cons]
    exact ((c.stmts_perm ih).append_left _).trans (perm_append_append _ _ _ _)

/-! ## Bodies -/

/-- **The checker reports what breaks a rule**, once for each node and rule. -/
theorem body_perm : c.body.Perm c.brokenRules := by
  have hexprs : (Stmt.exprsAll c.decl.body).flatMap c.expr
      = (Stmt.exprParts c.decl.body).flatMap c.exprRules := by
    rw [Stmt.exprParts, List.flatMap_assoc]
    exact congrArg (List.flatMap · _) (funext c.expr_eq_flatMap)
  have hstmts : ((Stmt.partsAll c.decl.body).flatMap c.stmtRules).Perm
      ((Stmt.partsAll c.decl.body).filterMap c.testRule
        ++ (Stmt.partsAll c.decl.body).filterMap c.fieldRule
        ++ (Stmt.partsAll c.decl.body).filterMap c.assignRule
        ++ (Stmt.partsAll c.decl.body).filterMap c.returnRule) := by
    simp only [List.filterMap_eq_flatMap_toList]
    refine (List.flatMap_append_perm _ _ _).symm.trans (List.Perm.append_right _ ?_)
    refine (List.flatMap_append_perm _ _ _).symm.trans (List.Perm.append_right _ ?_)
    exact (List.flatMap_append_perm _ _ _).symm
  have hrules : ((Stmt.exprParts c.decl.body).flatMap c.exprRules).Perm
      ((Stmt.exprParts c.decl.body).filterMap c.receiverRule
        ++ (Stmt.exprParts c.decl.body).filterMap c.callRule) := by
    simp only [List.filterMap_eq_flatMap_toList]
    exact (List.flatMap_append_perm _ _ _).symm
  have hbody : (c.stmts c.decl.body).Perm _ := c.stmts_perm fun st _ ↦ c.stmt_perm st
  rw [hexprs] at hbody
  rw [brokenRules, List.append_assoc _ (List.filterMap c.receiverRule _)]
  exact hbody.trans (hstmts.append hrules)

theorem brokenRules_eq_nil_iff : c.brokenRules = [] ↔ c.Obeys := by
  simp only [brokenRules, List.append_eq_nil_iff, List.filterMap_eq_nil_iff]
  constructor
  · rintro ⟨⟨⟨⟨⟨htest, hfield⟩, hassign⟩, hret⟩, hreceiver⟩, hcall⟩
    refine ⟨?_, ?_, ?_, ?_, ?_, ?_, ?_, ?_⟩
    · intro test thenBranch elseBranch span hst
      have := htest _ hst
      simpa [testRule] using this
    · intro test body span hst
      have := htest _ hst
      simpa [testRule] using this
    · intro target value span hst hstatic
      have := hfield _ hst
      simpa [fieldRule, hstatic] using this
    · intro target value span hst
      have := hassign _ hst
      simpa [assignRule] using this
    · intro value span hst
      have := hret _ hst
      rw [returnRule] at this
      split at this
      · cases this
      · split at this
        · cases this
        · rename_i hsame
          exact not_ne_iff.mp hsame
    · intro span hst
      have := hret _ hst
      simpa [returnRule] using this
    · intro span he
      have := hreceiver _ he
      simpa [receiverRule] using this
    · intro receiver method args span he hsuper htype
      have := hcall _ he
      rw [callRule, if_pos ⟨hsuper, htype⟩] at this
      cases hmethod : c.table.method? method with
      | none =>
        rw [hmethod] at this
        cases this
      | some s =>
        rw [hmethod] at this
        refine ⟨s, rfl, ?_⟩
        by_contra hfit
        simp [hfit] at this
  · intro h
    refine ⟨⟨⟨⟨⟨?_, ?_⟩, ?_⟩, ?_⟩, ?_⟩, ?_⟩
    · intro st hst
      cases st with
      | cond test thenBranch elseBranch span => exact if_pos (h.cond _ _ _ _ hst)
      | loop test body span => exact if_pos (h.loop _ _ _ hst)
      | _ => rfl
    · intro st hst
      cases st with
      | assign target value span =>
        refine if_neg fun hbroken ↦ ?_
        rw [h.field _ _ _ hst hbroken.1] at hbroken
        exact Bool.false_ne_true hbroken.2
      | _ => rfl
    · intro st hst
      cases st with
      | assign target value span => exact if_pos (h.assign _ _ _ hst)
      | _ => rfl
    · intro st hst
      cases st with
      | ret value span =>
        cases value with
        | none => exact if_pos (h.retVoid _ hst)
        | some value =>
          have htype := h.ret _ _ hst
          rw [returnRule, if_neg (htype ▸ (Ty.ofTypeName_ne _).1), if_neg (not_not.mpr htype)]
      | _ => rfl
    · intro e he
      cases e with
      | self span => exact if_neg (by simp [h.receiver span he])
      | _ => rfl
    · intro e he
      cases e with
      | call receiver method args span =>
        rw [callRule]
        split
        · rename_i hclass
          obtain ⟨s, hmethod, hfit⟩ := h.call _ _ _ _ he hclass.1 hclass.2
          rw [hmethod]
          exact if_pos hfit
        · rfl
      | _ => rfl

/-- Nothing is reported if and only if all rules are obeyed. -/
theorem body_eq_nil_iff : c.body = [] ↔ c.Obeys := by
  rw [← brokenRules_eq_nil_iff]
  have hperm := c.body_perm
  exact ⟨fun h ↦ (h ▸ hperm).nil_eq.symm, fun h ↦ (h ▸ hperm).eq_nil⟩

end Checker

/-- **The checker reports exactly the broken rules.**  What is reported for the bodies of a class is
the violations of all rules by their nodes, none lost and none twice.  So nothing is reported if and
only if every method obeys the rules. -/
theorem checker_reports_broken_rules (imports : List ImportDecl) (cls : ClassDecl) :
    let a := Analysis.ofClass imports cls
    let checked := cls.methods.flatMap fun d ↦ (a.lowerer d).checker.body
    a.violations = (Scopes.ofClass a.table cls).violations ++ checked
      ∧ checked.Perm (cls.methods.flatMap fun d ↦ (a.lowerer d).checker.brokenRules)
      ∧ (checked = [] ↔ ∀ d ∈ cls.methods, (a.lowerer d).checker.Obeys) := by
  intro a checked
  refine ⟨rfl, List.Perm.flatMap_left _ fun d _ ↦ (a.lowerer d).checker.body_perm, ?_⟩
  simp only [checked, List.flatMap_eq_nil_iff]
  exact forall₂_congr fun d _ ↦ (a.lowerer d).checker.body_eq_nil_iff

/-- In a static method the assignment `(x) = 1` writes to no variable.  It is reported as an
assignment to a field if the class has a field without a name, and passes otherwise. -/
theorem nameless_field_reported :
    let target : Expr := .paren (.ident "x" {}) {}
    let int : TypeName := { name := "int" }
    let c (field : String) : ClassDecl :=
      { name := "Main", superclass := none, fields := [{ name := field, type := int }]
        methods := [
          { name := "f", isPublic := true, isStatic := true, returns := { name := "void" }
            params := [{ name := "x", type := int }], locals := []
            body := [.assign target (.int 1 {}) {}] }] }
    (Analysis.ofClass [] (c "y")).violations = []
      ∧ (Analysis.ofClass [] (c "")).violations = [.staticFieldAssignment "f" "" {}] := by
  decide +kernel

end Jmm
