import Jmm.Proofs.Lowering.Labels

/-!
# Sites that agree

Inference, the checker and lowering read a symbol table and scopes through a few questions only:
what a name means in the method at hand, whether it is a vararg there, and what the signatures of
methods are, without their locals.  Two sites that give the same answers (`Site.Agrees`) give every
expression the same type (`Site.Agrees.typeOf_eq`), two checkers that do report the same violations
(`Checker.Agrees.stmts_eq`), and two lowerers make the same code (`Lowerer.Agrees.method_eq`).

`withoutLocals` takes the locals out of a symbol table.  `SymbolTable.method?_withoutLocals` says
what is found in it, and everything else that is asked of a table does not see the difference.
-/

set_option autoImplicit false

namespace Jmm

/-- A signature without its locals. -/
def Signature.withoutLocals (s : Signature) : Signature := { s with locals := [] }

namespace SymbolTable

/-- A symbol table without the locals of methods. -/
def withoutLocals (t : SymbolTable) : SymbolTable :=
  { t with methods := t.methods.map Signature.withoutLocals }

theorem method?_withoutLocals (t : SymbolTable) (name : String) :
    t.withoutLocals.method? name = (t.method? name).map Signature.withoutLocals := by
  rw [method?, withoutLocals, ← List.map_reverse, List.find?_map]
  rfl

variable {t t' : SymbolTable} (h : t.withoutLocals = t'.withoutLocals)

include h

theorem className_congr : t.className = t'.className := (congrArg className h :)

theorem superclass_congr : t.superclass = t'.superclass := (congrArg superclass h :)

theorem isImport_congr : t.isImport = t'.isImport := (congrArg isImport h :)

theorem canAssign_congr : t.canAssign = t'.canAssign := (congrArg canAssign h :)

theorem accepts_congr : t.accepts = t'.accepts := (congrArg accepts h :)

/-- What is found under a name of a method. -/
theorem method?_congr (name : String) : (t.method? name).map Signature.withoutLocals
    = (t'.method? name).map Signature.withoutLocals := by
  rw [← method?_withoutLocals, ← method?_withoutLocals, h]

theorem returnType?_congr (name : String) : t.returnType? name = t'.returnType? name := by
  have hreturns := congrArg (Option.map Signature.returns) (method?_congr h name)
  rwa [Option.map_map, Option.map_map] at hreturns

/-- No method is found under a name in either table, or one with the same parameters is in both. -/
theorem method?_cases (name : String) :
    t.method? name = none ∧ t'.method? name = none
    ∨ ∃ s s', t.method? name = some s ∧ t'.method? name = some s' ∧ s'.params = s.params := by
  have hsame := method?_congr h name
  cases hs : t.method? name with
  | none =>
    rw [hs] at hsame
    exact .inl ⟨rfl, Option.map_eq_none_iff.mp hsame.symm⟩
  | some s =>
    rw [hs] at hsame
    obtain ⟨s', hs', hsame⟩ := Option.map_eq_some_iff.mp hsame.symm
    have hparams := congrArg Signature.params hsame
    exact .inr ⟨s, s', rfl, hs', hparams⟩

end SymbolTable

/-! ## Types -/

/-- Two sites that are the same for their method: they find the same variables, and the same methods
up to locals. -/
structure Site.Agrees (s s' : Site) : Prop where
  table : s.table.withoutLocals = s'.table.withoutLocals
  method : s.method = s'.method
  lookup : ∀ x, s.scopes.lookup x s.method = s'.scopes.lookup x s'.method
  isVararg : ∀ x, s.scopes.isVararg x s.method = s'.scopes.isVararg x s'.method

namespace Site.Agrees

variable {s s' : Site} (h : s.Agrees s')

include h

theorem identType_eq (name : String) : s.identType name = s'.identType name := by
  rw [identType, identType, SymbolTable.isImport_congr h.table, h.lookup]

theorem isField_eq (name : String) :
    s.scopes.isField name s.method = s'.scopes.isField name s'.method := by
  rw [Scopes.isField, Scopes.isField, h.lookup]

theorem isVarargIdent_eq (e : Expr) : s.isVarargIdent e = s'.isVarargIdent e := by
  rw [isVarargIdent, isVarargIdent]
  cases e.identifier? with
  | none => rfl
  | some name => exact h.isVararg name

theorem namesImport_eq (e : Expr) : s.namesImport e = s'.namesImport e := by
  rw [namesImport, namesImport, SymbolTable.isImport_congr h.table]

theorem callType_eq (receiver : Ty) (onImport : Bool) (method : String) :
    s.callType receiver onImport method = s'.callType receiver onImport method := by
  simp only [callType, returnType, h.method, SymbolTable.isImport_congr h.table,
    SymbolTable.className_congr h.table, SymbolTable.returnType?_congr h.table]

/-- **Expressions have the same types in sites that agree.** -/
theorem typeOf_eq (e : Expr) : s.typeOf e = s'.typeOf e := by
  induction e with
  | int | bool | newArray | newObject | length | arrayLit => rfl
  | ident name span => exact h.identType_eq name
  | self span => rw [typeOf, typeOf, SymbolTable.className_congr h.table]
  | paren inner span ih => exact ih
  | not operand span ih => rw [typeOf, typeOf, ih]
  | index array position span iha ihp => rw [typeOf, typeOf, iha, ihp, h.isVarargIdent_eq]
  | binary op left right span ihl ihr => rw [typeOf, typeOf, ihl, ihr]
  | call receiver method args span ihr _ =>
    rw [typeOf, typeOf, ihr, h.namesImport_eq, h.callType_eq]

end Site.Agrees

/-! ## Violations -/

/-- Two checkers that are the same for their method. -/
structure Checker.Agrees (c c' : Checker) : Prop where
  site : c.site.Agrees c'.site
  isStatic : c.decl.isStatic = c'.decl.isStatic
  returns : c.decl.returns = c'.decl.returns

namespace Checker

variable {c c' : Checker}

theorem exprs_congr {es : List Expr} (h : ∀ e ∈ es, c.expr e = c'.expr e) :
    c.exprs es = c'.exprs es := by
  induction es with
  | nil => rfl
  | cons e es ih =>
    obtain ⟨hfirst, hrest⟩ := List.forall_mem_cons.mp h
    rw [exprs, exprs, hfirst, ih hrest]

theorem stmts_congr {sts : List Stmt} (h : ∀ st ∈ sts, c.stmt st = c'.stmt st) :
    c.stmts sts = c'.stmts sts := by
  induction sts with
  | nil => rfl
  | cons st sts ih =>
    obtain ⟨hfirst, hrest⟩ := List.forall_mem_cons.mp h
    rw [stmts, stmts, hfirst, ih hrest]

namespace Agrees

variable (h : c.Agrees c')

include h

theorem name_eq : c.decl.name = c'.decl.name := h.site.method

theorem callee_eq (receiver : Expr) (method : String) (args : List Expr) (span : Span) :
    c.callee receiver method args span = c'.callee receiver method args span := by
  have hclass : c.table.className = c'.table.className :=
    SymbolTable.className_congr h.site.table
  have hsuper : c.table.superclass = c'.table.superclass :=
    SymbolTable.superclass_congr h.site.table
  have haccepts : c.table.accepts = c'.table.accepts := SymbolTable.accepts_congr h.site.table
  have htypes : c.site.typeOf = c'.site.typeOf := funext h.site.typeOf_eq
  rw [callee, callee, htypes, hclass, hsuper, haccepts, h.name_eq]
  rcases SymbolTable.method?_cases h.site.table method with ⟨hs, hs'⟩ | ⟨s, s', hs, hs', hparams⟩
  · rw [show c.table.method? method = none from hs, show c'.table.method? method = none from hs']
  · rw [show c.table.method? method = some s from hs,
      show c'.table.method? method = some s' from hs']
    simp only [hparams]

theorem expr_eq (e : Expr) : c.expr e = c'.expr e := by
  induction e with
  | int | bool | ident | newObject => rfl
  | self span => rw [expr, expr, receiver, receiver, h.isStatic, h.name_eq]
  | paren _ _ ih | not _ _ ih | newArray _ _ _ ih | length _ _ ih => exact ih
  | arrayLit elements span ih => exact exprs_congr ih
  | index _ _ _ iha ihb | binary _ _ _ _ iha ihb => rw [expr, expr, iha, ihb]
  | call receiver method args span ihr iha =>
    rw [expr, expr, h.callee_eq, ihr, exprs_congr iha]

theorem condition_eq (construct : Construct) (test : Expr) (span : Span) :
    c.condition construct test span = c'.condition construct test span := by
  simp only [condition, h.site.typeOf_eq, h.name_eq]

theorem staticAssignment_eq (target : Expr) (span : Span) :
    c.staticAssignment target span = c'.staticAssignment target span := by
  have hfield : c.scopes.isField (targetName target) c.decl.name
      = c'.scopes.isField (targetName target) c'.decl.name := h.site.isField_eq _
  rw [staticAssignment, staticAssignment, hfield, h.isStatic, h.name_eq]

theorem assignedType_eq (target value : Expr) (span : Span) :
    c.assignedType target value span = c'.assignedType target value span := by
  have hassign : c.table.canAssign = c'.table.canAssign :=
    SymbolTable.canAssign_congr h.site.table
  simp only [assignedType, h.site.typeOf_eq, hassign, h.name_eq]

theorem returned_eq (value : Option Expr) (span : Span) :
    c.returned value span = c'.returned value span := by
  have htype : c.returnedType value = c'.returnedType value := by
    cases value with
    | none => rfl
    | some e => exact h.site.typeOf_eq e
  simp only [returned, htype, h.returns, h.name_eq]

theorem stmt_eq (st : Stmt) : c.stmt st = c'.stmt st := by
  induction st with
  | assign target value span =>
    rw [stmt, stmt, h.staticAssignment_eq, h.assignedType_eq, h.expr_eq, h.expr_eq]
  | expr e span => exact h.expr_eq e
  | ret value span =>
    cases value with
    | none => rw [stmt, stmt, h.returned_eq]
    | some e => rw [stmt, stmt, h.returned_eq, h.expr_eq]
  | cond test thenBranch elseBranch span iht ihe =>
    rw [stmt, stmt, h.condition_eq, h.expr_eq, stmts_congr iht, stmts_congr ihe]
  | loop test body span ih =>
    rw [stmt, stmt, h.condition_eq, h.expr_eq, stmts_congr ih]

/-- **Checkers that agree report the same violations.** -/
theorem stmts_eq (sts : List Stmt) : c.stmts sts = c'.stmts sts :=
  stmts_congr fun st _ ↦ h.stmt_eq st

end Agrees
end Checker

/-! ## Code -/

namespace Ollir.Lowerer

variable {l l' : Lowerer}

theorem stores_congr {es : List Expr} (h : ∀ e ∈ es, l.expr e = l'.expr e) (array : String)
    (element : Ty) (position : Nat) :
    l.stores array element position es = l'.stores array element position es := by
  induction es generalizing position with
  | nil => rfl
  | cons e es ih =>
    obtain ⟨hfirst, hrest⟩ := List.forall_mem_cons.mp h
    rw [stores, stores, hfirst, ih hrest]

theorem args_congr {es : List Expr} (h : ∀ e ∈ es, l.expr e = l'.expr e)
    (formals : List (Ty × Bool)) (position : Nat) :
    l.args formals position es = l'.args formals position es := by
  induction es generalizing position with
  | nil => rfl
  | cons e es ih =>
    obtain ⟨hfirst, hrest⟩ := List.forall_mem_cons.mp h
    rw [args, args, hfirst, ih hrest]

theorem stmts_congr {sts : List Stmt} (h : ∀ st ∈ sts, l.stmt st = l'.stmt st) :
    l.stmts sts = l'.stmts sts := by
  induction sts with
  | nil => rfl
  | cons st sts ih =>
    obtain ⟨hfirst, hrest⟩ := List.forall_mem_cons.mp h
    rw [stmts, stmts, hfirst, ih hrest]

/-- Two lowerers of one method that are the same for it. -/
structure Agrees (l l' : Lowerer) : Prop where
  site : l.site.Agrees l'.site
  decl : l.decl = l'.decl

namespace Agrees

variable (h : l.Agrees l')

include h

theorem typeOf_eq (e : Expr) : l.typeOf e = l'.typeOf e := by
  rw [typeOf, typeOf, h.site.typeOf_eq, h.site.isVarargIdent_eq]

theorem className_eq : l.table.className = l'.table.className :=
  SymbolTable.className_congr h.site.table

theorem receiver_eq : l.receiver = l'.receiver := by
  rw [receiver, receiver, h.className_eq]

theorem isField_eq (name : String) :
    l.scopes.isField name l.decl.name = l'.scopes.isField name l'.decl.name :=
  h.site.isField_eq name

/-- No method is found under a name by either lowerer, or both find one with the same parameters. -/
theorem method?_cases (name : String) :
    l.table.method? name = none ∧ l'.table.method? name = none
    ∨ ∃ s s', l.table.method? name = some s ∧ l'.table.method? name = some s'
      ∧ s'.params = s.params :=
  SymbolTable.method?_cases h.site.table name

theorem ident_eq (name : String) : l.ident name = l'.ident name := by
  have himport : l.table.isImport = l'.table.isImport := SymbolTable.isImport_congr h.site.table
  have hvararg : l.scopes.isVararg name l.decl.name = l'.scopes.isVararg name l'.decl.name :=
    h.site.isVararg name
  simp only [ident, himport, hvararg, h.site.identType_eq, h.isField_eq, h.receiver_eq]

theorem formals_eq (receiver : Expr) (method : String) :
    l.formals receiver method = l'.formals receiver method := by
  rw [formals, formals, h.site.typeOf_eq, h.className_eq]
  rcases h.method?_cases method with ⟨hs, hs'⟩ | ⟨s, s', hs, hs', hparams⟩
  · rw [hs, hs']
  · rw [hs, hs']
    simp only [hparams]

theorem packedType?_eq (formals : List (Ty × Bool)) (args : List Expr) :
    l.packedType? formals args = l'.packedType? formals args := by
  simp only [packedType?, h.typeOf_eq]

theorem finishCall_eq (e : Expr) (onImport : Bool) (code : List Item) (caller : Operand)
    (method : String) (args : List Operand) (use : Use) :
    l.finishCall e onImport code caller method args use
      = l'.finishCall e onImport code caller method args use := by
  simp only [finishCall, callType, h.typeOf_eq]

/-- Expressions have the same code. -/
theorem expr_eq (e : Expr) : l.expr e = l'.expr e := by
  induction e with
  | int | bool | newObject => rfl
  | ident name span =>
    funext use
    exact h.ident_eq name
  | self span =>
    funext use
    rw [expr, expr, h.receiver_eq]
  | paren inner span ih =>
    funext use
    rw [expr, expr, ih]
  | arrayLit elements span ih =>
    funext use
    simp only [expr, stores_congr ih]
  | not operand span ih =>
    funext use
    rw [expr, expr, ih]
  | index array position span iha ihp =>
    funext use
    rw [expr, expr, iha, ihp]
  | binary op left right span ihl ihr =>
    funext use
    rw [expr, expr, ihl, ihr, h.typeOf_eq]
  | call receiver method args span ihr iha =>
    funext use
    simp only [expr, ihr, h.formals_eq, h.packedType?_eq, stores_congr iha, args_congr iha,
      h.finishCall_eq, h.site.namesImport_eq]
  | newArray element size span ih =>
    funext use
    rw [expr, expr, ih]
  | length array span ih =>
    funext use
    rw [expr, expr, ih]

theorem assign_eq (target value : Expr) : l.assign target value = l'.assign target value := by
  cases target with
  | ident name span =>
    simp only [assign, h.isField_eq, h.typeOf_eq, h.expr_eq, h.receiver_eq]
  | index array position span => simp only [assign, h.expr_eq]
  | _ => simp only [assign, h.expr_eq]

theorem returnType_eq : l.returnType = l'.returnType := by
  rw [returnType, returnType, h.decl]

theorem ret_eq (value : Option Expr) : l.ret value = l'.ret value := by
  cases value with
  | none => rw [ret, ret, h.returnType_eq]
  | some e => rw [ret, ret, h.returnType_eq, h.expr_eq]

theorem stmt_eq (st : Stmt) : l.stmt st = l'.stmt st := by
  induction st with
  | assign target value span => exact h.assign_eq target value
  | expr e span => rw [stmt, stmt, exprStmt, exprStmt, h.expr_eq]
  | ret value span => exact h.ret_eq value
  | cond test thenBranch elseBranch span iht ihe =>
    rw [stmt, stmt, h.expr_eq, stmts_congr iht, stmts_congr ihe]
  | loop test body span ih => rw [stmt, stmt, h.expr_eq, stmts_congr ih]

/-- **Lowerers that agree make the same code**, from the same names on. -/
theorem method_eq : l.method = l'.method := by
  have hbody : l.stmts l'.decl.body = l'.stmts l'.decl.body :=
    stmts_congr fun st _ ↦ h.stmt_eq st
  have hparams : l.params = l'.params := by
    rw [params, params, h.decl]
    rcases h.method?_cases l'.decl.name with ⟨hs, hs'⟩ | ⟨s, s', hs, hs', hparams⟩
    · rw [hs, hs']
    · rw [hs, hs']
      simp only [hparams]
  simp only [method, hbody, hparams, h.returnType_eq, h.decl]

end Agrees
end Ollir.Lowerer
end Jmm
