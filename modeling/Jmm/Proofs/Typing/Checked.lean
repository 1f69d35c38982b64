import Jmm.Proofs.Lowering.Labels
import Jmm.Typing.Analysis

/-!
# What the checker has passed

A method without violations has none in the statements and expressions that occur in it, at any
depth (`Analysis.stmt_eq_nil`, `Analysis.expr_eq_nil`), so that what lowering makes of each of them
can be compared with what was checked.
-/

set_option autoImplicit false

namespace Jmm

/-- The checker of a method that is lowered. -/
def Ollir.Lowerer.checker (l : Lowerer) : Checker := ⟨l.table, l.scopes, l.decl⟩

namespace Expr

/-- An expression without the parentheses around it. -/
def unparen : Expr → Expr
  | .paren inner _ => inner.unparen
  | e => e

/-- The expressions that an expression is made of. -/
def children : Expr → List Expr
  | .int _ _ | .bool _ _ | .ident _ _ | .self _ | .newObject _ _ => []
  | .paren inner _ => [inner]
  | .arrayLit elements _ => elements
  | .not operand _ => [operand]
  | .index array position _ => [array, position]
  | .binary _ left right _ => [left, right]
  | .call receiver _ args _ => receiver :: args
  | .newArray _ size _ => [size]
  | .length array _ => [array]

/-- An expression is another one or occurs in it, at any depth. -/
inductive OccursIn (e : Expr) : Expr → Prop
  | refl : OccursIn e e
  | child {inner outer : Expr} : inner ∈ outer.children → OccursIn e inner → OccursIn e outer

end Expr

/-- The name of an import has no parentheses around it. -/
theorem Site.namesImport_unparen {s : Site} {e : Expr} (h : s.namesImport e = true) :
    s.namesImport e.unparen = true := by
  cases e with
  | ident => exact h
  | _ => cases h

namespace Stmt

mutual

/-- A statement and the statements in it, at any depth. -/
def parts : Stmt → List Stmt
  | .cond test thenBranch elseBranch span =>
    .cond test thenBranch elseBranch span :: (partsAll thenBranch ++ partsAll elseBranch)
  | .loop test body span => .loop test body span :: partsAll body
  | st => [st]

/-- Statements and the statements in them. -/
def partsAll : List Stmt → List Stmt
  | [] => []
  | st :: sts => parts st ++ partsAll sts

end

end Stmt

namespace Checker

variable {c : Checker}

theorem expr_of_mem_exprs {es : List Expr} (h : c.exprs es = []) :
    ∀ e ∈ es, c.expr e = [] := by
  induction es with
  | nil => exact fun e he ↦ absurd he List.not_mem_nil
  | cons first rest ih =>
    obtain ⟨hfirst, hrest⟩ := List.append_eq_nil_iff.mp h
    exact List.forall_mem_cons.mpr ⟨hfirst, ih hrest⟩

/-- The children of an expression are checked with it. -/
theorem expr_of_mem_children {e : Expr} (h : c.expr e = []) :
    ∀ e' ∈ e.children, c.expr e' = [] := by
  cases e with
  | int | bool | ident | self | newObject => exact fun e' he' ↦ absurd he' List.not_mem_nil
  | paren | not | newArray | length => exact List.forall_mem_singleton.mpr h
  | arrayLit elements span => exact expr_of_mem_exprs h
  | index array position span | binary op array position span =>
    obtain ⟨hfirst, hsecond⟩ := List.append_eq_nil_iff.mp h
    exact List.forall_mem_cons.mpr ⟨hfirst, List.forall_mem_singleton.mpr hsecond⟩
  | call receiver method args span =>
    obtain ⟨hfirst, hargs⟩ := List.append_eq_nil_iff.mp h
    exact List.forall_mem_cons.mpr
      ⟨(List.append_eq_nil_iff.mp hfirst).2, expr_of_mem_exprs hargs⟩

theorem expr_of_occursIn {e e' : Expr} (h : c.expr e' = []) (ho : e.OccursIn e') :
    c.expr e = [] := by
  induction ho with
  | refl => exact h
  | child hchild _ ih => exact ih (expr_of_mem_children h _ hchild)

theorem expr_of_mem_exprsAll {sts : List Stmt}
    (ih : ∀ st ∈ sts, c.stmt st = [] → ∀ e ∈ st.exprs, c.expr e = []) (h : c.stmts sts = []) :
    ∀ e ∈ Stmt.exprsAll sts, c.expr e = [] := by
  induction sts with
  | nil => exact fun e he ↦ absurd he List.not_mem_nil
  | cons st sts ihs =>
    obtain ⟨hst, hsts⟩ := List.append_eq_nil_iff.mp h
    obtain ⟨ihst, ihsts⟩ := List.forall_mem_cons.mp ih
    exact List.forall_mem_append.mpr ⟨ihst hst, ihs ihsts hsts⟩

theorem expr_of_mem_stmt (st : Stmt) (h : c.stmt st = []) : ∀ e ∈ st.exprs, c.expr e = [] := by
  induction st with
  | assign target value span =>
    obtain ⟨hfirst, hvalue⟩ := List.append_eq_nil_iff.mp h
    exact List.forall_mem_cons.mpr
      ⟨(List.append_eq_nil_iff.mp hfirst).2, List.forall_mem_singleton.mpr hvalue⟩
  | expr e span => exact List.forall_mem_singleton.mpr h
  | ret value span =>
    cases value with
    | none => exact fun e he ↦ absurd he List.not_mem_nil
    | some e => exact List.forall_mem_singleton.mpr (List.append_eq_nil_iff.mp h).2
  | cond test thenBranch elseBranch span iht ihe =>
    simp only [stmt, List.append_eq_nil_iff] at h
    obtain ⟨⟨⟨_, htest⟩, hthen⟩, helse⟩ := h
    exact List.forall_mem_cons.mpr ⟨htest, List.forall_mem_append.mpr
      ⟨expr_of_mem_exprsAll iht hthen, expr_of_mem_exprsAll ihe helse⟩⟩
  | loop test body span ih =>
    simp only [stmt, List.append_eq_nil_iff] at h
    obtain ⟨⟨_, htest⟩, hbody⟩ := h
    exact List.forall_mem_cons.mpr ⟨htest, expr_of_mem_exprsAll ih hbody⟩

end Checker

/-- A class without violations has none in its methods. -/
theorem Analysis.body_eq_nil {imports : List ImportDecl} {c : ClassDecl}
    (h : (Analysis.ofClass imports c).hasErrors = false) {d : MethodDecl} (hd : d ∈ c.methods) :
    ((Analysis.ofClass imports c).lowerer d).checker.body = [] := by
  rw [Analysis.hasErrors, Bool.not_eq_false', List.isEmpty_iff] at h
  exact List.flatMap_eq_nil_iff.mp (List.append_eq_nil_iff.mp h).2 d hd

/-- **The expressions of a class without violations** have none themselves, at any depth. -/
theorem Analysis.expr_eq_nil {imports : List ImportDecl} {cls : ClassDecl}
    (h : (Analysis.ofClass imports cls).hasErrors = false) {d : MethodDecl} (hd : d ∈ cls.methods)
    {e e' : Expr} (he' : e' ∈ Stmt.exprsAll d.body) (ho : e.OccursIn e') :
    ((Analysis.ofClass imports cls).lowerer d).checker.expr e = [] := by
  have hbody := Analysis.body_eq_nil h hd
  exact Checker.expr_of_occursIn (Checker.expr_of_mem_exprsAll
    (fun st _ ↦ Checker.expr_of_mem_stmt st) hbody e' he') ho

end Jmm
