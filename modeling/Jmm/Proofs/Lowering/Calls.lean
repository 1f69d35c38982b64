import Jmm.Proofs.Typing.Linkage

/-!
# Calls that lowering keeps

Lowering takes expressions apart: it computes operands first, stores values in temporaries, drops
the values of statements, and tests the condition of a loop in two places.  Every call of the source
is made by one instruction of the lowered code all the same (`lowered_calls_perm`).
`Lowerer.bodyCalls` has the calls in the order in which they are made; here they are counted where
they stand in the tree, as the parts of the expressions of the body.

The only calls that get lost are those in the target of an assignment that is neither a variable nor
an element, of which nothing is lowered (`Stmt.lostCalls`).
-/

set_option autoImplicit false

namespace Jmm

/-! ## Calls in the source -/

namespace Expr

/-- The method that an expression calls, the expressions in it left aside. -/
def called? : Expr → Option String
  | .call _ method _ _ => some method
  | _ => none

/-- The methods that an expression calls, at any depth, each as often as it is called. -/
def calls (e : Expr) : List String := e.parts.filterMap called?

theorem calls_eq (e : Expr) : e.calls = e.called?.toList ++ e.children.flatMap calls := by
  have hparts : e.children.flatMap calls = (e.children.flatMap parts).filterMap called? :=
    List.filterMap_flatMap.symm
  rw [calls, parts_eq, hparts]
  cases h : e.called? with
  | none => exact List.filterMap_cons_none h
  | some method => exact List.filterMap_cons_some h

/-- A variable or an element of an array, which can be assigned to. -/
def isPlace : Expr → Bool
  | .ident _ _ => true
  | .index _ _ _ => true
  | _ => false

end Expr

namespace Stmt

/-- An assignment is to a variable or an element. -/
def assignsPlace : Stmt → Bool
  | .assign target _ _ => target.isPlace
  | _ => true

/-- The calls in a target that cannot be assigned to. -/
def lostCalls : Stmt → List String
  | .assign target _ _ => if target.isPlace then [] else target.calls
  | _ => []

theorem lostCalls_eq_nil {st : Stmt} (h : st.assignsPlace = true) : st.lostCalls = [] := by
  cases st with
  | assign target value span => exact if_pos h
  | _ => rfl

theorem filterMap_called_exprParts (sts : List Stmt) :
    (exprParts sts).filterMap Expr.called? = (exprsAll sts).flatMap Expr.calls := by
  rw [exprParts, List.filterMap_flatMap]
  rfl

end Stmt

namespace Ollir

/-- The method that an instruction invokes, virtually or statically. -/
def Instr.invoked? (i : Instr) : Option String := i.linkage?.map Linkage.method

namespace Lowerer

variable (l : Lowerer)

/-! ## Expressions -/

theorem exprsCalls_perm {es : List Expr}
    (ih : ∀ e ∈ es, ∀ use, ((l.exprCalls e use).map CallSite.method).Perm e.calls)
    (uses : Nat → Use) (position : Nat) :
    ((l.exprsCalls uses position es).map CallSite.method).Perm (es.flatMap Expr.calls) := by
  induction es generalizing position with
  | nil => exact .refl _
  | cons e es ihes =>
    obtain ⟨hfirst, hrest⟩ := List.forall_mem_cons.mp ih
    rw [exprsCalls, List.map_append, List.flatMap_cons]
    exact (hfirst _).append (ihes hrest _)

/-- The calls that are made for an expression are those in it. -/
theorem exprCalls_perm (e : Expr) :
    ∀ use, ((l.exprCalls e use).map CallSite.method).Perm e.calls := by
  induction e with
  | int | bool | ident | self | newObject => exact fun _ ↦ .refl _
  | paren inner span ih => exact fun use ↦ ih use.inParens
  | arrayLit elements span ih =>
    intro use
    rw [Expr.calls_eq]
    exact l.exprsCalls_perm ih _ 0
  | not operand span ih | newArray _ operand span ih | length operand span ih =>
    exact fun _ ↦ ih .operand
  | index first second span iha ihb | binary _ first second span iha ihb =>
    intro use
    rw [exprCalls, List.map_append, Expr.calls_eq]
    simpa [Expr.called?, Expr.children] using (iha .operand).append (ihb .operand)
  | call receiver method args span ihr iha =>
    intro use
    have hargs := l.exprsCalls_perm iha (l.argUses (l.formals receiver method) args) 0
    rw [exprCalls, List.map_append, List.map_append, Expr.calls_eq]
    -- the call itself is made last, and stands first among the parts
    exact (((ihr .operand).append hargs).append_right [method]).trans List.perm_append_comm

/-! ## Statements -/

theorem targetCalls_perm (target value : Expr) (span : Span) :
    ((l.targetCalls target).map CallSite.method
      ++ Stmt.lostCalls (.assign target value span)).Perm target.calls := by
  cases target with
  | ident => exact .refl _
  | index array position s =>
    have hparts := (l.exprCalls_perm array .operand).append (l.exprCalls_perm position .operand)
    rw [Expr.calls_eq, targetCalls, List.map_append]
    simpa [Stmt.lostCalls, Expr.isPlace, Expr.called?, Expr.children] using hparts
  | _ => exact .refl _

theorem bodyCalls_perm {sts : List Stmt}
    (ih : ∀ st ∈ sts, ((l.stmtCalls st).map CallSite.method
      ++ st.parts.flatMap Stmt.lostCalls).Perm (st.exprs.flatMap Expr.calls)) :
    ((l.bodyCalls sts).map CallSite.method
      ++ (Stmt.partsAll sts).flatMap Stmt.lostCalls).Perm
        ((Stmt.exprsAll sts).flatMap Expr.calls) := by
  induction sts with
  | nil => exact .refl _
  | cons st sts ihs =>
    obtain ⟨hfirst, hrest⟩ := List.forall_mem_cons.mp ih
    rw [bodyCalls, Stmt.partsAll, Stmt.exprsAll, List.map_append, List.flatMap_append,
      List.flatMap_append]
    refine .trans (List.perm_iff_count.mpr fun x ↦ ?_) (hfirst.append (ihs hrest))
    simp only [List.count_append]
    omega

/-- The calls that are made for a statement are those in its expressions, without the lost ones. -/
theorem stmtCalls_perm (st : Stmt) :
    ((l.stmtCalls st).map CallSite.method ++ st.parts.flatMap Stmt.lostCalls).Perm
      (st.exprs.flatMap Expr.calls) := by
  induction st with
  | assign target value span =>
    have htarget := l.targetCalls_perm target value span
    have hvalue := l.exprCalls_perm value (l.assignUse target)
    refine List.perm_iff_count.mpr fun x ↦ ?_
    have hcount := (htarget.append hvalue).count_eq x
    simp only [stmtCalls, Stmt.parts, Stmt.exprs, List.map_append, List.flatMap_cons,
      List.flatMap_nil, List.append_nil, List.count_append] at hcount ⊢
    omega
  | expr e span => simpa [stmtCalls, Stmt.parts, Stmt.exprs, Stmt.lostCalls]
      using l.exprCalls_perm e .statement
  | ret value span =>
    cases value with
    | none => exact .refl _
    | some e => simpa [stmtCalls, Stmt.parts, Stmt.exprs, Stmt.lostCalls]
        using l.exprCalls_perm e .operand
  | cond test thenBranch elseBranch span iht ihe =>
    have htest := l.exprCalls_perm test .condition
    have hbranches := (l.bodyCalls_perm iht).append (l.bodyCalls_perm ihe)
    -- the second branch is lowered first
    refine List.perm_iff_count.mpr fun x ↦ ?_
    have hcount := (htest.append hbranches).count_eq x
    simp only [stmtCalls, Stmt.parts, Stmt.exprs, Stmt.lostCalls, List.map_append,
      List.flatMap_cons, List.flatMap_append, List.nil_append, List.count_append] at hcount ⊢
    omega
  | loop test body span ih =>
    have htest := l.exprCalls_perm test .condition
    simpa [stmtCalls, Stmt.parts, Stmt.exprs, Stmt.lostCalls]
      using htest.append (l.bodyCalls_perm ih)

/-- **The methods that lowered code invokes are those that the body calls.**  Calls in targets that
cannot be assigned to are not made. -/
theorem invoked_method (n : Names) :
    ((l.method n).1.instrs.filterMap Instr.invoked?
      ++ (Stmt.partsAll l.decl.body).flatMap Stmt.lostCalls).Perm
        ((Stmt.exprParts l.decl.body).filterMap Expr.called?) := by
  have hinvoked : (l.method n).1.instrs.filterMap Instr.invoked?
      = (l.bodyCalls l.decl.body).map CallSite.method := by
    calc (l.method n).1.instrs.filterMap Instr.invoked?
        = ((l.method n).1.instrs.filterMap Instr.linkage?).map Linkage.method :=
          List.map_filterMap.symm
      _ = (l.bodyCalls l.decl.body).map CallSite.method := by
          rw [l.linkages_method, List.map_map]
          rfl
  rw [hinvoked, Stmt.filterMap_called_exprParts]
  exact l.bodyCalls_perm fun st _ ↦ l.stmtCalls_perm st

end Lowerer

end Ollir

/-! ## Methods of a class -/

open Ollir in
/-- **No call is lost and none is made twice.**  The methods that the lowered code of a method
invokes are those that the method calls, at any depth and each as often, but for the calls in
targets of assignments that are neither variables nor elements.  Where there are no such targets,
nothing is lost.  The class need not pass the checks. -/
theorem lowered_calls_perm (a : Analysis) (cls : ClassDecl) {index : Nat} {d : MethodDecl}
    (hd : cls.methods[index]? = some d) :
    ∃ m, (a.lower cls).methods[index]? = some m
      ∧ (m.instrs.filterMap Instr.invoked? ++ (Stmt.partsAll d.body).flatMap Stmt.lostCalls).Perm
        ((Stmt.exprParts d.body).filterMap Expr.called?)
      ∧ ((∀ st ∈ Stmt.partsAll d.body, st.assignsPlace = true) →
        (m.instrs.filterMap Instr.invoked?).Perm
          ((Stmt.exprParts d.body).filterMap Expr.called?)) := by
  obtain ⟨n, hm⟩ := lowerMethods_getElem? a hd {}
  have hinvoked : (((a.lowerer d).method n).1.instrs.filterMap Instr.invoked?
      ++ (Stmt.partsAll d.body).flatMap Stmt.lostCalls).Perm _ := (a.lowerer d).invoked_method n
  refine ⟨_, hm, hinvoked, fun hplaces ↦ ?_⟩
  have hlost : (Stmt.partsAll d.body).flatMap Stmt.lostCalls = [] :=
    List.flatMap_eq_nil_iff.mpr fun st hst ↦ Stmt.lostCalls_eq_nil (hplaces st hst)
  rwa [hlost, List.append_nil] at hinvoked

open Ollir in
/-- The statement for a loop `while (this.more(this.next())) v[this.next()] = this.last();` in a
class without methods to call, which does not pass the checks: the calls in the test of the loop
occur once. -/
theorem lowered_calls_perm_loop :
    let call (name : String) (args : List Expr) : Expr := .call (.self {}) name args {}
    let body : List Stmt :=
      [.loop (call "more" [call "next" []])
        [.assign (.index (.ident "v" {}) (call "next" []) {}) (call "last" []) {}] {}]
    let cls : ClassDecl :=
      { name := "Main", superclass := none, fields := []
        methods := [{ name := "run", isPublic := true, isStatic := false
                      returns := { name := "void" }, params := []
                      locals := [{ name := "v", type := { name := "int", isArray := true } }]
                      body }] }
    let a := Analysis.ofClass [] cls
    a.hasErrors = true ∧ (∀ st ∈ Stmt.partsAll body, st.assignsPlace = true)
      ∧ ∃ m, (a.lower cls).methods[0]? = some m
        ∧ (m.instrs.filterMap Instr.invoked?).Perm ["more", "next", "next", "last"] := by
  intro call body cls a
  have hplaces : ∀ st ∈ Stmt.partsAll body, st.assignsPlace = true := by decide +kernel
  obtain ⟨m, hm, _, hinvoked⟩ :=
    lowered_calls_perm a cls (show cls.methods[0]? = some _ from rfl)
  exact ⟨by decide +kernel, hplaces, m, hm, hinvoked hplaces⟩

end Jmm
