import Jmm.Proofs.Typing.Agreement

/-!
# Redundant parentheses

`Expr.Wraps`, `Stmt.Wraps` and `ClassDecl.Wraps` say that two expressions, statements or classes are
the same but for one pair of parentheses, which stands in the second around some expression at any
depth.  The `Place` of that expression says what its surroundings can see of its form.

Types look through parentheses, but some rules ask for a form.  The elements of an array literal are
integer literals, an import is called by its bare name, a vararg is indexed by its bare name, and
the name that an assignment reports is that of a bare variable or of the bare array it stores into.
`Checker.Ignores` is what keeps these rules from noticing the parentheses, and
`violations_of_wraps` says that then the violations stay as they are, all of them and in order.

Where they are noticed, a violation may come or go (`parens_change_violations`): `(v)[0]` has no
type for a vararg `v` of integers, and `(a)[0] = 1` in a static method stores into a field unseen.
-/

set_option autoImplicit false

namespace Jmm

/-- Where an expression stands, as far as its form matters there. -/
inductive Place where
  | other
  /-- An element of an array literal. -/
  | element
  /-- The receiver of a call. -/
  | receiver
  /-- The array of which the element at a position is taken. -/
  | array (position : Expr)
  /-- The target to which a value is assigned. -/
  | target (value : Expr)
  /-- The array to which a value is assigned at a position. -/
  | targetArray (position value : Expr)
deriving Inhabited

/-- The place of the array in an element access that stands at a place. -/
def Place.ofArray (position : Expr) : Place → Place
  | target value => targetArray position value
  | _ => array position

/-- The second expression has one pair of parentheses more, around an expression of which the
property holds at its place. -/
inductive Expr.Wraps (P : Place → Expr → Prop) : Place → Expr → Expr → Prop where
  | here {place : Place} {e : Expr} (span : Span) (h : P place e) :
    Wraps P place e (.paren e span)
  | paren {place : Place} {e e' : Expr} {span : Span} (h : Wraps P .other e e') :
    Wraps P place (.paren e span) (.paren e' span)
  | element {place : Place} {e e' : Expr} {before after : List Expr} {span : Span}
    (h : Wraps P .element e e') :
    Wraps P place (.arrayLit (before ++ e :: after) span) (.arrayLit (before ++ e' :: after) span)
  | operand {place : Place} {e e' : Expr} {span : Span} (h : Wraps P .other e e') :
    Wraps P place (.not e span) (.not e' span)
  | array {place : Place} {e e' position : Expr} {span : Span}
    (h : Wraps P (place.ofArray position) e e') :
    Wraps P place (.index e position span) (.index e' position span)
  | position {place : Place} {array e e' : Expr} {span : Span} (h : Wraps P .other e e') :
    Wraps P place (.index array e span) (.index array e' span)
  | left {place : Place} {op : BinOp} {e e' right : Expr} {span : Span}
    (h : Wraps P .other e e') :
    Wraps P place (.binary op e right span) (.binary op e' right span)
  | right {place : Place} {op : BinOp} {left e e' : Expr} {span : Span}
    (h : Wraps P .other e e') :
    Wraps P place (.binary op left e span) (.binary op left e' span)
  | receiver {place : Place} {e e' : Expr} {method : String} {args : List Expr} {span : Span}
    (h : Wraps P .receiver e e') :
    Wraps P place (.call e method args span) (.call e' method args span)
  | argument {place : Place} {receiver e e' : Expr} {method : String} {before after : List Expr}
    {span : Span} (h : Wraps P .other e e') :
    Wraps P place (.call receiver method (before ++ e :: after) span)
      (.call receiver method (before ++ e' :: after) span)
  | size {place : Place} {element : String} {e e' : Expr} {span : Span}
    (h : Wraps P .other e e') :
    Wraps P place (.newArray element e span) (.newArray element e' span)
  | measured {place : Place} {e e' : Expr} {span : Span} (h : Wraps P .other e e') :
    Wraps P place (.length e span) (.length e' span)

/-- The second statement has one pair of parentheses more. -/
inductive Stmt.Wraps (P : Place → Expr → Prop) : Stmt → Stmt → Prop where
  | target {e e' value : Expr} {span : Span} (h : e.Wraps P (.target value) e') :
    Wraps P (.assign e value span) (.assign e' value span)
  | value {target e e' : Expr} {span : Span} (h : e.Wraps P .other e') :
    Wraps P (.assign target e span) (.assign target e' span)
  | expr {e e' : Expr} {span : Span} (h : e.Wraps P .other e') :
    Wraps P (.expr e span) (.expr e' span)
  | ret {e e' : Expr} {span : Span} (h : e.Wraps P .other e') :
    Wraps P (.ret (some e) span) (.ret (some e') span)
  | condTest {e e' : Expr} {thenBranch elseBranch : List Stmt} {span : Span}
    (h : e.Wraps P .other e') :
    Wraps P (.cond e thenBranch elseBranch span) (.cond e' thenBranch elseBranch span)
  | thenBranch {test : Expr} {st st' : Stmt} {before after elseBranch : List Stmt} {span : Span}
    (h : Wraps P st st') :
    Wraps P (.cond test (before ++ st :: after) elseBranch span)
      (.cond test (before ++ st' :: after) elseBranch span)
  | elseBranch {test : Expr} {st st' : Stmt} {before after thenBranch : List Stmt} {span : Span}
    (h : Wraps P st st') :
    Wraps P (.cond test thenBranch (before ++ st :: after) span)
      (.cond test thenBranch (before ++ st' :: after) span)
  | loopTest {e e' : Expr} {body : List Stmt} {span : Span} (h : e.Wraps P .other e') :
    Wraps P (.loop e body span) (.loop e' body span)
  | body {test : Expr} {st st' : Stmt} {before after : List Stmt} {span : Span}
    (h : Wraps P st st') :
    Wraps P (.loop test (before ++ st :: after) span) (.loop test (before ++ st' :: after) span)

/-- The second class has one pair of parentheses more, in the body of some method. -/
inductive ClassDecl.Wraps (P : MethodDecl → Place → Expr → Prop) (cls : ClassDecl) :
    ClassDecl → Prop where
  | body {ms ms' : List MethodDecl} {d : MethodDecl} {st st' : Stmt} {before after : List Stmt}
    (hmethods : cls.methods = ms ++ d :: ms') (hbody : d.body = before ++ st :: after)
    (h : st.Wraps (P d) st') :
    Wraps P cls { cls with methods := ms ++ { d with body := before ++ st' :: after } :: ms' }

/-! ## Rules that look at forms -/

/-- A bare vararg that has no element type of its own is not indexed by an integer. -/
def Site.KeepsElement (s : Site) (array position : Expr) : Prop :=
  s.isVarargIdent array = true → s.typeOf position = .int → (s.typeOf array).element? ≠ none

namespace Checker

/-- The name of the target of an assignment is empty, or it does not come up: no field is written in
a static method, neither one of this name nor one that has no name, and the value fits. -/
def KeepsTarget (c : Checker) (target value : Expr) : Prop :=
  targetName target = ""
  ∨ (c.decl.isStatic = true → c.scopes.isField (targetName target) c.decl.name = false
      ∧ c.scopes.isField "" c.decl.name = false)
    ∧ c.table.canAssign (c.site.typeOf value) (c.site.typeOf target) = true

/-- No rule that looks at the form of an expression at a place notices parentheses around it. -/
def Ignores (c : Checker) : Place → Expr → Prop
  | .other, _ => True
  | .element, e => e.isIntLiteral = false
  | .receiver, e => c.site.namesImport e = false
  | .array position, e => c.site.KeepsElement e position
  | .target value, e => c.KeepsTarget e value
  | .targetArray position value, e =>
    c.site.KeepsElement e position ∧ c.KeepsTarget (.index e position {}) value

end Checker

/-- An expression is put in parentheses as a whole, or its form stays what it was: neither a name
nor an integer literal. -/
theorem Expr.Wraps.form {P : Place → Expr → Prop} {place : Place} {e e' : Expr}
    (h : e.Wraps P place e') :
    (∃ span, e' = .paren e span ∧ P place e)
    ∨ e.identifier? = none ∧ e'.identifier? = none
      ∧ e.isIntLiteral = false ∧ e'.isIntLiteral = false := by
  cases h with
  | here span h => exact .inl ⟨span, rfl, h⟩
  | _ => exact .inr ⟨rfl, rfl, rfl, rfl⟩

namespace Checker

variable {c : Checker} {place : Place} {e e' : Expr} {st st' : Stmt}

theorem isIntLiteral_of_wraps (h : e.Wraps c.Ignores .element e') :
    e'.isIntLiteral = e.isIntLiteral := by
  rcases h.form with ⟨span, rfl, hignores⟩ | ⟨_, _, hform, hform'⟩
  · exact Eq.symm hignores
  · rw [hform, hform']

theorem namesImport_of_wraps (h : e.Wraps c.Ignores .receiver e') :
    c.site.namesImport e' = c.site.namesImport e := by
  rcases h.form with ⟨span, rfl, hignores⟩ | ⟨hform, hform', _⟩
  · exact Eq.symm hignores
  · rw [Site.namesImport, Site.namesImport, hform, hform']

theorem keepsElement_of_ignores {position : Expr} (h : c.Ignores (place.ofArray position) e) :
    c.site.KeepsElement e position := by
  cases place with
  | target value => exact h.1
  | _ => exact h

theorem typeOf_index_of_wraps {position : Expr} {span : Span}
    (h : e.Wraps c.Ignores (place.ofArray position) e')
    (htype : c.site.typeOf e' = c.site.typeOf e) :
    c.site.typeOf (.index e' position span) = c.site.typeOf (.index e position span) := by
  rcases h.form with ⟨span, rfl, hignores⟩ | ⟨hform, hform', _⟩
  · have hkeeps := keepsElement_of_ignores hignores
    simp only [Site.typeOf]
    split
    · rename_i hposition
      cases helement : (c.site.typeOf e).element? with
      | some element => rfl
      | none =>
        have hvararg : c.site.isVarargIdent e = false := by
          by_contra hvararg
          exact hkeeps (by simpa using hvararg) hposition helement
        rw [hvararg]
        rfl
    · rfl
  · simp only [Site.typeOf, htype, Site.isVarargIdent, hform, hform']

/-- **Parentheses that no rule notices keep the type.** -/
theorem typeOf_of_wraps (h : e.Wraps c.Ignores place e') : c.site.typeOf e' = c.site.typeOf e := by
  induction h with
  | here span h => rfl
  | paren h ih => exact ih
  | element h ih => simp only [Site.typeOf, List.all_append, List.all_cons, isIntLiteral_of_wraps h]
  | operand h ih => rw [Site.typeOf, Site.typeOf, ih]
  | array h ih => exact typeOf_index_of_wraps h ih
  | position h ih => rw [Site.typeOf, Site.typeOf, ih]
  | left h ih => rw [Site.typeOf, Site.typeOf, ih]
  | right h ih => rw [Site.typeOf, Site.typeOf, ih]
  | receiver h ih => rw [Site.typeOf, Site.typeOf, ih, namesImport_of_wraps h]
  | argument h ih => rfl
  | size h ih => rfl
  | measured h ih => rfl

theorem exprs_append (c : Checker) (es es' : List Expr) :
    c.exprs (es ++ es') = c.exprs es ++ c.exprs es' := by
  induction es with
  | nil => rfl
  | cons e es ih => rw [List.cons_append, exprs, exprs, ih, List.append_assoc]

theorem stmts_append (c : Checker) (sts sts' : List Stmt) :
    c.stmts (sts ++ sts') = c.stmts sts ++ c.stmts sts' := by
  induction sts with
  | nil => rfl
  | cons st sts ih => rw [List.cons_append, stmts, stmts, ih, List.append_assoc]

theorem callee_congr {receiver receiver' : Expr} {args args' : List Expr} {method : String}
    {span : Span} (hreceiver : c.site.typeOf receiver' = c.site.typeOf receiver)
    (hargs : args'.map c.site.typeOf = args.map c.site.typeOf) :
    c.callee receiver' method args' span = c.callee receiver method args span := by
  rw [callee, callee, hreceiver, hargs]

/-- The violations in an expression do not depend on the parentheses. -/
theorem expr_of_wraps (h : e.Wraps c.Ignores place e') : c.expr e' = c.expr e := by
  induction h with
  | here span h => rfl
  | paren h ih => exact ih
  | element h ih => simp only [expr, exprs_append, exprs, ih]
  | operand h ih => exact ih
  | array h ih => rw [expr, expr, ih]
  | position h ih => rw [expr, expr, ih]
  | left h ih => rw [expr, expr, ih]
  | right h ih => rw [expr, expr, ih]
  | receiver h ih => rw [expr, expr, ih, callee_congr (typeOf_of_wraps h) rfl]
  | @argument _ receiver e e' method before after span h ih =>
    have hargs : (before ++ e' :: after).map c.site.typeOf
        = (before ++ e :: after).map c.site.typeOf := by
      simp [typeOf_of_wraps h]
    rw [expr, expr, exprs_append, exprs_append, exprs, exprs, ih, callee_congr rfl hargs]
  | size h ih => exact ih
  | measured h ih => exact ih

/-! ## Statements -/

theorem targetName_of_wraps {value : Expr} (h : e.Wraps c.Ignores (.target value) e') :
    targetName e' = targetName e ∨ targetName e' = "" ∧ c.KeepsTarget e value := by
  cases h with
  | here span h => exact .inr ⟨rfl, h⟩
  | array h =>
    rcases h.form with ⟨span, rfl, hignores⟩ | ⟨hform, hform', _⟩
    · exact .inr ⟨rfl, hignores.2⟩
    · left
      rw [targetName, targetName, hform, hform']
  | _ => exact .inl rfl

/-- The rules for assignments do not notice the parentheses in a target. -/
theorem assignment_of_wraps {value : Expr} {span : Span}
    (h : e.Wraps c.Ignores (.target value) e') :
    c.staticAssignment e' span ++ c.assignedType e' value span
      = c.staticAssignment e span ++ c.assignedType e value span := by
  have htype := typeOf_of_wraps h
  rcases targetName_of_wraps h with hname | ⟨hname, hempty | ⟨hfield, hfits⟩⟩
  · rw [staticAssignment, staticAssignment, assignedType, assignedType, hname, htype]
  · rw [staticAssignment, staticAssignment, assignedType, assignedType, hname, hempty, htype]
  · rw [staticAssignment, staticAssignment, assignedType, assignedType, hname, htype, hfits]
    cases hstatic : c.decl.isStatic with
    | false => rfl
    | true =>
      obtain ⟨hnamed, hnameless⟩ := hfield hstatic
      rw [hnamed, hnameless]
      rfl

/-- The violations in a statement do not depend on the parentheses. -/
theorem stmt_of_wraps (h : st.Wraps c.Ignores st') : c.stmt st' = c.stmt st := by
  induction h with
  | target h => rw [stmt, stmt, assignment_of_wraps h, expr_of_wraps h]
  | value h =>
    rw [stmt, stmt, expr_of_wraps h, assignedType, assignedType, typeOf_of_wraps h]
  | expr h => exact expr_of_wraps h
  | ret h =>
    rw [stmt, stmt, expr_of_wraps h, returned, returned, returnedType, returnedType,
      typeOf_of_wraps h]
  | condTest h => rw [stmt, stmt, expr_of_wraps h, condition, condition, typeOf_of_wraps h]
  | thenBranch h ih => simp only [stmt, stmts_append, stmts, ih]
  | elseBranch h ih => simp only [stmt, stmts_append, stmts, ih]
  | loopTest h => rw [stmt, stmt, expr_of_wraps h, condition, condition, typeOf_of_wraps h]
  | body h ih => simp only [stmt, stmts_append, stmts, ih]

end Checker

/-! ## Classes -/

section Classes

variable {imports : List ImportDecl} {cls : ClassDecl} {ms ms' : List MethodDecl} {d : MethodDecl}
  {body : List Stmt}

/-- The symbol table says nothing about bodies. -/
theorem SymbolTable.ofClass_body (hmethods : cls.methods = ms ++ d :: ms') :
    SymbolTable.ofClass imports { cls with methods := ms ++ { d with body := body } :: ms' }
      = SymbolTable.ofClass imports cls := by
  simp [SymbolTable.ofClass, hmethods, Signature.ofDecl]

/-- Bodies declare nothing. -/
theorem Scopes.ofClass_body (t : SymbolTable) (hmethods : cls.methods = ms ++ d :: ms') :
    Scopes.ofClass t { cls with methods := ms ++ { d with body := body } :: ms' }
      = Scopes.ofClass t cls := by
  have hmethod : Scopes.ofMethod t { d with body := body } = Scopes.ofMethod t d := rfl
  simp [Scopes.ofClass, hmethods, hmethod]

end Classes

/-- **Redundant parentheses keep the violations**, all of them and in order: those around any
expression in the body of any method, unless one of the rules that look at forms notices them. -/
theorem violations_of_wraps {imports : List ImportDecl} {cls cls' : ClassDecl}
    (h : cls.Wraps (fun d ↦ Checker.Ignores
      ⟨(Analysis.ofClass imports cls).table, (Analysis.ofClass imports cls).scopes, d⟩) cls') :
    (Analysis.ofClass imports cls').violations = (Analysis.ofClass imports cls).violations := by
  obtain @⟨ms, ms', d, st, st', before, after, hmethods, hbody, hst⟩ := h
  let c : Checker :=
    ⟨(Analysis.ofClass imports cls).table, (Analysis.ofClass imports cls).scopes, d⟩
  let c' : Checker := { c with decl := { d with body := before ++ st' :: after } }
  have hagrees : c'.Agrees c := ⟨⟨rfl, rfl, fun _ ↦ rfl, fun _ ↦ rfl⟩, rfl, rfl⟩
  have hchecked : c'.body = c.body := by
    show c'.stmts (before ++ st' :: after) = c.stmts d.body
    rw [hagrees.stmts_eq, hbody, Checker.stmts_append, Checker.stmts_append, Checker.stmts,
      Checker.stmts, Checker.stmt_of_wraps hst]
  simp only [Analysis.ofClass]
  rw [SymbolTable.ofClass_body hmethods, Scopes.ofClass_body _ hmethods, hmethods]
  simp only [List.flatMap_append, List.flatMap_cons]
  exact congrArg (fun vs ↦ _ ++ (_ ++ (vs ++ _))) hchecked

/-- The statement for a loop in a static method that ends by returning `this`: its assignment
`a[x] = x + 1` becomes `(a)[x] = x + 1`. -/
theorem violations_of_wraps_target :
    let a : Expr := .ident "a" {}
    let x : Expr := .ident "x" {}
    let st (array : Expr) : Stmt :=
      .assign (.index array x {}) (.binary .add x (.int 1 {}) {}) {}
    let cls (array : Expr) : ClassDecl :=
      { name := "A", superclass := none, fields := [{ name := "b", type := { name := "int" } }],
        methods := [{ name := "f", isPublic := true, isStatic := true, returns := { name := "A" },
                      params := [{ name := "a", type := { name := "int", isArray := true } },
                        { name := "x", type := { name := "int" } }],
                      locals := [],
                      body := [.loop (.binary .less x (.int 3 {}) {}) [st array] {},
                        .ret (some (.self {})) {}] }] }
    (Analysis.ofClass [] (cls (.paren a {}))).violations = [.receiverInStatic "f" {}]
      ∧ (Analysis.ofClass [] (cls a)).violations = [.receiverInStatic "f" {}] := by
  intro a x st cls
  let d : MethodDecl :=
    { name := "f", isPublic := true, isStatic := true, returns := { name := "A" },
      params := [{ name := "a", type := { name := "int", isArray := true } },
        { name := "x", type := { name := "int" } }],
      locals := [],
      body := [.loop (.binary .less x (.int 3 {}) {}) [st a] {}, .ret (some (.self {})) {}] }
  let c : Checker :=
    ⟨(Analysis.ofClass [] (cls a)).table, (Analysis.ofClass [] (cls a)).scopes, d⟩
  have hvararg : c.site.isVarargIdent a = false := by decide +kernel
  have hfield : c.scopes.isField "a" "f" = false ∧ c.scopes.isField "" "f" = false := by
    decide +kernel
  have hfits : c.table.canAssign (c.site.typeOf (.binary .add x (.int 1 {}) {}))
      (c.site.typeOf (.index a x {})) = true := by decide +kernel
  have hignores : c.Ignores (.targetArray x (.binary .add x (.int 1 {}) {})) a := by
    refine ⟨fun h ↦ ?_, .inr ⟨fun _ ↦ hfield, hfits⟩⟩
    rw [hvararg] at h
    cases h
  have hloop := @Stmt.Wraps.body c.Ignores (.binary .less x (.int 3 {}) {}) (st a)
    (st (.paren a {})) [] [] {} (.target (.array (.here {} hignores)))
  have hsame : (Analysis.ofClass [] (cls (.paren a {}))).violations
      = (Analysis.ofClass [] (cls a)).violations :=
    violations_of_wraps (@ClassDecl.Wraps.body _ (cls a) [] [] d _ _ []
      [.ret (some (.self {})) {}] rfl rfl hloop)
  have hfound : (Analysis.ofClass [] (cls a)).violations = [.receiverInStatic "f" {}] := by
    decide +kernel
  exact ⟨hsame.trans hfound, hfound⟩

/-- **Parentheses can bring a violation, and hide one.**  An element of a vararg of integers loses
its type in `(v)[0]`, and `(a)[0] = 1` in a static method stores into the field `a` unseen. -/
theorem parens_change_violations :
    let int : TypeName := { name := "int" }
    let v : Expr := .ident "v" {}
    let a : Expr := .ident "a" {}
    let first (array : Expr) : ClassDecl :=
      { name := "A", superclass := none, fields := [],
        methods := [{ name := "first", isPublic := true, isStatic := false, returns := int,
                      params := [{ name := "v", type := { int with isVararg := true } }],
                      locals := [], body := [.ret (some (.index array (.int 0 {}) {})) {}] }] }
    let store (array : Expr) : ClassDecl :=
      { name := "A", superclass := none,
        fields := [{ name := "a", type := { int with isArray := true } }],
        methods := [{ name := "f", isPublic := true, isStatic := true,
                      returns := { name := "void" }, params := [], locals := [],
                      body := [.assign (.index array (.int 0 {}) {}) (.int 1 {}) {}] }] }
    (Analysis.ofClass [] (first v)).violations = []
      ∧ (Analysis.ofClass [] (first (.paren v {}))).violations = [.untypedReturn "first" {}]
      ∧ (Analysis.ofClass [] (store a)).violations = [.staticFieldAssignment "f" "a" {}]
      ∧ (Analysis.ofClass [] (store (.paren a {}))).violations = [] := by
  decide +kernel

end Jmm
