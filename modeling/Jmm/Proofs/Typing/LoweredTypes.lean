import Jmm.Proofs.Typing.Checked

/-!
# Types of lowered values

Every lowered value has a type of its own, which depends on the expression and the use that is made
of it, but not on the generated names (`Lowerer.resultType_expr`).  It is the one that inference
gives, where parentheses are looked through to find the name of a vararg, except that a call of type
`void` takes its type from the use (`Lowerer.valueType_cases`).
-/

set_option autoImplicit false

namespace Jmm

/-! ## Inferred types -/

theorem Ty.isArray_eq_isSome (t : Ty) : t.isArray = t.element?.isSome := by
  cases t <;> rfl

/-- A type that is written is known. -/
theorem Ty.ofTypeName_ne (t : TypeName) : ofTypeName t ≠ error ∧ ofTypeName t ≠ imported := by
  have hname : ∀ name, ofName name ≠ error ∧ ofName name ≠ imported := by
    intro name
    unfold ofName
    split <;> exact ⟨fun h ↦ Ty.noConfusion h, fun h ↦ Ty.noConfusion h⟩
  rw [ofTypeName]
  split
  · exact ⟨fun h ↦ Ty.noConfusion h, fun h ↦ Ty.noConfusion h⟩
  · exact hname t.name

namespace Site

variable {s : Site}

theorem typeOf_unparen (e : Expr) : s.typeOf e.unparen = s.typeOf e := by
  induction e with
  | paren inner span ih => exact ih
  | _ => rfl

/-- A call on an import has no type. -/
theorem typeOf_call_of_namesImport (s : Site) {receiver : Expr}
    (h : s.namesImport receiver = true) (method : String) (args : List Expr) (span : Span) :
    s.typeOf (.call receiver method args span) = .void := by
  cases receiver with
  | ident name nameSpan =>
    have htype : s.typeOf (.ident name nameSpan) = .imported := if_pos h
    rw [typeOf, htype, h]
    rfl
  | _ => cases h

/-- The type of an element: the array has elements, or it is the name of a vararg. -/
theorem typeOf_index_cases {array position : Expr} {span : Span}
    (h : s.typeOf (.index array position span) ≠ .error) :
    (s.typeOf array).element? = some (s.typeOf (.index array position span))
      ∨ (s.typeOf array).element? = none ∧ s.isVarargIdent array = true
        ∧ s.typeOf (.index array position span) = s.typeOf array := by
  rw [typeOf] at h ⊢
  by_cases hposition : s.typeOf position = .int
  · rw [if_pos hposition] at h ⊢
    cases helement : (s.typeOf array).element? with
    | some element => exact .inl rfl
    | none =>
      rw [helement] at h
      cases hvararg : s.isVarargIdent array with
      | true => exact .inr ⟨rfl, rfl, if_pos rfl⟩
      | false =>
        rw [hvararg] at h
        exact absurd rfl h
  · rw [if_neg hposition] at h
    exact absurd rfl h

/-- Parentheses do not hide the name of a vararg if they stand around none. -/
theorem isVarargIdent_unparen {e : Expr}
    (h : ∀ inner span, (Expr.paren inner span).OccursIn e → s.isVarargIdent inner = false) :
    s.isVarargIdent e.unparen = s.isVarargIdent e := by
  induction e with
  | paren inner span ih =>
    have hinner := ih fun inner' span' ho ↦ h inner' span' (.child List.mem_cons_self ho)
    exact hinner.trans (h inner span .refl)
  | _ => rfl

end Site

namespace Ollir

/-! ## Types of values -/

namespace Ty

theorem ofTy_of_element? {t u : Jmm.Ty} (h : t.element? = some u) : ofTy t = array (ofTy u) := by
  cases t with
  | array element =>
    obtain rfl := Option.some.inj h
    rfl
  | newArray | arrayInit =>
    obtain rfl := Option.some.inj h
    rfl
  | _ => cases h

theorem isArray_ofTy (t : Jmm.Ty) : (ofTy t).isArray = t.isArray := by
  cases t <;> rfl

/-- An array holds its own elements, vararg or not. -/
theorem ofBinding_of_isArray {t : Jmm.Ty} (h : t.isArray = true) (isVararg : Bool) :
    ofBinding t isVararg = ofTy t := by
  rw [ofBinding, isArray_ofTy, h, Bool.not_true, Bool.and_false, if_neg Bool.false_ne_true]

/-- The type of a name that is not a vararg is its own. -/
theorem ofBinding_false (t : Jmm.Ty) : ofBinding t false = ofTy t := rfl

theorem ofBinding_true {t : Jmm.Ty} (h : t.isArray = false) :
    ofBinding t true = array (ofTy t) := by
  rw [ofBinding, isArray_ofTy, h]
  rfl

theorem ofBinding_ne_void {t : Jmm.Ty} (herror : t ≠ .error) (hvoid : t ≠ .void)
    (himported : t ≠ .imported) (isVararg : Bool) : ofBinding t isVararg ≠ void := by
  rw [ofBinding]
  split
  · exact fun h ↦ Ty.noConfusion h
  · cases t with
    | error => exact absurd rfl herror
    | void => exact absurd rfl hvoid
    | imported => exact absurd rfl himported
    | _ => exact fun h ↦ Ty.noConfusion h

end Ty

theorem Use.callType_inParens (use : Use) : use.inParens.callType = use.callType := by
  cases use <;> rfl

/-! ## Temporaries -/

/-- A temporary has the type of the value that is stored in it. -/
theorem type_asOperand (e : Draw Lowered) (n : Names) :
    (asOperand e n).1.2.type = (e n).1.value.resultType := by
  rw [asOperand_apply]
  rcases materialize_cases (e n).1.value (e n).2 with ⟨o, ho, heq⟩ | ⟨_, heq⟩
  · rw [heq, ho]
    rfl
  · rw [heq]
    rfl

theorem type_asVar (e : Draw Lowered) (n : Names) :
    (asVar e n).1.2.2 = (e n).1.value.resultType := by
  rw [← type_asOperand]
  rcases asVar_cases e n with ⟨name, t, ho, heq⟩ | ⟨_, heq⟩
  · rw [heq, ho]
    rfl
  · rw [heq]

namespace Lowerer

variable (l : Lowerer)

/-- The type of a name in the method. -/
def nameType (name : String) : Ty :=
  Ty.ofBinding (l.site.identType name) (l.scopes.isVararg name l.decl.name)

theorem typeOf_ident (name : String) (span : Span) :
    l.typeOf (.ident name span) = l.nameType name := rfl

/-- The type of an expression as an operand.  Unlike `typeOf` it gives an import its own class, and
a call without a type the type `int32`. -/
def operandType : Expr → Ty
  | .int _ _ => .int32
  | .bool _ _ => .boolean
  | .ident name _ =>
    if l.table.isImport name then .named name else l.nameType name
  | .self _ => .named l.table.className
  | .paren inner _ => operandType inner
  | .arrayLit _ _ => Ty.intArray
  | .not _ _ => .boolean
  | .index array _ _ => (operandType array).elementOrInt
  | .binary op left right span => l.typeOf (.binary op left right span)
  | .call receiver method args span => l.callType (.call receiver method args span) .operand
  | .newArray _ _ _ => Ty.intArray
  | .newObject className _ => .named className
  | .length _ _ => .int32

/-- The type of the value of an expression that is lowered for a use. -/
def valueType : Expr → Use → Ty
  | .paren inner _, use => valueType inner use
  | .call receiver method args span, use => l.callType (.call receiver method args span) use
  | e, _ => l.operandType e

theorem valueType_inParens (e : Expr) (use : Use) :
    l.valueType e use.inParens = l.valueType e use := by
  induction e with
  | paren inner span ih => exact ih
  | call receiver method args span =>
    rw [valueType, valueType, callType, callType, use.callType_inParens]
  | _ => rfl

theorem valueType_operand (e : Expr) : l.valueType e .operand = l.operandType e := by
  induction e with
  | paren inner span ih => exact ih
  | _ => rfl

/-- **The type of a lowered value** is the one its expression has for the use. -/
theorem resultType_expr (e : Expr) : ∀ use n,
    (l.expr e use n).1.value.resultType = l.valueType e use := by
  induction e with
  | ident name span =>
    intro use n
    show (l.ident name n).1.value.resultType = l.operandType (.ident name span)
    rw [Lowerer.ident, operandType]
    split
    · rfl
    · dsimp only
      split <;> rfl
  | paren inner span ih =>
    exact fun use n ↦ (ih use.inParens n).trans (l.valueType_inParens inner use)
  | arrayLit elements span =>
    intro use n
    rw [Lowerer.expr, packed, Draw.bind_apply]
    split <;> rfl
  | index array position span iha =>
    intro use n
    have htype : (asVar (l.expr array .operand) n).1.2.2 = l.operandType array := by
      rw [type_asVar, iha, valueType_operand]
    rcases h₁ : asVar (l.expr array .operand) n with ⟨⟨code₁, name, t⟩, n₁⟩
    rcases h₂ : asOperand (l.expr position .operand) n₁ with ⟨⟨code₂, index⟩, n₂⟩
    rw [h₁] at htype
    obtain rfl : t = l.operandType array := htype
    rcases l.expr_index h₁ h₂ span use with ⟨_, heq⟩ | ⟨_, heq⟩ <;> rw [heq] <;> rfl
  | binary op left right span =>
    intro use n
    rw [l.expr_binary]
    have hoperation : ∀ op' a b inline n', (operation op' a b
        (l.typeOf (.binary op left right span)) inline n').1.value.resultType
          = l.typeOf (.binary op left right span) := by
      intro op' a b inline n'
      cases inline <;> rfl
    cases op with
    | and | or => rfl
    | _ => exact hoperation _ _ _ _ _
  | call receiver method args span =>
    intro use n
    rw [l.expr_call, finishCall]
    split
    · rename_i huse
      cases himport : l.site.namesImport receiver with
      | false => rfl
      | true =>
        have hvoid := l.site.typeOf_call_of_namesImport himport method args span
        rw [valueType, callType, Lowerer.typeOf, hvoid, huse]
        rfl
    · rfl
  | _ => exact fun _ _ ↦ rfl

theorem type_operand (e : Expr) (use : Use) (n : Names) :
    (asOperand (l.expr e use) n).1.2.type = l.valueType e use := by
  rw [type_asOperand, l.resultType_expr]

theorem type_var (e : Expr) (n : Names) :
    (asVar (l.expr e .operand) n).1.2.2 = l.operandType e := by
  rw [type_asVar, l.resultType_expr, l.valueType_operand]

/-- Inference and lowering agree on the type of a value.  A call of type `void` takes its type from
the use. -/
theorem valueType_cases {e : Expr} (herror : l.site.typeOf e ≠ .error)
    (himported : l.site.typeOf e ≠ .imported) (use : Use) :
    l.valueType e use = l.typeOf e.unparen
      ∨ l.typeOf e.unparen = .void ∧ l.valueType e use = use.callType := by
  induction e generalizing use with
  | int | bool | self | newArray | newObject | length | binary => exact .inl rfl
  | ident name span =>
    have hname : l.table.isImport name ≠ true := by
      intro himport
      rw [Site.typeOf, Site.identType] at himported
      exact himported (if_pos himport)
    refine .inl ?_
    show l.operandType (.ident name span) = _
    rw [operandType, if_neg hname]
    rfl
  | paren inner span ih => exact ih herror himported use
  | arrayLit elements span =>
    refine .inl ?_
    have htype : l.site.typeOf (.arrayLit elements span) = .arrayInit := by
      rw [Site.typeOf] at herror ⊢
      split
      · rfl
      · rename_i hliterals
        exact absurd (if_neg hliterals) herror
    show _ = l.typeOf (.arrayLit elements span)
    rw [Lowerer.typeOf, htype]
    rfl
  | not operand span =>
    refine .inl ?_
    have htype : l.site.typeOf (.not operand span) = .boolean := by
      rw [Site.typeOf] at herror ⊢
      split
      · rfl
      · rename_i hoperand
        exact absurd (if_neg hoperand) herror
    show _ = l.typeOf (.not operand span)
    rw [Lowerer.typeOf, htype]
    rfl
  | index array position span iha =>
    refine .inl ?_
    show (l.operandType array).elementOrInt
      = Ty.ofBinding (l.site.typeOf (.index array position span)) false
    rcases Site.typeOf_index_cases herror with helement | ⟨helement, hvararg, htype⟩
    · have hne : ∀ t : Jmm.Ty, t.element? = none → l.site.typeOf array ≠ t := by
        rintro t ht rfl
        rw [ht] at helement
        cases helement
      have harray : (l.site.typeOf array).isArray = true := by
        rw [Jmm.Ty.isArray_eq_isSome, helement]
        rfl
      rcases iha (hne .error rfl) (hne .imported rfl) .operand with heq | ⟨hvoid, _⟩
      · rw [valueType_operand] at heq
        rw [heq, Lowerer.typeOf, Site.typeOf_unparen, Ty.ofBinding_of_isArray harray,
          Ty.ofTy_of_element? helement]
        rfl
      · rw [Lowerer.typeOf, Site.typeOf_unparen, Ty.ofBinding_of_isArray harray,
          Ty.ofTy_of_element? helement] at hvoid
        cases hvoid
    · rw [htype] at himported ⊢
      cases array with
      | ident name s =>
        have hname : l.table.isImport name ≠ true := fun himport ↦ himported (if_pos himport)
        have harray : (l.site.identType name).isArray = false := by
          rw [Jmm.Ty.isArray_eq_isSome]
          exact congrArg Option.isSome helement
        rw [operandType, if_neg hname, nameType,
          show l.scopes.isVararg name l.decl.name = true from hvararg, Ty.ofBinding_true harray]
        rfl
      | _ => cases hvararg
  | call receiver method args span =>
    by_cases hvoid : l.typeOf (.call receiver method args span) = .void
    · exact .inr ⟨hvoid, if_pos hvoid⟩
    · exact .inl (if_neg hvoid)

/-- Inference and lowering agree on the type of a value, unless a call without a type takes another
one from the use. -/
theorem valueType_eq_typeOf {e : Expr} (herror : l.site.typeOf e ≠ .error)
    (himported : l.site.typeOf e ≠ .imported) {use : Use}
    (hvoid : l.typeOf e.unparen = .void → use.callType = .void) :
    l.valueType e use = l.typeOf e.unparen := by
  rcases l.valueType_cases herror himported use with heq | ⟨htype, heq⟩
  · exact heq
  · rw [heq, hvoid htype, htype]

/-- **Inference and lowering agree.**  Let an expression have a type that is neither `void` nor that
of an import.  For every use, its lowered value has the type that it was inferred to have, as an
array if it is the name of a vararg, with or without parentheses.  If no name of a vararg stands in
parentheses, this is the type of the expression itself. -/
theorem lowered_type_eq_inferred {e : Expr} (herror : l.site.typeOf e ≠ .error)
    (hvoid : l.site.typeOf e ≠ .void) (himported : l.site.typeOf e ≠ .imported) (use : Use)
    (n : Names) :
    (l.expr e use n).1.value.resultType
        = Ty.ofBinding (l.site.typeOf e) (l.site.isVarargIdent e.unparen)
      ∧ ((∀ inner span, (Expr.paren inner span).OccursIn e →
          l.site.isVarargIdent inner = false) →
        (l.expr e use n).1.value.resultType
          = Ty.ofBinding (l.site.typeOf e) (l.site.isVarargIdent e)) := by
  have hunparen : l.typeOf e.unparen
      = Ty.ofBinding (l.site.typeOf e) (l.site.isVarargIdent e.unparen) := by
    rw [Lowerer.typeOf, Site.typeOf_unparen]
  have htype : (l.expr e use n).1.value.resultType = l.typeOf e.unparen := by
    rw [l.resultType_expr]
    refine l.valueType_eq_typeOf herror himported fun h ↦ ?_
    exact absurd (hunparen.symm.trans h) (Ty.ofBinding_ne_void herror hvoid himported _)
  refine ⟨htype.trans hunparen, fun hparens ↦ ?_⟩
  rw [htype, hunparen, Site.isVarargIdent_unparen hparens]

/-- The statement in a method `int[] all(int... v)`, for `(this.all(v))` and for `(v)`. -/
theorem lowered_type_eq_inferred_vararg :
    let int : TypeName := { name := "int" }
    let d : MethodDecl :=
      { name := "all", isPublic := true, isStatic := false, returns := { int with isArray := true },
        params := [{ name := "v", type := { int with isVararg := true } }], locals := [],
        body := [] }
    let cls : ClassDecl := { name := "Main", superclass := none, fields := [], methods := [d] }
    let l := (Analysis.ofClass [] cls).lowerer d
    let v : Expr := .ident "v" {}
    let e : Expr := .paren (.call (.self {}) "all" [v] {}) {}
    ∀ use n, (l.expr e use n).1.value.resultType = .array .int32 ∧ l.typeOf e = .array .int32
      ∧ (l.expr (.paren v {}) use n).1.value.resultType = .array .int32
      ∧ l.typeOf (.paren v {}) = .int32 := by
  intro int d cls l v e use n
  have he : l.site.typeOf e = .array .int := by decide +kernel
  have hv : l.site.typeOf (.paren v {}) = .int := by decide +kernel
  have hparens : ∀ inner span, (Expr.paren inner span).OccursIn
      (.paren (.call (.self {}) "all" [.ident "v" {}] {}) {}) →
        l.site.isVarargIdent inner = false := by
    intro inner span h
    cases h with
    | refl => rfl
    | child hcall h =>
      obtain rfl := List.mem_singleton.mp hcall
      cases h with
      | child hleaf h =>
        -- neither `this` nor the name has parentheses inside
        simp only [Expr.children, List.mem_cons, List.not_mem_nil, or_false] at hleaf
        rcases hleaf with rfl | rfl <;> cases h with
          | child hnone _ => exact absurd hnone List.not_mem_nil
  obtain ⟨_, htype⟩ := l.lowered_type_eq_inferred (by rw [he]; decide) (by rw [he]; decide)
    (by rw [he]; decide) use n
  obtain ⟨htype', _⟩ := l.lowered_type_eq_inferred (by rw [hv]; decide) (by rw [hv]; decide)
    (by rw [hv]; decide) use n
  refine ⟨(htype hparens).trans ?_, ?_, htype'.trans ?_, ?_⟩ <;> decide +kernel

end Lowerer
end Ollir
end Jmm
