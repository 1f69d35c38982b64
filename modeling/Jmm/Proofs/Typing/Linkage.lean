import Jmm.Proofs.Emission.Events
import Jmm.Proofs.Emission.Operations
import Jmm.Proofs.Typing.Kinds
import Jmm.Proofs.Typing.Packing
import Jmm.Proofs.Typing.Resolution
import Jmm.Proofs.Typing.Rules

/-!
# Calls and the methods they are linked to

A call is linked to a method by the types of its arguments and of its result.  The method has these
types from its declaration, but for a call they are found anew from the expressions it is made of.

* `Lowerer.bodyCalls` lists the calls in the body of a method, each with the use made of its value,
  and `Lowerer.linkage` says what becomes of each of them.  The lowered method makes the calls on
  the list, in its order (`Lowerer.linkages_method`).
* `Lowerer.Fills` says when arguments have the types of the parameters.  For arguments that pass the
  check it is exact (`Lowerer.argTypes_eq_iff`), but the check does not ask for it: it ignores
  arguments beyond the parameters, compares arrays by nothing but being arrays and other types by
  their base names, and arguments for a vararg after other parameters are not packed.
* `own_calls_agree_iff` puts this together for the calls on the class itself, down to the
  descriptors in assembly; `extra_argument_changes_descriptor` is a call that passes the check and
  is linked to nothing.
-/

set_option autoImplicit false

namespace Jmm

namespace Ollir

/-! ## Calls of lowered code -/

/-- What an instruction says about a method that it calls. -/
def Instr.linkage? (i : Instr) : Option Linkage := i.call?.bind Call.linkage?

/-- The call of an event, with whether it is made on a class. -/
def Event.call? : Event → Option (Linkage × Bool)
  | call link onClass => some (link, onClass)
  | _ => none

/-- The calls of an instruction are among its events. -/
theorem Instr.filterMap_call_events (i : Instr) :
    (i.events.filterMap Event.call?).map Prod.fst = i.linkage?.toList := by
  have hoperand : ∀ o : Operand, o.events.filterMap Event.call? = [] :=
    Operand.filterMap_events fun _ ↦ rfl
  have hchanges : ∀ ts, (changes ts).filterMap Event.call? = [] := filterMap_changes fun _ ↦ rfl
  induction i with
  | assign target type value ih =>
    have hvalue : (Instr.assign target type value).events.filterMap Event.call?
        = value.events.filterMap Event.call? := by
      cases target with
      | element name index t =>
        rw [events, List.filterMap_append, List.filterMap_append, hoperand,
          List.filterMap_cons_none rfl, hchanges]
        exact List.append_nil _
      | _ =>
        rw [events, List.filterMap_append, hchanges, List.append_nil]
        exact fun _ _ _ h ↦ Operand.noConfusion h
    rw [hvalue]
    exact ih
  | branch test label ih => exact ih
  | call c =>
    have hcall : c.events.filterMap Event.call? = _ := c.filterMap_events fun _ ↦ rfl
    have hlinkage : (call c).linkage? = c.linkage? := rfl
    rw [events, hcall, hlinkage]
    cases c.linkage? <;> rfl
  | ret type value =>
    cases value with
    | none => rfl
    | some o =>
      rw [events, List.filterMap_append, hoperand, hchanges]
      rfl
  | single o | not o =>
    rw [events, hoperand]
    rfl
  | goto label => rfl
  | _ =>
    simp only [events, List.filterMap_append, hoperand, hchanges]
    rfl

/-! ## Calls of programs -/

namespace Lowerer

variable (l : Lowerer)

/-- The uses made of arguments, by position.  Where they are packed, they all become elements of one
array. -/
def argUses (formals : List (Ty × Bool)) (args : List Expr) : Nat → Use :=
  match l.packedType? formals args with
  | some element => fun _ ↦ .expected element
  | none => argUse formals

/-- What a call becomes, with whether it is made on a class: the receiver is the name of an import,
with or without parentheses. -/
def callOf (s : CallSite) : Linkage × Bool :=
  (l.linkage s, l.site.namesImport s.receiver.unparen)

mutual

/-- The calls in an expression that is lowered for a use, in the order in which they are made. -/
def exprCalls : Expr → Use → List CallSite
  | .int _ _, _ | .bool _ _, _ | .ident _ _, _ | .self _, _ | .newObject _ _, _ => []
  | .paren inner _, use => exprCalls inner use.inParens
  | .arrayLit elements _, _ => exprsCalls (fun _ ↦ .expected .int32) 0 elements
  | .not operand _, _ => exprCalls operand .operand
  | .index array position _, _ => exprCalls array .operand ++ exprCalls position .operand
  | .binary _ left right _, _ => exprCalls left .operand ++ exprCalls right .operand
  | .call receiver method args span, use =>
    exprCalls receiver .operand
      ++ exprsCalls (l.argUses (l.formals receiver method) args) 0 args
      ++ [⟨receiver, method, args, span, use⟩]
  | .newArray _ size _, _ => exprCalls size .operand
  | .length array _, _ => exprCalls array .operand

/-- The calls in expressions that are lowered for uses by position. -/
def exprsCalls (uses : Nat → Use) : Nat → List Expr → List CallSite
  | _, [] => []
  | position, e :: es => exprCalls e (uses position) ++ exprsCalls uses (position + 1) es

end

/-- The calls in the target of an assignment. -/
def targetCalls : Expr → List CallSite
  | .index array position _ => l.exprCalls array .operand ++ l.exprCalls position .operand
  | _ => []

mutual

/-- The calls in a statement.  Of a conditional the second branch comes first. -/
def stmtCalls : Stmt → List CallSite
  | .assign target value _ => l.targetCalls target ++ l.exprCalls value (l.assignUse target)
  | .expr e _ => l.exprCalls e .statement
  | .ret none _ => []
  | .ret (some e) _ => l.exprCalls e .operand
  | .cond test thenBranch elseBranch _ =>
    l.exprCalls test .condition ++ bodyCalls elseBranch ++ bodyCalls thenBranch
  | .loop test body _ => l.exprCalls test .condition ++ bodyCalls body

/-- The calls in statements. -/
def bodyCalls : List Stmt → List CallSite
  | [] => []
  | st :: sts => stmtCalls st ++ bodyCalls sts

end

/-! ### Events -/

theorem filterMap_call_elementEvents {es : List Expr}
    (ih : ∀ e ∈ es, ∀ use,
      (l.exprEvents e use).filterMap Event.call? = (l.exprCalls e use).map l.callOf)
    (element : Ty) (position : Nat) :
    (l.elementEvents element es).filterMap Event.call?
      = (l.exprsCalls (fun _ ↦ .expected element) position es).map l.callOf := by
  induction es generalizing position with
  | nil => rfl
  | cons e es ihes =>
    obtain ⟨hfirst, hrest⟩ := List.forall_mem_cons.mp ih
    rw [elementEvents, exprsCalls, List.filterMap_append, List.filterMap_append, hfirst,
      ihes hrest (position + 1), List.filterMap_cons_none rfl, filterMap_changes fun _ ↦ rfl,
      List.append_nil, List.map_append]

theorem filterMap_call_argEvents {es : List Expr}
    (ih : ∀ e ∈ es, ∀ use,
      (l.exprEvents e use).filterMap Event.call? = (l.exprCalls e use).map l.callOf)
    (formals : List (Ty × Bool)) (position : Nat) :
    (l.argEvents formals position es).filterMap Event.call?
      = (l.exprsCalls (argUse formals) position es).map l.callOf := by
  induction es generalizing position with
  | nil => rfl
  | cons e es ihes =>
    obtain ⟨hfirst, hrest⟩ := List.forall_mem_cons.mp ih
    rw [argEvents, exprsCalls, List.filterMap_append, hfirst, ihes hrest, List.map_append]

theorem filterMap_call_exprEvents (e : Expr) : ∀ use,
    (l.exprEvents e use).filterMap Event.call? = (l.exprCalls e use).map l.callOf := by
  induction e with
  | int | bool | self => exact fun _ ↦ rfl
  | ident name span => exact fun _ ↦ l.filterMap_accessEvents (fun _ ↦ rfl) _
  | paren inner span ih => exact fun use ↦ ih use.inParens
  | arrayLit elements span ih => exact fun _ ↦ l.filterMap_call_elementEvents ih .int32 0
  | not operand span ih | length operand span ih => exact fun _ ↦ ih .operand
  | newArray element size span ih =>
    intro _
    rw [exprEvents, List.filterMap_append, ih]
    exact List.append_nil _
  | index array position span iha ihp =>
    intro _
    rw [exprEvents, exprCalls, List.filterMap_append, List.filterMap_append, iha, ihp,
      List.map_append]
    exact List.append_nil _
  | binary op left right span ihl ihr =>
    intro _
    rw [exprEvents, exprCalls, List.filterMap_append, List.filterMap_append, ihl, ihr,
      filterMap_changes fun _ ↦ rfl, List.map_append, List.append_nil]
  | call receiver method args span ihr iha =>
    intro use
    rw [exprEvents_call, exprCalls, List.filterMap_append, List.filterMap_append, ihr,
      List.map_append, List.map_append]
    refine congrArg (· ++ [l.callOf ⟨receiver, method, args, span, use⟩])
      (congrArg ((l.exprCalls receiver .operand).map l.callOf ++ ·) ?_)
    rw [argUses, callArgEvents]
    cases l.packedType? (l.formals receiver method) args with
    | none => exact l.filterMap_call_argEvents iha _ 0
    | some element => exact l.filterMap_call_elementEvents iha element 0
  | newObject className span =>
    intro _
    rw [exprEvents]
    split <;> rfl

theorem filterMap_call_valueEvents (e : Expr) : (valueEvents e).filterMap Event.call? = [] := by
  induction e with
  | paren inner span ih => exact ih
  | _ => rfl

theorem filterMap_call_assignEvents (target value : Expr) :
    (l.assignEvents target value).filterMap Event.call?
      = (l.targetCalls target ++ l.exprCalls value (l.assignUse target)).map l.callOf := by
  have hchanges : ∀ ts, (changes ts).filterMap Event.call? = [] := filterMap_changes fun _ ↦ rfl
  cases target with
  | ident name span =>
    rw [assignEvents, List.filterMap_append, List.filterMap_append, l.filterMap_call_exprEvents,
      l.filterMap_accessEvents fun _ ↦ rfl, hchanges, List.append_nil, List.append_nil]
    rfl
  | index array position span =>
    simp only [assignEvents, targetCalls, List.filterMap_append, l.filterMap_call_exprEvents,
      List.filterMap_cons, Event.call?, hchanges, List.map_append, List.append_nil]
  | _ =>
    have htotal := l.filterMap_call_exprEvents value .operand
    rw [← l.keptEvents_append_value, List.filterMap_append, filterMap_call_valueEvents,
      List.append_nil] at htotal
    exact htotal

theorem filterMap_call_stmts {sts : List Stmt}
    (ih : ∀ st ∈ sts, (l.stmtEvents st).filterMap Event.call? = (l.stmtCalls st).map l.callOf) :
    (l.bodyEvents sts).filterMap Event.call? = (l.bodyCalls sts).map l.callOf := by
  induction sts with
  | nil => rfl
  | cons st sts ihs =>
    obtain ⟨hfirst, hrest⟩ := List.forall_mem_cons.mp ih
    rw [bodyEvents, bodyCalls, List.filterMap_append, hfirst, ihs hrest, List.map_append]

theorem filterMap_call_stmtEvents (st : Stmt) :
    (l.stmtEvents st).filterMap Event.call? = (l.stmtCalls st).map l.callOf := by
  induction st with
  | assign target value span => exact l.filterMap_call_assignEvents target value
  | expr e span => exact l.filterMap_call_exprEvents e .statement
  | ret value span =>
    cases value with
    | none => rfl
    | some e =>
      rw [stmtEvents, stmtCalls, List.filterMap_append, l.filterMap_call_exprEvents,
        filterMap_changes fun _ ↦ rfl, List.append_nil]
  | cond test thenBranch elseBranch span iht ihe =>
    rw [stmtEvents, stmtCalls, List.filterMap_append, List.filterMap_append,
      l.filterMap_call_exprEvents, l.filterMap_call_stmts ihe, l.filterMap_call_stmts iht,
      List.map_append, List.map_append]
  | loop test body span ih =>
    rw [stmtEvents, stmtCalls, List.filterMap_append, List.filterMap_append,
      l.filterMap_call_exprEvents, l.filterMap_call_stmts ih, filterMap_call_valueEvents,
      List.map_append, List.append_nil]

theorem filterMap_call_bodyEvents (sts : List Stmt) :
    (l.bodyEvents sts).filterMap Event.call? = (l.bodyCalls sts).map l.callOf :=
  l.filterMap_call_stmts fun st _ ↦ l.filterMap_call_stmtEvents st

/-- **The calls of a lowered method are those of its body**, in their order. -/
theorem linkages_method (n : Names) :
    (l.method n).1.instrs.filterMap Instr.linkage? = (l.bodyCalls l.decl.body).map l.linkage := by
  have hcalls := congrArg (List.map Prod.fst) (l.filterMap_call_bodyEvents l.decl.body)
  rw [← l.events_method n, List.filterMap_flatMap, List.map_flatMap, List.map_map] at hcalls
  rw [List.filterMap_eq_flatMap_toList, ← funext Instr.filterMap_call_events]
  exact hcalls

/-! ## Arguments and parameters -/

end Lowerer

/-- The OLLIR type of a parameter. -/
def Ty.ofParam (p : Param) : Ty := ofBinding (Jmm.Ty.ofTypeName p.type) p.type.isVararg

/-- A vararg is an array. -/
theorem Ty.exists_ofBinding_true (t : Jmm.Ty) : ∃ element, ofBinding t true = array element := by
  cases harray : t.isArray with
  | false => exact ⟨_, ofBinding_true harray⟩
  | true =>
    rw [Jmm.Ty.isArray_eq_isSome] at harray
    obtain ⟨element, helement⟩ := Option.isSome_iff_exists.mp harray
    have hisArray : t.isArray = true := by rw [Jmm.Ty.isArray_eq_isSome, harray]
    exact ⟨_, (ofBinding_of_isArray hisArray true).trans (ofTy_of_element? helement)⟩

theorem Ty.eq_named_of_ofTy {t : Jmm.Ty} {c : String} (h : ofTy t = .named c) : t = .named c := by
  cases t with
  | named name => rw [Ty.named.inj h]
  | _ => cases h

theorem Ty.eq_named_of_ofBinding {t : Jmm.Ty} {isVararg : Bool} {c : String}
    (h : ofBinding t isVararg = .named c) : t = .named c := by
  rw [ofBinding] at h
  split at h
  · cases h
  · exact eq_named_of_ofTy h

end Ollir

theorem Ty.isArray_ofTypeName (t : TypeName) : (ofTypeName t).isArray = t.isArray := by
  have hname : ∀ name, (ofName name).isArray = false := by
    intro name
    unfold ofName
    split <;> rfl
  rw [ofTypeName]
  cases t.isArray with
  | false => exact hname t.name
  | true => rfl

/-- A vararg with arrays for elements takes no arguments, or one array of them. -/
theorem SymbolTable.fillsVararg_of_isArray {element : Ty} {actuals : List Ty}
    (h : fillsVararg element actuals = true) (harray : element.isArray = true) :
    actuals = [] ∨ ∃ only, actuals = [only] ∧ only.isArray = true := by
  cases actuals with
  | nil => exact .inl rfl
  | cons first rest =>
    rw [fillsVararg] at h
    split at h
    · rename_i hlone
      obtain ⟨hrest, hfirst⟩ := (Bool.and_eq_true _ _).mp hlone
      rw [List.isEmpty_iff.mp hrest]
      exact .inr ⟨first, rfl, hfirst⟩
    · simp only [List.all_cons, Bool.and_eq_true, Bool.not_eq_true', beq_iff_eq] at h
      obtain ⟨⟨⟨_, hfirst⟩, _⟩, rfl⟩ := h
      rw [hfirst] at harray
      cases harray

namespace Ollir.Lowerer

variable (l : Lowerer)

/-- The types and kinds of parameters as a call sees them. -/
def formalsOf (params : List Param) : List (Ty × Bool) :=
  params.map fun p ↦ (Ty.ofParam p, p.type.isVararg)

/-- Whether parameters are one vararg that takes all arguments, each of them an element.  Arrays are
no elements, so that a vararg of arrays takes no arguments at all. -/
def takesAll (params : List Param) (args : List Expr) : Bool :=
  match params with
  | [p] => p.type.isVararg && (!p.type.isArray || args.isEmpty)
  | _ => false

/-- A call that has no type of its own, with or without parentheses. -/
def isUntypedCall : Expr → Bool
  | .paren inner _ => isUntypedCall inner
  | .call receiver method args span => l.typeOf (.call receiver method args span) = .void
  | _ => false

/-- An argument suits a parameter.  A call without a type takes the type that the parameter expects,
which for a vararg is that of its elements.  Any other argument has to have the type of the
parameter, as inference finds it, or if it finds none, as that of the operand. -/
def suits (e : Expr) (p : Param) : Bool :=
  if l.isUntypedCall e then !p.type.isVararg
  else if l.site.IsTyped e then
    Ty.ofBinding (l.site.typeOf e) (l.site.isVarargIdent e.unparen) = Ty.ofParam p
  else l.operandType e = Ty.ofParam p

/-- Arguments fill parameters: one vararg takes them all, or there is one argument for each
parameter and suits it. -/
def Fills (params : List Param) (args : List Expr) : Prop :=
  takesAll params args = true ∨ List.Forall₂ (fun e p ↦ l.suits e p = true) args params

instance (params : List Param) (args : List Expr) : Decidable (l.Fills params args) :=
  inferInstanceAs (Decidable (_ ∨ _))

/-- Arguments have the declared types of the parameters, where no vararg is involved. -/
def Matches (params : List Param) (args : List Expr) : Prop :=
  List.Forall₂ (fun e p ↦ p.type.isVararg = false ∧ l.site.typeOf e = Jmm.Ty.ofTypeName p.type
    ∧ l.site.isVarargIdent e.unparen = false) args params

theorem takesAll_iff {params : List Param} {args : List Expr} : takesAll params args = true
    ↔ ∃ p, params = [p] ∧ p.type.isVararg = true ∧ (p.type.isArray = false ∨ args = []) := by
  rcases params with _ | ⟨p, _ | ⟨q, rest⟩⟩ <;> simp [takesAll]

theorem packedType?_eq_some {formals : List (Ty × Bool)} {args : List Expr} {element : Ty}
    (h : l.packedType? formals args = some element) :
    ∃ type, formals = [(type, true)] ∧ element = type.elementOrInt
      ∧ ∀ only, args = [only] → (l.typeOf only).isArray = false := by
  unfold packedType? at h
  split at h
  · rename_i type
    refine ⟨type, rfl, ?_⟩
    split at h
    · rename_i only
      split at h
      · cases h
      · rename_i harray
        refine ⟨(Option.some.inj h).symm, fun e he ↦ ?_⟩
        obtain rfl := List.singleton_inj.mp he
        exact Bool.eq_false_iff.mpr harray
    · rename_i hlone
      exact ⟨(Option.some.inj h).symm, fun e he ↦ absurd he (hlone e)⟩
  · cases h

/-- Arguments are packed for a lone vararg only, and make an array of its type. -/
theorem argTypes_of_packed {params : List Param} {args : List Expr} {element : Ty}
    (h : l.packedType? (formalsOf params) args = some element) :
    ∃ p, params = [p] ∧ p.type.isVararg = true
      ∧ l.argTypes (formalsOf params) args = [Ty.ofParam p] := by
  obtain ⟨type, hformals, rfl, _⟩ := l.packedType?_eq_some h
  obtain ⟨p, rfl, hp⟩ := List.map_eq_singleton_iff.mp hformals
  obtain ⟨rfl, hvararg⟩ := Prod.mk.inj hp
  refine ⟨p, rfl, hvararg, ?_⟩
  obtain ⟨element, harray⟩ := Ty.exists_ofBinding_true (Jmm.Ty.ofTypeName p.type)
  have htype : Ty.ofParam p = .array element := by rw [Ty.ofParam, hvararg, harray]
  rw [argTypes, h, htype]
  rfl

/-- Accepted arguments for a lone vararg make one array, if its elements are none. -/
theorem argTypes_vararg {p : Param} (hvararg : p.type.isVararg = true)
    (harray : p.type.isArray = false) {args : List Expr}
    (hfills : SymbolTable.fillsVararg (Jmm.Ty.ofTypeName p.type) (args.map l.site.typeOf) = true) :
    l.argTypes (formalsOf [p]) args = [Ty.ofParam p] := by
  have helement : (Jmm.Ty.ofTypeName p.type).isArray = false :=
    (Jmm.Ty.isArray_ofTypeName p.type).trans harray
  have htype : Ty.ofParam p = .array (.ofTy (Jmm.Ty.ofTypeName p.type)) := by
    rw [Ty.ofParam, hvararg, Ty.ofBinding_true helement]
  have hformals : formalsOf [p] = [(.array (.ofTy (Symbol.ofParam p).type), true)] := by
    rw [formalsOf, List.map_singleton, htype, hvararg]
    rfl
  obtain ⟨o, ho, hotype, _⟩ := l.exists_callArgs (p := Symbol.ofParam p)
    (Jmm.Ty.ofTypeName_ne p.type) helement hfills .nil (Draws.nil {})
  rw [← l.type_callArgs args (formalsOf [p]) {}, hformals, ho, List.map_singleton, hotype, htype]
  rfl

theorem valueType_eq_ite (e : Expr) (use : Use) :
    l.valueType e use = if l.isUntypedCall e then use.callType else l.operandType e := by
  induction e with
  | paren inner span ih => exact ih
  | call receiver method args span =>
    rw [valueType, callType, isUntypedCall, operandType, callType]
    by_cases hvoid : l.typeOf (.call receiver method args span) = .void <;> simp [hvoid]
  | _ => rfl

/-- An argument that suits its parameter is the one that becomes a value of its type. -/
theorem valueType_eq_iff_suits {params : List Param} {i : Nat} {p : Param}
    (hp : params[i]? = some p) (e : Expr) :
    l.valueType e (argUse (formalsOf params) i) = Ty.ofParam p ↔ l.suits e p = true := by
  have hformal : (formalsOf params)[i]? = some (Ty.ofParam p, p.type.isVararg) := by
    rw [formalsOf, List.getElem?_map, hp]
    rfl
  rw [valueType_eq_ite, suits]
  by_cases hcall : l.isUntypedCall e = true
  · rw [if_pos hcall, if_pos hcall, argUse, hformal, Option.some_or]
    cases hvararg : p.type.isVararg with
    | false => exact iff_of_true rfl rfl
    | true =>
      obtain ⟨element, harray⟩ := Ty.exists_ofBinding_true (Jmm.Ty.ofTypeName p.type)
      have htype : Ty.ofParam p = .array element := by rw [Ty.ofParam, hvararg, harray]
      rw [htype]
      refine iff_of_false (fun h ↦ ?_) Bool.false_ne_true
      -- no type is an array of itself
      have hsize := congrArg sizeOf (show element = .array element from h)
      simp at hsize
  · rw [if_neg hcall, if_neg hcall]
    split
    · rename_i htyped
      have hvalue := l.valueType_eq_ite e .statement
      rw [if_neg hcall, l.valueType_eq_typeOf htyped.1 htyped.2 fun _ ↦ rfl] at hvalue
      rw [decide_eq_true_iff, ← hvalue, Lowerer.typeOf, Site.typeOf_unparen]
    · exact decide_eq_true_iff.symm

theorem valueTypes_eq_iff (params : List Param) (args : List Expr) :
    (args.mapIdx fun i e ↦ l.valueType e (argUse (formalsOf params) i)) = params.map Ty.ofParam
      ↔ List.Forall₂ (fun e p ↦ l.suits e p = true) args params := by
  have hsuits : ∀ (i : Nat) (hi : i < args.length) (hi' : i < params.length),
      l.valueType args[i] (argUse (formalsOf params) i) = Ty.ofParam params[i]
        ↔ l.suits args[i] params[i] = true := fun i _ hi' ↦
    l.valueType_eq_iff_suits (List.getElem?_eq_getElem hi') _
  simp only [List.ext_getElem_iff, List.forall₂_iff_get, List.length_mapIdx, List.length_map,
    List.getElem_mapIdx, List.getElem_map, List.get_eq_getElem, hsuits]

/-- **Arguments that were accepted have the types of the parameters if they fill them.** -/
theorem argTypes_eq_iff {t : SymbolTable} {params : List Param} {args : List Expr}
    (haccepts : t.accepts (params.map Symbol.ofParam) (args.map l.site.typeOf) = true) :
    l.argTypes (formalsOf params) args = params.map Ty.ofParam ↔ l.Fills params args := by
  have hfills : ∀ p, params = [p] → p.type.isVararg = true →
      SymbolTable.fillsVararg (Jmm.Ty.ofTypeName p.type) (args.map l.site.typeOf) = true := by
    rintro p rfl hvararg
    exact SymbolTable.fillsVararg_of_accepts (p := Symbol.ofParam p) hvararg haccepts
  cases hpacked : l.packedType? (formalsOf params) args with
  | some element =>
    obtain ⟨p, rfl, hvararg, heq⟩ := l.argTypes_of_packed hpacked
    refine ⟨fun _ ↦ .inl (takesAll_iff.mpr ⟨p, rfl, hvararg, ?_⟩), fun _ ↦ heq⟩
    by_contra! h
    obtain ⟨harray, hargs⟩ := h
    have hisArray : (Jmm.Ty.ofTypeName p.type).isArray = true := by
      rw [Jmm.Ty.isArray_ofTypeName]
      simpa using harray
    -- A lone argument would be an array then, and not be packed.
    rcases SymbolTable.fillsVararg_of_isArray (hfills p rfl hvararg) hisArray with hnil | hlone
    · exact hargs (List.map_eq_nil_iff.mp hnil)
    · obtain ⟨only, honly, hisArray⟩ := hlone
      obtain ⟨e, rfl, rfl⟩ := List.map_eq_singleton_iff.mp honly
      obtain ⟨_, _, _, hplain⟩ := l.packedType?_eq_some hpacked
      have hlowered := hplain e rfl
      rw [Lowerer.typeOf, Ty.ofBinding_of_isArray hisArray, Ty.isArray_ofTy, hisArray] at hlowered
      cases hlowered
  | none =>
    have heq : l.argTypes (formalsOf params) args
        = args.mapIdx fun i e ↦ l.valueType e (argUse (formalsOf params) i) := by
      rw [argTypes, hpacked]
    rw [Fills, takesAll_iff, ← l.valueTypes_eq_iff, ← heq]
    refine ⟨.inr, fun h ↦ h.elim ?_ id⟩
    rintro ⟨p, rfl, hvararg, harray | rfl⟩
    · exact l.argTypes_vararg hvararg harray (hfills p rfl hvararg)
    · rw [formalsOf, List.map_singleton, hvararg] at hpacked
      cases hpacked

/-- Arguments of the declared types fill the parameters. -/
theorem Matches.fills {params : List Param} {args : List Expr} (h : l.Matches params args) :
    l.Fills params args := by
  refine .inr (h.imp fun e p ⟨hvararg, htype, hident⟩ ↦ ?_)
  have htyped : l.site.IsTyped e := by
    rw [Site.IsTyped, htype]
    exact Jmm.Ty.ofTypeName_ne p.type
  rw [suits, hvararg, if_pos htyped, htype, hident, Ty.ofParam, hvararg]
  simp

/-- A call on a value is virtual, and its result has the type of the call for the use. -/
theorem kind_linkage {s : CallSite} {c : String} (h : l.site.typeOf s.receiver = .named c) :
    (l.linkage s).kind = .virtual ∧ (l.linkage s).returns = l.callType s.expr s.use := by
  have himport : l.site.namesImport s.receiver = false :=
    Site.namesImport_eq_false (h ▸ fun h ↦ Jmm.Ty.noConfusion h)
  simp [linkage, himport]

/-- The receiver of a call has its inferred type, unless it is the name of a vararg. -/
theorem caller_linkage {s : CallSite} {c : String} (h : l.site.typeOf s.receiver = .named c) :
    (l.linkage s).caller = Ty.ofBinding (.named c) (l.site.isVarargIdent s.receiver.unparen) := by
  have htype : l.typeOf s.receiver.unparen
      = Ty.ofBinding (.named c) (l.site.isVarargIdent s.receiver.unparen) := by
    rw [Lowerer.typeOf, Site.typeOf_unparen, h]
  have hne : l.typeOf s.receiver.unparen ≠ .void := by
    rw [htype, Ty.ofBinding]
    split <;> exact fun h ↦ Ty.noConfusion h
  show l.operandType s.receiver = _
  rw [← l.valueType_operand, l.valueType_eq_typeOf (h ▸ fun h ↦ Jmm.Ty.noConfusion h)
    (h ▸ fun h ↦ Jmm.Ty.noConfusion h) fun hvoid ↦ absurd hvoid hne, htype]

/-- A lowered value of a class was inferred to be one, unless it is the name of an import or an
element that inference gives no type. -/
theorem typeOf_of_operandType {e : Expr} {c : String} (h : l.operandType e = .named c) :
    l.site.typeOf e = .named c
      ∨ (∃ span, e.unparen = .ident c span) ∧ l.table.isImport c = true
      ∨ (∃ array position span, e.unparen = .index array position span)
        ∧ ¬ l.site.IsTyped e := by
  induction e with
  | int | bool | arrayLit | not | newArray | length => cases h
  | ident name span =>
    rw [operandType] at h
    by_cases himport : l.table.isImport name = true
    · rw [if_pos himport] at h
      obtain rfl := Ty.named.inj h
      exact .inr (.inl ⟨⟨span, rfl⟩, himport⟩)
    · rw [if_neg himport] at h
      exact .inl (Ty.eq_named_of_ofBinding h)
  | self span => exact .inl (Ty.eq_named_of_ofTy h)
  | newObject className span => exact .inl (Ty.eq_named_of_ofTy h)
  | paren inner span ih => exact ih h
  | index array position span =>
    by_cases htyped : l.site.IsTyped (.index array position span)
    · rcases l.valueType_cases htyped.1 htyped.2 .operand with heq | ⟨_, heq⟩
      · exact .inl (Ty.eq_named_of_ofBinding (heq.symm.trans h))
      · cases heq.symm.trans h
    · exact .inr (.inr ⟨⟨array, position, span, rfl⟩, htyped⟩)
  | binary op left right span =>
    have htype : l.typeOf (.binary op left right span) = .named c := h
    exact .inl (Ty.eq_named_of_ofBinding htype)
  | call receiver method args span =>
    have htype : l.callType (.call receiver method args span) .operand = .named c := h
    rw [callType] at htype
    split at htype
    · cases htype
    · exact .inl (Ty.eq_named_of_ofBinding htype)

theorem callType_eq_iff (e : Expr) (use : Use) :
    l.callType e use = l.typeOf e ↔ (l.typeOf e = .void → use.callType = .void) := by
  rw [callType]
  by_cases hvoid : l.typeOf e = .void
  · simp [hvoid]
  · simp [hvoid]

/-! ## Calls in their places -/

theorem mem_exprsCalls {es : List Expr} {s : CallSite}
    (ih : ∀ e ∈ es, ∀ use, s ∈ l.exprCalls e use → s.expr ∈ e.parts) (uses : Nat → Use)
    (position : Nat) (h : s ∈ l.exprsCalls uses position es) : s.expr ∈ Expr.partsAll es := by
  induction es generalizing position with
  | nil => exact absurd h List.not_mem_nil
  | cons e es ihes =>
    obtain ⟨ihe, ihs⟩ := List.forall_mem_cons.mp ih
    rw [exprsCalls, List.mem_append] at h
    rw [Expr.partsAll, List.mem_append]
    exact h.imp (ihe _) (ihes ihs (position + 1))

theorem mem_exprCalls {s : CallSite} (e : Expr) :
    ∀ use, s ∈ l.exprCalls e use → s.expr ∈ e.parts := by
  induction e with
  | int | bool | ident | self | newObject => exact fun _ h ↦ absurd h List.not_mem_nil
  | paren inner span ih | not inner span ih | newArray _ inner span ih | length inner span ih =>
    exact fun _ h ↦ List.mem_cons_of_mem _ (ih _ h)
  | arrayLit elements span ih =>
    exact fun _ h ↦ List.mem_cons_of_mem _ (l.mem_exprsCalls ih _ 0 h)
  | index first second span ihf ihs | binary _ first second span ihf ihs =>
    intro _ h
    refine List.mem_cons_of_mem _ (List.mem_append.mpr ?_)
    exact (List.mem_append.mp h).imp (ihf _) (ihs _)
  | call receiver method args span ihr iha =>
    intro use h
    rw [exprCalls, List.mem_append, List.mem_append, List.mem_singleton] at h
    rw [Expr.parts, List.mem_cons, List.mem_append]
    rcases h with (h | h) | rfl
    · exact .inr (.inl (ihr _ h))
    · exact .inr (.inr (l.mem_exprsCalls iha _ 0 h))
    · exact .inl rfl

theorem mem_bodyCalls_of_mem {sts : List Stmt} {s : CallSite}
    (ih : ∀ st ∈ sts, s ∈ l.stmtCalls st → s.expr ∈ st.exprs.flatMap Expr.parts)
    (h : s ∈ l.bodyCalls sts) : s.expr ∈ Stmt.exprParts sts := by
  induction sts with
  | nil => exact absurd h List.not_mem_nil
  | cons st sts ihs =>
    obtain ⟨ihst, ihsts⟩ := List.forall_mem_cons.mp ih
    rw [bodyCalls, List.mem_append] at h
    rw [Stmt.exprParts, Stmt.exprsAll, List.flatMap_append, List.mem_append]
    exact h.imp ihst (ihs ihsts)

theorem mem_stmtCalls {s : CallSite} (st : Stmt) (h : s ∈ l.stmtCalls st) :
    s.expr ∈ st.exprs.flatMap Expr.parts := by
  have hexpr : ∀ {e : Expr} {use : Use} {es : List Expr}, e ∈ es → s ∈ l.exprCalls e use →
      s.expr ∈ es.flatMap Expr.parts := fun he h ↦
    List.mem_flatMap.mpr ⟨_, he, l.mem_exprCalls _ _ h⟩
  induction st with
  | assign target value span =>
    rcases List.mem_append.mp h with h | h
    · cases target with
      | index array position s' =>
        have htarget : s.expr ∈ (Expr.index array position s').parts :=
          l.mem_exprCalls (.index array position s') .operand h
        exact List.mem_flatMap.mpr ⟨_, List.mem_cons_self, htarget⟩
      | _ => exact absurd h List.not_mem_nil
    · exact hexpr (List.mem_cons_of_mem _ List.mem_cons_self) h
  | expr e span => exact hexpr List.mem_cons_self h
  | ret value span =>
    cases value with
    | none => exact absurd h List.not_mem_nil
    | some e => exact hexpr List.mem_cons_self h
  | cond test thenBranch elseBranch span iht ihe =>
    rw [stmtCalls, List.mem_append, List.mem_append] at h
    rw [Stmt.exprs, List.flatMap_cons, List.flatMap_append, List.mem_append, List.mem_append]
    rcases h with (h | h) | h
    · exact .inl (l.mem_exprCalls test _ h)
    · exact .inr (.inr (l.mem_bodyCalls_of_mem ihe h))
    · exact .inr (.inl (l.mem_bodyCalls_of_mem iht h))
  | loop test body span ih =>
    rw [stmtCalls, List.mem_append] at h
    rw [Stmt.exprs, List.flatMap_cons, List.mem_append]
    exact h.imp (l.mem_exprCalls test _) (l.mem_bodyCalls_of_mem ih)

/-- The calls of a body are among its expressions. -/
theorem mem_bodyCalls {sts : List Stmt} {s : CallSite} (h : s ∈ l.bodyCalls sts) :
    s.expr ∈ Stmt.exprParts sts :=
  l.mem_bodyCalls_of_mem (fun st _ ↦ l.mem_stmtCalls st) h

end Ollir.Lowerer

open Ollir

theorem SymbolTable.exists_of_method? {imports : List ImportDecl} {cls : ClassDecl}
    {method : String} {f : Signature} (h : (ofClass imports cls).method? method = some f) :
    ∃ (k : Nat) (target : MethodDecl), cls.methods[k]? = some target ∧ target.name = method
      ∧ f = Signature.ofDecl target := by
  obtain ⟨target, htarget, rfl⟩ :=
    List.mem_map.mp (List.mem_reverse.mp (List.mem_of_find?_eq_some h))
  obtain ⟨k, hk⟩ := List.mem_iff_getElem?.mp htarget
  have hname := List.find?_some h
  exact ⟨k, target, hk, eq_of_beq hname, rfl⟩

section

variable {imports : List ImportDecl} {cls : ClassDecl} {target : MethodDecl}
  (hmethods : (cls.methods.map MethodDecl.name).Nodup) (htarget : target ∈ cls.methods)

include hmethods htarget

theorem Analysis.type_params : ((ofClass imports cls).lowerer target).params.map Operand.type
    = target.params.map Ty.ofParam := by
  have hsignature : (ofClass imports cls).table.method? target.name
      = some (Signature.ofDecl target) := SymbolTable.method?_ofClass imports hmethods htarget
  rw [Lowerer.params, lowerer, hsignature]
  exact (List.map_map ..).trans (List.map_map ..)

theorem Analysis.formals_own {d : MethodDecl} {receiver : Expr}
    (hreceiver : ((ofClass imports cls).lowerer d).site.typeOf receiver = .named cls.name) :
    ((ofClass imports cls).lowerer d).formals receiver target.name
      = Lowerer.formalsOf target.params := by
  have hsignature : ((ofClass imports cls).lowerer d).table.method? target.name
      = some (Signature.ofDecl target) := SymbolTable.method?_ofClass imports hmethods htarget
  have hclass : ((ofClass imports cls).lowerer d).site.typeOf receiver
      = .named ((ofClass imports cls).lowerer d).table.className := hreceiver
  rw [Lowerer.formals, if_pos hclass, hsignature]
  exact List.map_map ..

/-- A call on the class has the type that the method is declared with. -/
theorem Analysis.typeOf_own {d : MethodDecl} {receiver : Expr} (args : List Expr) (span : Span)
    (hreceiver : ((ofClass imports cls).lowerer d).site.typeOf receiver = .named cls.name)
    (himport : (ofClass imports cls).table.isImport cls.name = false) :
    ((ofClass imports cls).lowerer d).typeOf (.call receiver target.name args span)
      = ((ofClass imports cls).lowerer target).returnType := by
  have hsignature : ((ofClass imports cls).lowerer d).site.table.method? target.name
      = some (Signature.ofDecl target) := SymbolTable.method?_ofClass imports hmethods htarget
  have honImport : ((ofClass imports cls).lowerer d).site.namesImport receiver = false :=
    Site.namesImport_eq_false (hreceiver ▸ fun h ↦ Jmm.Ty.noConfusion h)
  have hisImport : ((ofClass imports cls).lowerer d).site.table.isImport cls.name = false := himport
  have htype : ((ofClass imports cls).lowerer d).site.typeOf (.call receiver target.name args span)
      = Jmm.Ty.ofTypeName target.returns := by
    rw [Site.typeOf, hreceiver, honImport, Site.callType, hisImport, if_neg Bool.false_ne_true,
      if_neg Bool.false_ne_true, SymbolTable.returnType?, hsignature]
    exact if_pos rfl
  rw [Lowerer.typeOf, htype]
  rfl

end

/-- A call says of a method what its header says: the types of its parameters and its result. -/
def Ollir.Linkage.Agrees (link : Linkage) (m : Method) : Prop :=
  link.args = m.params.map Operand.type ∧ link.returns = m.returns

/-- An operation carries out a call of the source: it invokes the method of this name in the class
of the receiver, by the types that the call says. -/
def Ollir.Lowerer.Invokes (l : Lowerer) (unit : Class) (s : CallSite) (o : Jasmin.Op) : Prop :=
  ∃ className, (l.linkage s).caller = .named className
    ∧ o = .invoke (if l.site.namesImport s.receiver.unparen then .static else .virtual)
      (unit.classPath className) s.method
      (.ofTys unit (l.linkage s).args (l.linkage s).returns)

/-- The invocation on a line, unless it is of a constructor. -/
def Jasmin.Line.invocation? : Line → Option Op
  | op (.invoke how owner method d) =>
    if how = .special then none else some (.invoke how owner method d)
  | _ => none

/-- **The invocations of an emitted method are its calls**, in their order. -/
theorem Ollir.Lowerer.invokes_assemble {a : Analysis} {cls : ClassDecl} {fusion : Bool}
    {jc : Jasmin.Class} (h : (a.lower cls).assemble fusion = .ok jc) {index : Nat}
    {d : MethodDecl} (hd : cls.methods[index]? = some d) :
    ∃ jm, jc.methods[index]? = some jm
      ∧ List.Forall₂ ((a.lowerer d).Invokes (a.lower cls).assignSlots)
        ((a.lowerer d).bodyCalls d.body) (jm.lines.filterMap Jasmin.Line.invocation?) := by
  obtain ⟨n, hm⟩ := lowerMethods_getElem? a hd {}
  have hcarried : ∀ event o, Jasmin.CarriesOut (a.lower cls).assignSlots event o →
      Option.Rel (fun call o ↦ Jasmin.CarriesOut (a.lower cls).assignSlots (.call call.1 call.2) o)
        event.call? (Jasmin.Line.invocation? (.op o)) := by
    intro event o ho
    cases ho with
    | array op => cases op <;> exact .none
    | call hcaller onClass => cases onClass <;> exact .some (.call hcaller _)
    | read | write => exact .none
  have hevents : ∀ event : Event, event.isAction = false → event.call? = none := by
    intro event hevent
    cases event with
    | change t => rfl
    | _ => cases hevent
  have hothers : ∀ line : Jasmin.Line, line.action? = none → line.invocation? = none := by
    intro line hline
    cases line with
    | label name => rfl
    | op o =>
      cases o with
      | invoke how => cases how <;> first | rfl | cases hline
      | _ => rfl
  obtain ⟨jm, hjm, hlines⟩ := Jasmin.forall₂_assemble h hm hcarried hevents hothers
  refine ⟨jm, hjm, ?_⟩
  rw [(a.lowerer d).events_method, (a.lowerer d).filterMap_call_bodyEvents,
    List.forall₂_map_left_iff] at hlines
  refine hlines.imp fun s o ho ↦ ?_
  cases ho with
  | call hcaller => exact ⟨_, hcaller, rfl⟩

/-- **Calls on the class itself.**  Let a class without superclass, whose methods have different
names, have no violation.  A lowered method makes the calls of its body, in their order.  If the
receiver of one of them has the type of the class, it was inferred to have it, unless it is the name
of an import that is called like the class or an element that inference gives no type.

A call on a receiver that is inferred to be of the class is virtual and names a method of the class.
Its arguments have the types of the parameters of this method if and only if they fill them, which
they do if they have the declared types.  Its result has the type that the method returns, unless
that is nothing and the value is used; here the class must not have the name of an import.

In assembly, the invocations of the method are those of the calls, one for one and in their order.
Where a call agrees with a method of the class, its invocation has the descriptor in the header of
this method, and if the receiver is inferred to be of the class, it is a virtual one of this
class. -/
theorem own_calls_agree_iff {imports : List ImportDecl} {cls : ClassDecl}
    (hclean : (Analysis.ofClass imports cls).hasErrors = false) (hsuper : cls.superclass = none)
    (hmethods : (cls.methods.map MethodDecl.name).Nodup) {index : Nat} {d : MethodDecl}
    (hd : cls.methods[index]? = some d) :
    let a := Analysis.ofClass imports cls
    let l := a.lowerer d
    let unit := a.lower cls
    ∃ m, unit.methods[index]? = some m
      ∧ m.instrs.filterMap Instr.linkage? = (l.bodyCalls d.body).map l.linkage
      ∧ (∀ s ∈ l.bodyCalls d.body, (l.linkage s).caller = .named cls.name →
        l.site.typeOf s.receiver = .named cls.name
          ∨ (∃ span, s.receiver.unparen = .ident cls.name span) ∧ a.table.isImport cls.name = true
          ∨ (∃ array position span, s.receiver.unparen = .index array position span)
            ∧ ¬ l.site.IsTyped s.receiver)
      ∧ (∀ s ∈ l.bodyCalls d.body, l.site.typeOf s.receiver = .named cls.name →
        (l.linkage s).kind = .virtual
          ∧ (l.linkage s).caller
            = Ty.ofBinding (.named cls.name) (l.site.isVarargIdent s.receiver.unparen)
          ∧ ∃ (k : Nat) (target : MethodDecl) (m' : Method), cls.methods[k]? = some target
            ∧ target.name = s.method ∧ unit.methods[k]? = some m'
            ∧ ((l.linkage s).args = m'.params.map Operand.type ↔ l.Fills target.params s.args)
            ∧ (l.Matches target.params s.args → l.Fills target.params s.args)
            ∧ (a.table.isImport cls.name = false →
              ((l.linkage s).returns = m'.returns
                ↔ (m'.returns = .void → s.use.callType = .void))))
      ∧ ∀ fusion jc, unit.assemble fusion = .ok jc →
        (∃ jm, jc.methods[index]? = some jm
          ∧ List.Forall₂ (l.Invokes unit.assignSlots) (l.bodyCalls d.body)
            (jm.lines.filterMap Jasmin.Line.invocation?))
          ∧ ∀ s ∈ l.bodyCalls d.body, ∀ o, l.Invokes unit.assignSlots s o →
            ∀ (k : Nat) (m' : Method) (jm' : Jasmin.Method), unit.methods[k]? = some m' →
            jc.methods[k]? = some jm' → (l.linkage s).Agrees m' →
            ∃ how owner, o = .invoke how owner s.method jm'.descriptor
              ∧ (l.site.typeOf s.receiver = .named cls.name →
                how = .virtual ∧ owner = cls.name) := by
  intro a l unit
  obtain ⟨n, hm⟩ := lowerMethods_getElem? a hd {}
  have hlinkages := l.linkages_method n
  refine ⟨_, hm, hlinkages, fun s _ hcaller ↦ l.typeOf_of_operandType hcaller,
    fun s hs hreceiver ↦ ?_, fun fusion jc hjc ↦ ?_⟩
  · have hplace := l.mem_bodyCalls hs
    have hobeys := (Checker.body_eq_nil_iff _).mp
      (Analysis.body_eq_nil hclean (List.mem_of_getElem? hd))
    obtain ⟨f, hf, haccepts⟩ := hobeys.call _ _ _ _ hplace hsuper hreceiver
    obtain ⟨k, target, hk, hname, rfl⟩ := SymbolTable.exists_of_method? hf
    have htarget := List.mem_of_getElem? hk
    obtain ⟨n', hm'⟩ := lowerMethods_getElem? a hk {}
    obtain ⟨hkind, hreturns⟩ := l.kind_linkage hreceiver
    refine ⟨hkind, l.caller_linkage hreceiver, k, target, _, hk, hname, hm', ?_,
      fun hmatches ↦ hmatches.fills, fun himport ↦ ?_⟩
    · rw [(a.lowerer target).params_method, Analysis.type_params hmethods htarget,
        ← l.argTypes_eq_iff haccepts, ← Analysis.formals_own hmethods htarget hreceiver, hname]
      rfl
    · have htype := Analysis.typeOf_own hmethods htarget s.args s.span hreceiver himport
      rw [hname] at htype
      rw [(a.lowerer target).returns_method, hreturns, ← htype]
      exact l.callType_eq_iff s.expr s.use
  · refine ⟨Lowerer.invokes_assemble hjc hd, ?_⟩
    rintro s _ o ⟨className, hcaller, rfl⟩ k m' jm' hm' hjm' hagrees
    obtain ⟨jm'', hjm'', hdescriptor⟩ := Jasmin.descriptor_assemble hjc hm'
    obtain rfl := Option.some.inj (hjm''.symm.trans hjm')
    refine ⟨_, _, by rw [hdescriptor, hagrees.1, hagrees.2], fun hreceiver ↦ ⟨?_, ?_⟩⟩
    · have honClass : l.site.namesImport s.receiver.unparen = false := by
        refine Site.namesImport_eq_false ?_
        rw [Site.typeOf_unparen, hreceiver]
        exact fun h ↦ Jmm.Ty.noConfusion h
      rw [honClass]
      rfl
    · rw [l.caller_linkage hreceiver] at hcaller
      obtain rfl := Jmm.Ty.named.inj (Ty.eq_named_of_ofBinding hcaller)
      exact if_pos rfl

/-- A class with a method that adds two numbers, one that adds any numbers, and one that calls both
of them. -/
def ClassDecl.adding : ClassDecl :=
  let int : TypeName := { name := "int" }
  let method (name : String) (params : List Param) (value : Expr) : MethodDecl :=
    { name, isPublic := true, isStatic := false, returns := int, params, locals := [],
      body := [.ret (some value) {}] }
  let call (name : String) (args : List Expr) : Expr := .call (.self {}) name args {}
  { name := "Main", superclass := none, fields := []
    methods := [
      method "add" [{ name := "x", type := int }, { name := "y", type := int }]
        (.binary .add (.ident "x" {}) (.ident "y" {}) {}),
      method "sum" [{ name := "v", type := { int with isVararg := true } }]
        (.index (.ident "v" {}) (.int 0 {}) {}),
      method "run" [] (call "add" [.int 1 {}, call "sum" [.int 2 {}, .int 3 {}]])] }

/-- The statement for `this.add(1, this.sum(2, 3))`: both calls agree with the methods, and are
emitted with their descriptors. -/
theorem own_calls_agree_iff_nested :
    let cls := ClassDecl.adding
    let a := Analysis.ofClass [] cls
    ∃ d m jc jm, cls.methods[2]? = some d ∧ a.hasErrors = false
      ∧ (a.lower cls).methods[2]? = some m
      ∧ m.instrs.filterMap Instr.linkage?
        = [⟨.virtual, .named "Main", "sum", [.array .int32], .int32⟩,
          ⟨.virtual, .named "Main", "add", [.int32, .int32], .int32⟩]
      ∧ (a.lower cls).assemble true = .ok jc ∧ jc.methods[2]? = some jm
      ∧ List.Forall₂ (fun s o ↦ (∃ m' ∈ (a.lower cls).methods, ((a.lowerer d).linkage s).Agrees m')
          ∧ ∃ jm' ∈ jc.methods, o = .invoke .virtual "Main" s.method jm'.descriptor)
        ((a.lowerer d).bodyCalls d.body) (jm.lines.filterMap Jasmin.Line.invocation?) := by
  intro cls a
  have hclean : a.hasErrors = false := by decide +kernel
  obtain ⟨m, hm, hlinkages, _, hcalls, hemit⟩ :=
    own_calls_agree_iff hclean rfl (by decide) (show cls.methods[2]? = some _ from rfl)
  have hlinkages' : m.instrs.filterMap Instr.linkage?
      = [⟨.virtual, .named "Main", "sum", [.array .int32], .int32⟩,
        ⟨.virtual, .named "Main", "add", [.int32, .int32], .int32⟩] := by
    rw [hlinkages]
    decide +kernel
  have hok : ((a.lower cls).assemble true).isOk = true := by decide +kernel
  obtain ⟨jc, hjc⟩ := Jasmin.exists_of_isOk hok
  obtain ⟨⟨jm, hjm, hlines⟩, hinvokes⟩ := hemit true jc hjc
  refine ⟨_, m, jc, jm, rfl, hclean, hm, hlinkages', hjc, hjm, ?_⟩
  have hreceivers : ∀ d ∈ cls.methods, ∀ s ∈ (a.lowerer d).bodyCalls d.body,
      (a.lowerer d).site.typeOf s.receiver = .named "Main" := by decide +kernel
  have hfills : ∀ d ∈ cls.methods, ∀ s ∈ (a.lowerer d).bodyCalls d.body, ∀ target ∈ cls.methods,
      target.name = s.method → (a.lowerer d).Fills target.params s.args := by decide +kernel
  have hvalues : ∀ m' ∈ (a.lower cls).methods, m'.returns ≠ .void := by decide +kernel
  have hd := List.mem_of_getElem? (show cls.methods[2]? = some _ from rfl)
  refine List.forall₂_iff_zip.mpr ⟨hlines.length_eq, fun {s o} hpair ↦ ?_⟩
  have hs := (List.of_mem_zip hpair).1
  have hreceiver := hreceivers _ hd s hs
  obtain ⟨_, _, k, target, m', hk, hname, hm', hargs, _, hreturns⟩ := hcalls s hs hreceiver
  have hmem' := List.mem_of_getElem? hm'
  have hagrees : ((a.lowerer _).linkage s).Agrees m' :=
    ⟨hargs.mpr (hfills _ hd s hs target (List.mem_of_getElem? hk) hname),
      (hreturns rfl).mpr fun hvoid ↦ absurd hvoid (hvalues m' hmem')⟩
  obtain ⟨jm', hjm', _⟩ := Jasmin.descriptor_assemble hjc hm'
  obtain ⟨how, owner, rfl, hown⟩ :=
    hinvokes s hs o (List.forall₂_zip hlines hpair) k m' jm' hm' hjm' hagrees
  obtain ⟨rfl, rfl⟩ := hown hreceiver
  exact ⟨⟨m', hmem', hagrees⟩, jm', List.mem_of_getElem? hjm', rfl⟩

/-- An argument more than there are parameters passes the checks.  The call is made with both
arguments, and no method has the descriptor that it names. -/
theorem extra_argument_changes_descriptor :
    let int : TypeName := { name := "int" }
    let method (name : String) (params : List Param) (value : Expr) : MethodDecl :=
      { name, isPublic := true, isStatic := false, returns := int, params, locals := [],
        body := [.ret (some value) {}] }
    let cls : ClassDecl :=
      { name := "Main", superclass := none, fields := []
        methods := [method "f" [{ name := "x", type := int }] (.ident "x" {}),
          method "run" [] (.call (.self {}) "f" [.int 1 {}, .int 2 {}] {})] }
    let a := Analysis.ofClass [] cls
    a.violations = [] ∧ (cls.methods.map MethodDecl.name).Nodup
      ∧ (a.lower cls).methods.map (fun m ↦ (m.name, m.params.map Operand.type,
          m.instrs.filterMap Instr.linkage?))
        = [("f", [.int32], []),
          ("run", [], [⟨.virtual, .named "Main", "f", [.int32, .int32], .int32⟩])]
      ∧ ((a.lower cls).assemble true).toOption.map (fun jc ↦ jc.methods.map fun jm ↦
          (jm.descriptor, jm.lines.filter fun line ↦
            line = .op (.invoke .virtual "Main" "f" ⟨[.int, .int], .int⟩)))
        = some [(⟨[.int], .int⟩, []),
          (⟨[], .int⟩, [.op (.invoke .virtual "Main" "f" ⟨[.int, .int], .int⟩)])] := by
  decide +kernel

end Jmm
