import Jmm.Proofs.Typing.Checked

/-!
# The shape of lowered code

The code of an expression is built from instructions that go on with the next one and from
`diamond`s, which come from `&&` and `||`.  An array is filled right after it was assigned to a
variable.  `Structured` says so, and `Lowerer.structured_expr` that it holds for every expression.
What is kept by these ways of building code then holds for the code of all expressions, by one
induction on `Structured`.

The instructions themselves have few forms (`Instr.isFormed`): a field is read from the receiver and
stored in a variable, a call has a method or a class as its kind asks for and says by its type what
it leaves, and what is given back has the return type of the method.  All instructions of a lowered
method are of these forms (`Lowerer.isFormed_method`).

The forms tell code that may use the receiver from code that only reads fields of it.  In a static
method that passes the checks there is no other use (`Lowerer.Allows`).
-/

set_option autoImplicit false

namespace Jmm.Ollir

/-! ## Forms of instructions -/

/-- A class named as such. -/
def Operand.isClass : Operand → Bool
  | classRef _ => true
  | _ => false

/-- An operand of lowered code: a literal is no reference, and the receiver stands where it may. -/
def Operand.isFormed (this : Bool) : Operand → Bool
  | literal _ type => !type.isReference
  | receiver _ => this
  | element _ index _ => index.isFormed this
  | _ => true

/-- A call is as its kind asks for.  A constructor leaves no value and takes no arguments, an
allocation leaves a reference and a length an integer. -/
def Call.suitsKind (c : Call) : Bool :=
  match c.kind with
  | .virtual => c.method.isSome
  | .static => c.method.isSome && c.caller.isClass
  | .special => c.returns = .void && c.args.isEmpty
  | .new => c.caller.isClass && c.returns.isReference
  | .arrayLength => c.returns = .int32

/-- A call of lowered code. -/
def Call.isFormed (this : Bool) (c : Call) : Bool :=
  (c.caller :: c.args).all (Operand.isFormed this) && c.suitsKind

theorem Call.suitsKind_of_isFormed {this : Bool} {c : Call} (h : c.isFormed this = true) :
    c.suitsKind = true :=
  (Bool.and_eq_true_iff.mp h).2

namespace Instr

/-- A class named as such, as a value. -/
def isClass : Instr → Bool
  | single o => o.isClass
  | _ => false

/-- An instruction that computes a value from operands.  A comparison gives no reference. -/
def isComputation (this : Bool) : Instr → Bool
  | single o => o.isFormed this
  | binary op left right type =>
    left.isFormed this && right.isFormed this && (op ≠ .less || !type.isReference)
  | not o _ => o.isFormed this
  | call c => c.isFormed this
  | _ => false

/-- A read of a field of the receiver. -/
def isFieldRead : Instr → Bool
  | getField (.receiver _) _ _ => true
  | _ => false

/-- An instruction that goes on with the next one, and stores no element. -/
def isStraight (this : Bool) : Instr → Bool
  | assign (.var _ _) _ value => value.isComputation this || value.isFieldRead
  | putField (.receiver _) _ _ value => this && value.isFormed this
  | call c => c.isFormed this
  | _ => false

/-- An instruction after which control is at the next one. -/
def goesOn : Instr → Bool
  | branch _ _ | goto _ | ret _ _ => false
  | _ => true

/-- The array that an instruction stores an element of. -/
def elementTarget? : Instr → Option String
  | assign (.element array _ _) _ _ => some array
  | _ => none

/-- An instruction of the form that lowering gives it, in a method with the given return type. -/
def isFormed (this : Bool) (returns : Ty) : Instr → Bool
  | assign (.element _ index _) _ value => index.isFormed this && value.isComputation this
  | branch test _ => test.isComputation this
  | goto _ => true
  | ret type value => value.all fun o ↦ type = returns && o.isFormed this
  | i => i.isStraight this

variable {this : Bool}

theorem isStraight_assign {value : Instr}
    (h : value.isComputation this = true ∨ value.isFieldRead = true) (name : String) (t : Ty) :
    (assign (.var name t) t value).isStraight this = true :=
  Bool.or_eq_true_iff.mpr h

theorem isFormed_of_isStraight {i : Instr} (h : i.isStraight this = true) (returns : Ty) :
    i.isFormed this returns = true := by
  cases i with
  | assign target type value =>
    cases target with
    | element => cases h
    | _ => exact h
  | branch | goto | ret => cases h
  | _ => exact h

theorem goesOn_of_isStraight {i : Instr} (h : i.isStraight this = true) : i.goesOn = true := by
  cases i with
  | branch | goto | ret => cases h
  | _ => rfl

theorem elementTarget?_of_isStraight {i : Instr} (h : i.isStraight this = true) :
    i.elementTarget? = none := by
  cases i with
  | assign target type value =>
    cases target with
    | element => cases h
    | _ => rfl
  | _ => rfl

end Instr

/-! ## Structured code -/

/-- Code of straight instructions, tests with two branches and arrays that are filled, which may
also store to elements of the given arrays. -/
inductive Structured (this : Bool) : List String → List Item → Prop where
  | nil {arrays : List String} : Structured this arrays []
  | instr {arrays : List String} {i : Instr} (h : i.isStraight this = true) :
    Structured this arrays [.instr i]
  | append {arrays : List String} {a b : List Item} (ha : Structured this arrays a)
    (hb : Structured this arrays b) : Structured this arrays (a ++ b)
  | diamond {arrays : List String} {test : Instr} {trueLabel endLabel : String} {a b : List Item}
    (htest : test.isComputation this = true) (ha : Structured this arrays a)
    (hb : Structured this arrays b) : Structured this arrays (diamond test trueLabel endLabel a b)
  | store {arrays : List String} {array : String} {index : Operand} {t : Ty} {value : Instr}
    (harray : array ∈ arrays) (hindex : index.isFormed this = true)
    (hvalue : value.isComputation this = true) :
    Structured this arrays [.instr (.assign (.element array index t) t value)]
  | fill {arrays : List String} {array : String} {t : Ty} {value : Instr} {code : List Item}
    (hvalue : value.isComputation this = true) (hcode : Structured this (array :: arrays) code) :
    Structured this arrays (assignVar array t value :: code)

/-- The instructions of structured code have the forms of lowering. -/
theorem Structured.isFormed {this : Bool} {arrays : List String} {code : List Item}
    (h : Structured this arrays code) (returns : Ty) :
    ∀ i ∈ instrsOf code, i.isFormed this returns = true := by
  induction h with
  | nil => exact fun i hi ↦ absurd hi List.not_mem_nil
  | instr hi => exact List.forall_mem_singleton.mpr (Instr.isFormed_of_isStraight hi returns)
  | append _ _ iha ihb =>
    rw [instrsOf_append]
    exact List.forall_mem_append.mpr ⟨iha, ihb⟩
  | diamond htest _ _ iha ihb =>
    have hgoto : ∀ label, (Instr.goto label).isFormed this returns = true := fun _ ↦ rfl
    rw [Ollir.diamond]
    simp only [instrsOf_instr, instrsOf_append, instrsOf_label, List.forall_mem_cons,
      List.forall_mem_append]
    exact ⟨htest, iha, hgoto _, ihb, fun i hi ↦ absurd hi List.not_mem_nil⟩
  | store _ hindex hvalue =>
    exact List.forall_mem_singleton.mpr (Bool.and_eq_true_iff.mpr ⟨hindex, hvalue⟩)
  | fill hvalue _ ih =>
    refine List.forall_mem_cons.mpr ⟨?_, ih⟩
    exact Instr.isFormed_of_isStraight (Instr.isStraight_assign (.inl hvalue) _ _) returns

/-- A lowered expression with structured code, and a value that is computed from operands. -/
def StructuredLowered (this : Bool) (arrays : List String) (x : Lowered) : Prop :=
  Structured this arrays x.code ∧ x.value.isComputation this = true

section Lowered

variable {this : Bool} {arrays : List String} {code : List Item} {value : Instr} {x y : Lowered}

theorem structured_materialize (arrays : List String)
    (h : value.isComputation this = true ∨ value.isFieldRead = true) (n : Names) :
    Structured this arrays (materialize value n).1.1
      ∧ (materialize value n).1.2.isFormed this = true := by
  rcases materialize_cases value n with ⟨o, rfl, heq⟩ | ⟨_, heq⟩
  · rw [heq]
    exact ⟨.nil, h.resolve_right Bool.false_ne_true⟩
  · rw [heq]
    exact ⟨.instr (Instr.isStraight_assign h _ _), rfl⟩

theorem structured_asOperand {e : Draw Lowered} (h : ∀ n, StructuredLowered this arrays (e n).1)
    (n : Names) : Structured this arrays (asOperand e n).1.1
      ∧ (asOperand e n).1.2.isFormed this = true := by
  obtain ⟨hcode, ho⟩ := structured_materialize arrays (.inl (h n).2) (e n).2
  rw [asOperand_apply]
  exact ⟨(h n).1.append hcode, ho⟩

theorem isClass_asOperand (e : Draw Lowered) (n : Names) :
    (asOperand e n).1.2.isClass = (e n).1.value.isClass := by
  rw [asOperand_apply]
  rcases materialize_cases (e n).1.value (e n).2 with ⟨o, ho, heq⟩ | ⟨hnone, heq⟩
  · rw [heq, ho]
    rfl
  · rw [heq]
    cases hvalue : (e n).1.value with
    | single o => exact absurd hvalue (hnone o)
    | _ => rfl

theorem structured_asVar {e : Draw Lowered} (h : ∀ n, StructuredLowered this arrays (e n).1)
    (n : Names) : Structured this arrays (asVar e n).1.1 := by
  obtain ⟨hcode, ho⟩ := structured_asOperand h n
  rcases asVar_cases e n with ⟨name, t, _, heq⟩ | ⟨_, heq⟩
  · rw [heq]
    exact hcode
  · have hvalue : (Instr.single (asOperand e n).1.2).isComputation this = true := ho
    rw [heq]
    exact hcode.append (.instr (Instr.isStraight_assign (.inl hvalue) _ _))

theorem structured_stored (hcode : Structured this arrays code)
    (hvalue : value.isComputation this = true ∨ value.isFieldRead = true) (n : Names) :
    StructuredLowered this arrays (stored code value n).1 := by
  obtain ⟨hmore, ho⟩ := structured_materialize arrays hvalue n
  rw [stored_apply]
  exact ⟨hcode.append hmore, ho⟩

theorem structured_shortCircuit (hx : StructuredLowered this arrays x)
    (hy : StructuredLowered this arrays y) (t : Ty) (isOr : Bool) (n : Names) :
    StructuredLowered this arrays (shortCircuit x y t isOr n).1 := by
  obtain ⟨trueLabel, endLabel, result, _, heq⟩ := shortCircuit_diamond x y t isOr n
  have hdecided : Structured this arrays [assignVar result t (.single (Operand.bool isOr))] :=
    .instr rfl
  have hundecided : Structured this arrays (y.code ++ [assignVar result t y.value]) :=
    hy.1.append (.instr (Instr.isStraight_assign (.inl hy.2) result t))
  rw [heq]
  refine ⟨hx.1.append (.diamond hx.2 ?_ ?_), rfl⟩
  · cases isOr
    · exact hdecided
    · exact hundecided
  · cases isOr
    · exact hundecided
    · exact hdecided

theorem structured_operation (hx : StructuredLowered this arrays x)
    (hy : StructuredLowered this arrays y) {op : BinOp} {t : Ty}
    (ht : op = .less → t.isReference = false) (inline : Bool) (n : Names) :
    StructuredLowered this arrays (operation op x y t inline n).1 := by
  obtain ⟨code, o, o', n', rfl, rfl, rfl, rfl, heq⟩ := operation_apply op x y t inline n
  obtain ⟨hmore, ho⟩ := structured_materialize arrays (.inl hx.2) n
  obtain ⟨hmore', ho'⟩ :=
    structured_materialize arrays (.inl hy.2) (materialize x.value n).2
  have hcode := ((hx.1.append hmore).append hy.1).append hmore'
  have hvalue : (Instr.binary op (materialize x.value n).1.2
      (materialize y.value (materialize x.value n).2).1.2 t).isComputation this = true := by
    by_cases hop : op = .less <;> simp [Instr.isComputation, ho, ho', hop, ht]
  rw [heq]
  cases inline with
  | true => exact ⟨hcode, hvalue⟩
  | false => exact structured_stored hcode (.inl hvalue) _

theorem structured_packed (length : Nat) (element : Ty) {fill : String → Draw (List Item)}
    (hfill : ∀ name n, Structured this (name :: arrays) (fill name n).1) (n : Names) :
    StructuredLowered this arrays (packed length element fill n).1 := by
  have halloc : ∀ name, Structured this arrays [assignVar name (.array element)
      (.call (Call.newArray (Operand.int (Int32.ofNat length)) (.array element)))] :=
    fun _ ↦ .instr rfl
  rw [packed, Draw.bind_apply]
  split
  · exact ⟨halloc _, rfl⟩
  · exact ⟨(halloc _).append (.fill rfl (hfill _ _)), rfl⟩

end Lowered

/-! ## Expressions -/

namespace Lowerer

variable (l : Lowerer) {this : Bool} {arrays : List String}

/-- Code may use the receiver, or the method is static and what it is made of has none of the given
violations. -/
def Allows (this : Bool) (violations : List Violation) : Prop :=
  this = true ∨ l.decl.isStatic = true ∧ violations = []

theorem allows_true (violations : List Violation) : l.Allows true violations :=
  .inl rfl

variable {l} in
theorem Allows.mono {vs vs' : List Violation} (h : l.Allows this vs) (hvs : vs = [] → vs' = []) :
    l.Allows this vs' :=
  h.imp_right fun ⟨hstatic, hnil⟩ ↦ ⟨hstatic, hvs hnil⟩

variable {l} in
theorem Allows.append {vs vs' : List Violation} (h : l.Allows this (vs ++ vs')) :
    l.Allows this vs ∧ l.Allows this vs' :=
  ⟨h.mono fun hnil ↦ (List.append_eq_nil_iff.mp hnil).1,
    h.mono fun hnil ↦ (List.append_eq_nil_iff.mp hnil).2⟩

variable {l} in
theorem Allows.exprs {es : List Expr} (h : l.Allows this (l.checker.exprs es)) :
    ∀ e ∈ es, l.Allows this (l.checker.expr e) :=
  fun e he ↦ h.mono fun hnil ↦ Checker.expr_of_mem_exprs hnil e he

theorem structured_stores {es : List Expr}
    (ih : ∀ e ∈ es, ∀ use n, StructuredLowered this arrays (l.expr e use n).1) {array : String}
    (harray : array ∈ arrays) (element : Ty) (position : Nat) (n : Names) :
    Structured this arrays (l.stores array element position es n).1 := by
  induction es generalizing position n with
  | nil => exact .nil
  | cons e es ihes =>
    rw [Lowerer.stores]
    obtain ⟨hfirst, ho⟩ := structured_asOperand (ih e List.mem_cons_self (.expected element)) n
    have hvalue : (Instr.single
        (asOperand (l.expr e (.expected element)) n).1.2).isComputation this = true := ho
    have hrest := ihes (fun e' he' ↦ ih e' (List.mem_cons_of_mem e he')) (position + 1)
      (asOperand (l.expr e (.expected element)) n).2
    exact hfirst.append ((Structured.store harray rfl hvalue).append hrest)

theorem structured_args {es : List Expr}
    (ih : ∀ e ∈ es, ∀ use n, StructuredLowered this arrays (l.expr e use n).1)
    (formals : List (Ty × Bool)) (position : Nat) (n : Names) :
    Structured this arrays (l.args formals position es n).1.1
      ∧ (l.args formals position es n).1.2.all (Operand.isFormed this) = true := by
  induction es generalizing position n with
  | nil => exact ⟨.nil, rfl⟩
  | cons e es ihes =>
    obtain ⟨hfirst, ho⟩ :=
      structured_asOperand (ih e List.mem_cons_self (argUse formals position)) n
    obtain ⟨hrest, hos⟩ := ihes (fun e' he' ↦ ih e' (List.mem_cons_of_mem e he')) (position + 1)
      (asOperand (l.expr e (argUse formals position)) n).2
    rw [Lowerer.args]
    exact ⟨hfirst.append hrest, Bool.and_eq_true_iff.mpr ⟨ho, hos⟩⟩

theorem structured_callArgs {es : List Expr}
    (ih : ∀ e ∈ es, ∀ arrays use n, StructuredLowered this arrays (l.expr e use n).1)
    (formals : List (Ty × Bool)) (arrays : List String) (n : Names) :
    Structured this arrays (l.callArgs formals es n).1.1
      ∧ (l.callArgs formals es n).1.2.all (Operand.isFormed this) = true := by
  rw [callArgs]
  cases l.packedType? formals es with
  | none => exact l.structured_args (fun e he ↦ ih e he arrays) formals 0 n
  | some element =>
    obtain ⟨hcode, ho⟩ := structured_asOperand (structured_packed es.length element fun name ↦
      l.structured_stores (fun e he ↦ ih e he (name :: arrays)) List.mem_cons_self element 0) n
    exact ⟨hcode, Bool.and_eq_true_iff.mpr ⟨ho, rfl⟩⟩

/-- The result of `&&`, `||` and `<` is no reference. -/
theorem isReference_typeOf_binary {op : BinOp} (hop : op = .and ∨ op = .or ∨ op = .less)
    (left right : Expr) (span : Span) :
    (l.typeOf (.binary op left right span)).isReference = false := by
  have htype : l.site.typeOf (.binary op left right span) = .boolean
      ∨ l.site.typeOf (.binary op left right span) = .error := by
    rw [Site.typeOf]
    rcases hop with rfl | rfl | rfl <;> rw [Site.binaryType] <;> split
    · rename_i h
      exact .inl h.2
    · exact .inr rfl
    · rename_i h
      exact .inl h.2
    · exact .inr rfl
    · exact .inl rfl
    · exact .inr rfl
  rw [Lowerer.typeOf]
  rcases htype with htype | htype <;> rw [htype] <;> rfl

/-- The value of an expression is a class if the expression is the name of an import, with or
without parentheses. -/
theorem isClass_value (e : Expr) :
    ∀ use n, (l.expr e use n).1.value.isClass = l.site.namesImport e.unparen := by
  induction e with
  | ident name span =>
    intro use n
    show (l.ident name n).1.value.isClass = l.table.isImport name
    rw [Lowerer.ident]
    by_cases himport : l.table.isImport name = true
    · rw [if_pos himport, himport]
      rfl
    · rw [if_neg himport, Bool.eq_false_iff.mpr himport]
      split <;> rfl
  | paren inner span ih => exact fun use ↦ ih use.inParens
  | arrayLit elements span =>
    intro use n
    rw [Lowerer.expr, packed, Draw.bind_apply]
    split <;> rfl
  | index array position span =>
    intro use n
    rcases l.expr_index (n := n) rfl rfl span use with ⟨_, heq⟩ | ⟨_, heq⟩ <;> rw [heq] <;> rfl
  | binary op left right span =>
    intro use n
    have hoperation : ∀ op' a b inline n', (operation op' a b
        (l.typeOf (.binary op left right span)) inline n').1.value.isClass = false := by
      intro op' a b inline n'
      cases inline <;> rfl
    rw [l.expr_binary]
    cases op with
    | and | or => rfl
    | _ => exact hoperation _ _ _ _ _
  | call receiver method args span =>
    intro use n
    rw [l.expr_call, finishCall]
    split <;> rfl
  | _ => exact fun _ _ ↦ rfl

theorem isClass_operand (e : Expr) (n : Names) :
    (asOperand (l.expr e .operand) n).1.2.isClass = l.site.namesImport e.unparen :=
  (isClass_asOperand _ n).trans (l.isClass_value e .operand n)

theorem structured_finishCall {code : List Item} (hcode : Structured this arrays code) (e : Expr)
    {onImport : Bool} {caller : Operand} (hcaller : caller.isFormed this = true)
    (hclass : onImport = true → caller.isClass = true) (method : String) {args : List Operand}
    (hargs : args.all (Operand.isFormed this) = true) (use : Use) (n : Names) :
    StructuredLowered this arrays (l.finishCall e onImport code caller method args use n).1 := by
  have hvirtual : ∀ returns, (Instr.call
      { kind := .virtual, caller, method := some method, args, returns }).isComputation this
        = true := fun _ ↦ by
          simp [Instr.isComputation, Call.isFormed, Call.suitsKind, hcaller, hargs]
  rw [finishCall]
  split
  · cases onImport with
    | false => exact ⟨hcode, hvirtual _⟩
    | true =>
      exact ⟨hcode, by
        simp [Instr.isComputation, Call.isFormed, Call.suitsKind, hcaller, hargs, hclass]⟩
  · exact structured_stored hcode (.inl (hvirtual _)) n

/-- **The code of an expression is structured**, and its value is computed from operands. -/
theorem structured_expr (e : Expr) (h : l.Allows this (l.checker.expr e)) :
    ∀ arrays use n, StructuredLowered this arrays (l.expr e use n).1 := by
  induction e with
  | int value span => exact fun _ _ _ ↦ ⟨.nil, rfl⟩
  | bool value span => exact fun _ _ _ ↦ ⟨.nil, rfl⟩
  | ident name span =>
    intro arrays use n
    rw [Lowerer.expr, Lowerer.ident]
    split
    · exact ⟨.nil, rfl⟩
    · dsimp only
      split
      · exact structured_stored .nil (.inr rfl) n
      · exact ⟨.nil, rfl⟩
  | self span =>
    have hthis : this = true := by
      refine h.resolve_right ?_
      rintro ⟨hstatic, hnil⟩
      simp [Checker.expr, Checker.receiver, checker, hstatic] at hnil
    exact fun _ _ _ ↦ ⟨.nil, hthis⟩
  | paren inner span ih => exact fun arrays use ↦ ih h arrays use.inParens
  | arrayLit elements span ih =>
    exact fun arrays _ ↦ structured_packed _ _ fun name ↦
      l.structured_stores (fun e he ↦ ih e he (h.exprs e he) _) List.mem_cons_self .int32 0
  | not operand span ih => exact fun arrays _ n ↦ structured_asOperand (ih h arrays .operand) n
  | index array position span iha ihp =>
    intro arrays use n
    obtain ⟨ha, hp⟩ := h.append
    have harray := structured_asVar (iha ha arrays .operand) n
    rcases h₁ : asVar (l.expr array .operand) n with ⟨⟨code₁, name, t⟩, n₁⟩
    obtain ⟨hposition, hindex⟩ := structured_asOperand (ihp hp arrays .operand) n₁
    rcases h₂ : asOperand (l.expr position .operand) n₁ with ⟨⟨code₂, index⟩, n₂⟩
    rw [h₁] at harray
    rw [h₂] at hposition hindex
    have hcode := harray.append hposition
    have hvalue : ∀ t, (Instr.single (.element name index t)).isComputation this = true :=
      fun _ ↦ hindex
    rcases l.expr_index h₁ h₂ span use with ⟨_, heq⟩ | ⟨_, heq⟩
    · rw [heq]
      exact ⟨hcode, hvalue _⟩
    · rw [heq]
      exact ⟨hcode.append (.instr (Instr.isStraight_assign (.inl (hvalue _)) _ _)), rfl⟩
  | binary op left right span ihl ihr =>
    intro arrays use n
    obtain ⟨hl, hr⟩ := h.append
    have hless : op = .less → (l.typeOf (.binary op left right span)).isReference = false :=
      fun hop ↦ l.isReference_typeOf_binary (.inr (.inr hop)) left right span
    rw [l.expr_binary]
    cases op with
    | and | or => exact structured_shortCircuit (ihl hl _ _ _) (ihr hr _ _ _) _ _ _
    | _ => exact structured_operation (ihl hl _ _ _) (ihr hr _ _ _) hless _ _
  | call receiver method args span ihr iha =>
    intro arrays use n
    obtain ⟨hfirst, hargs⟩ := h.append
    obtain ⟨hcode, ho⟩ := structured_asOperand (ihr hfirst.append.2 arrays .operand) n
    obtain ⟨hmore, hos⟩ := l.structured_callArgs
      (fun e he ↦ iha e he (hargs.exprs e he)) (l.formals receiver method) arrays
      (asOperand (l.expr receiver .operand) n).2
    rw [l.expr_call]
    exact l.structured_finishCall (hcode.append hmore) _ ho
      (fun h ↦ (l.isClass_operand receiver n).trans (Site.namesImport_unparen h)) _ hos _ _
  | newArray element size span ih =>
    intro arrays _ n
    obtain ⟨hcode, ho⟩ := structured_asOperand (ih h arrays .operand) n
    rw [Lowerer.expr]
    exact ⟨hcode, by
      simp [Instr.isComputation, Call.isFormed, Call.suitsKind, Call.newArray, Operand.isFormed,
        Operand.isClass, Ty.intArray, Ty.isReference, ho]⟩
  | newObject className span =>
    intro arrays _ n
    have halloc : (Instr.call (Call.newObject className)).isComputation this = true := rfl
    rw [Lowerer.expr]
    exact ⟨(structured_materialize arrays (.inl halloc) n).1.append (.instr rfl), rfl⟩
  | length array span ih =>
    intro arrays use n
    rw [l.expr_length]
    exact structured_stored (structured_asVar (ih h arrays .operand) n) (.inl rfl) _

/-! ## Statements -/

/-- The code of an assignment is structured, where it may store to one array. -/
theorem structured_assign {target value : Expr} {span : Span}
    (h : l.Allows this (l.checker.stmt (.assign target value span))) (n : Names) :
    ∃ arrays, Structured this arrays (l.assign target value n).1 := by
  obtain ⟨hfirst, hvalue⟩ := h.append
  obtain ⟨hchecks, htarget⟩ := hfirst.append
  cases target with
  | ident name s =>
    refine ⟨[], ?_⟩
    rw [Lowerer.assign]
    dsimp only
    split
    · -- in a static method the assignment would have been reported
      rename_i hfield
      have hthis : this = true := by
        refine hchecks.append.1.resolve_right ?_
        rintro ⟨hstatic, hnil⟩
        simp [Checker.staticAssignment, Checker.targetName, Expr.identifier?, checker, hstatic,
          hfield] at hnil
      obtain ⟨hcode, ho⟩ := structured_asOperand (l.structured_expr value hvalue []
        (.expected (l.typeOf (.ident name s)))) n
      exact hcode.append (.instr (Bool.and_eq_true_iff.mpr ⟨hthis, ho⟩))
    · obtain ⟨hcode, hv⟩ :=
        l.structured_expr value hvalue [] (.assign (l.typeOf (.ident name s))) n
      exact hcode.append (.instr (Instr.isStraight_assign (.inl hv) _ _))
  | index array position s =>
    obtain ⟨ha, hp⟩ := htarget.append
    let arrays := [(asVar (l.expr array .operand) n).1.2.1]
    have harray := structured_asVar (l.structured_expr array ha arrays .operand) n
    obtain ⟨hposition, hindex⟩ := structured_asOperand
      (l.structured_expr position hp arrays .operand) (asVar (l.expr array .operand) n).2
    obtain ⟨hcode, hv⟩ := l.structured_expr value hvalue arrays
      (.assign (asVar (l.expr array .operand) n).1.2.2.elementOrInt)
      (asOperand (l.expr position .operand) (asVar (l.expr array .operand) n).2).2
    exact ⟨arrays, ((harray.append hposition).append hcode).append
      (.store List.mem_cons_self hindex hv)⟩
  | _ => exact ⟨[], (l.structured_expr value hvalue [] .operand n).1⟩

/-- The code of an expression as a statement is structured. -/
theorem structured_exprStmt {e : Expr} (h : l.Allows this (l.checker.expr e)) (n : Names) :
    Structured this [] (l.exprStmt e n).1 := by
  obtain ⟨hcode, hvalue⟩ := l.structured_expr e h [] .statement n
  rw [Lowerer.exprStmt]
  simp only [Draw.bind_apply, Draw.pure_apply]
  split
  · rename_i hcall
    refine hcode.append (.instr ?_)
    generalize (l.expr e .statement n).1.value = v at hcall hvalue
    cases v with
    | call c => exact hvalue
    | _ => cases hcall
  · exact hcode

theorem isFormed_stmts {sts : List Stmt}
    (ih : ∀ st ∈ sts, l.Allows this (l.checker.stmt st) → ∀ n,
      ∀ i ∈ instrsOf (l.stmt st n).1, i.isFormed this l.returnType = true)
    (h : l.Allows this (l.checker.stmts sts)) (n : Names) :
    ∀ i ∈ instrsOf (l.stmts sts n).1, i.isFormed this l.returnType = true := by
  induction sts generalizing n with
  | nil => exact fun i hi ↦ absurd hi List.not_mem_nil
  | cons st sts ihs =>
    obtain ⟨hst, hsts⟩ := h.append
    have hfirst := ih st List.mem_cons_self hst n
    have hrest := ihs (fun st' h ↦ ih st' (List.mem_cons_of_mem st h)) hsts (l.stmt st n).2
    rw [Lowerer.stmts]
    simp only [Draw.bind_apply, Draw.pure_apply, instrsOf_append]
    exact List.forall_mem_append.mpr ⟨hfirst, hrest⟩

/-- The instructions of a statement have the forms of lowering. -/
theorem isFormed_stmt (st : Stmt) (h : l.Allows this (l.checker.stmt st)) :
    ∀ n, ∀ i ∈ instrsOf (l.stmt st n).1, i.isFormed this l.returnType = true := by
  have hgoto : ∀ label, (Instr.goto label).isFormed this l.returnType = true := fun _ ↦ rfl
  induction st with
  | assign target value span =>
    intro n
    obtain ⟨_, hcode⟩ := l.structured_assign h n
    exact hcode.isFormed l.returnType
  | expr e span => exact fun n ↦ (l.structured_exprStmt h n).isFormed l.returnType
  | ret value span =>
    intro n
    cases value with
    | none => exact List.forall_mem_singleton.mpr rfl
    | some e =>
      obtain ⟨hcode, ho⟩ := structured_asOperand (l.structured_expr e h.append.2 [] .operand) n
      have hret : (Instr.ret l.returnType
          (some (asOperand (l.expr e .operand) n).1.2)).isFormed this l.returnType = true :=
        Bool.and_eq_true_iff.mpr ⟨decide_eq_true rfl, ho⟩
      rw [Lowerer.stmt, Lowerer.ret]
      simp only [Draw.bind_apply, Draw.pure_apply, instrsOf_append]
      exact List.forall_mem_append.mpr
        ⟨hcode.isFormed l.returnType, List.forall_mem_singleton.mpr hret⟩
  | cond test thenBranch elseBranch span iht ihe =>
    intro n
    obtain ⟨hfirst, helse⟩ := h.append
    obtain ⟨htest, hthen⟩ := hfirst.append
    obtain ⟨bodyLabel, endLabel, n₁, n₂, n₃, heq⟩ := l.stmt_cond test thenBranch elseBranch span n
    obtain ⟨hcode, hvalue⟩ := l.structured_expr test htest.append.2 [] .condition n₁
    rw [heq, diamond]
    simp only [instrsOf_instr, instrsOf_append, instrsOf_label, List.forall_mem_cons,
      List.forall_mem_append]
    exact ⟨hcode.isFormed _, hvalue, l.isFormed_stmts ihe helse n₂, hgoto _,
      l.isFormed_stmts iht hthen n₃, fun i hi ↦ absurd hi List.not_mem_nil⟩
  | loop test body span ih =>
    intro n
    obtain ⟨htest, hbody⟩ := h.append
    obtain ⟨bodyLabel, endLabel, n₁, heq⟩ := l.stmt_loop test body span n
    obtain ⟨hcode, hvalue⟩ := l.structured_expr test htest.append.2 [] .condition n
    rw [heq]
    simp only [instrsOf_instr, instrsOf_append, instrsOf_label, List.forall_mem_cons,
      List.forall_mem_append]
    exact ⟨hcode.isFormed _, hvalue, hgoto _, l.isFormed_stmts ih hbody n₁, hvalue,
      fun i hi ↦ absurd hi List.not_mem_nil⟩

/-- **The instructions of a lowered method have the forms of lowering.** -/
theorem isFormed_method (h : l.Allows this l.checker.body) (n : Names) :
    ∀ i ∈ (l.method n).1.instrs, i.isFormed this l.returnType = true := by
  have hbody := l.isFormed_stmts (fun st _ ↦ l.isFormed_stmt st) h n
  rw [instrs_method, code, instrsOf_append]
  refine List.forall_mem_append.mpr ⟨hbody, ?_⟩
  cases l.decl.hasReturn with
  | true => exact fun i hi ↦ absurd hi List.not_mem_nil
  | false => exact List.forall_mem_singleton.mpr rfl

end Lowerer
end Jmm.Ollir
