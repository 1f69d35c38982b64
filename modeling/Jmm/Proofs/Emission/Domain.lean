import Jmm.Proofs.Emission.Faults
import Jmm.Proofs.Typing.LoweredTypes

/-!
# The domain of compilation

A class that the analysis accepts need not compile.  Which ones do can be said of the source alone:
`Lowerer.emits` tests the statements of a method, `Lowerer.loads` the expressions whose values are
used and `Lowerer.drops` those whose values are not.  An expression fails the test

* if the name of an import is loaded as a value: anywhere but as the receiver of a call, and but
  where the only operation that would load it is left out because its value is not used;
* if a method is called on a value without a class, such as the result of a call to an import;
* if a call whose type is `void` is stored where `void` is expected;
* if an object of a class named `array` is allocated.

The accepted programs that compile are exactly those whose methods all pass, and the faults of the
others are the four that these cases give (`Analysis.fault_cases`).
-/

set_option autoImplicit false

namespace Jmm.Ollir

open Instr (isEmittable stepsInt)

namespace Lowerer

/-! ## The test -/

/-- Whether an expression is the name of an import, in parentheses or not. -/
def namesClass (l : Lowerer) : Expr → Bool
  | .ident name _ => l.table.isImport name
  | .paren inner _ => l.namesClass inner
  | _ => false

mutual

/-- Whether the value of an expression can be computed for a use. -/
def loads (l : Lowerer) : Expr → Use → Bool
  | .int _ _, _ => true
  | .bool _ _, _ => true
  | .ident name _, _ => !l.table.isImport name
  | .self _, _ => true
  | .paren inner _, use => l.loads inner use.inParens
  | .arrayLit elements _, _ => l.loadsAll .int32 elements
  | .not operand _, _ => l.loads operand .operand
  | .index array position _, _ => l.loads array .operand && l.loads position .operand
  | .binary _ left right _, _ => l.loads left .operand && l.loads right .operand
  | .call receiver method args span, use =>
    (l.namesClass receiver || l.loads receiver .operand && (l.operandType receiver).isNamed)
      && (match l.packedType? (l.formals receiver method) args with
        | some element => l.loadsAll element args
        | none => l.loadsArgs (l.formals receiver method) 0 args)
      && (use = .statement || l.callType (.call receiver method args span) use ≠ .void)
  | .newArray _ size _, _ => l.loads size .operand
  | .newObject className _, _ => className ≠ Call.arrayClass
  | .length array _, _ => l.loads array .operand

/-- Whether the values of expressions can be stored in an array of the element type. -/
def loadsAll (l : Lowerer) (element : Ty) : List Expr → Bool
  | [] => true
  | e :: es => l.loads e (.expected element) && l.loadsAll element es

/-- Whether the arguments of a call from a position on can be computed. -/
def loadsArgs (l : Lowerer) (formals : List (Ty × Bool)) : Nat → List Expr → Bool
  | _, [] => true
  | position, e :: es =>
    l.loads e (argUse formals position) && l.loadsArgs formals (position + 1) es

end

/-- Whether an expression can be run without using its value.  The last operation is left out then,
unless it is a call or an allocation that stands as a statement. -/
def drops (l : Lowerer) : Expr → Use → Bool
  | .ident _ _, _ => true
  | .paren inner _, use => l.drops inner use
  | .not operand _, _ => l.namesClass operand || l.loads operand .operand
  | .newArray _ size _, use =>
    (use ≠ .statement && l.namesClass size) || l.loads size .operand
  | e, use => l.loads e use

/-- Whether an assignment can be emitted. -/
def assigns (l : Lowerer) (target value : Expr) : Bool :=
  match target with
  | .ident name _ =>
    if l.scopes.isField name l.decl.name then l.loads value (.expected (l.typeOf target))
    else l.loads value (.assign (l.typeOf target))
  | .index array position _ =>
    l.loads array .operand && l.loads position .operand
      && l.loads value (.assign (l.operandType array).elementOrInt)
  | _ => l.drops value .operand

mutual

/-- Whether a statement can be emitted. -/
def emits (l : Lowerer) : Stmt → Bool
  | .assign target value _ => l.assigns target value
  | .expr e _ => l.drops e .statement
  | .ret none _ => true
  | .ret (some e) _ => l.loads e .operand
  | .cond test thenBranch elseBranch _ =>
    l.loads test .condition && l.emitsAll thenBranch && l.emitsAll elseBranch
  | .loop test body _ => l.loads test .condition && l.emitsAll body

/-- Whether statements can be emitted. -/
def emitsAll (l : Lowerer) : List Stmt → Bool
  | [] => true
  | s :: ss => l.emits s && l.emitsAll ss

end

end Lowerer

/-! ## Code that can be emitted -/

section Emittable

@[simp] theorem Instr.isEmittable_assignVar (name : String) (type t : Ty) (value : Instr) :
    (assign (.var name type) t value).isEmittable
      = (value.isValue && stepIsInt (.var name type) value) := rfl

@[simp] theorem Instr.isValue_single (o : Operand) : (Instr.single o).isValue = o.isLoadable := rfl

@[simp] theorem Instr.isValue_newArray (length : Operand) (element : Ty) :
    (Instr.call (Call.newArray length (.array element))).isValue = length.isLoadable := rfl

theorem isValue_newObject (className : String) :
    (Instr.call (Call.newObject className)).isValue = decide (className ≠ Call.arrayClass) := by
  by_cases h : className = Call.arrayClass <;>
    simp [Instr.isValue, Call.newObject, Call.isEmittable, Call.isNewArray, Operand.isClass, h]

end Emittable

theorem Operand.isClass_of_isLoadable {o : Operand} (h : o.isLoadable = true) :
    o.isClass = false := by
  cases o with
  | classRef name => exact nomatch h
  | _ => rfl

theorem stepIsInt_of_int {name : String} {type : Ty} {value : Instr}
    (h : type = .int32 → stepIsInt (.var name .int32) value = true) :
    stepIsInt (.var name type) value = true := by
  cases type with
  | int32 => exact h rfl
  | _ => rfl

/-- Whether an instruction can be emitted for the use that is made of its value. -/
def Instr.isUsable (i : Instr) (use : Use) : Bool :=
  if use = .statement then i.isEmittable else i.isValue

theorem Instr.isUsable_single (o : Operand) (use : Use) :
    (Instr.single o).isUsable use = o.isLoadable := ite_self _

/-- The code of an expression whose value is not used.  As a statement it keeps a call. -/
def Lowered.dropped (x : Lowered) (use : Use) : List Item :=
  if use = .statement ∧ x.value.isCall = true then x.code ++ [.instr x.value] else x.code

theorem Lowered.dropped_of_isCall {x : Lowered} (h : x.value.isCall = false) (use : Use) :
    x.dropped use = x.code :=
  if_neg fun hcall ↦ Bool.false_ne_true (h.symm.trans hcall.2)

theorem emittable_dropped_call (code : List Item) (c : Call) :
    every isEmittable (Lowered.dropped ⟨code, .call c⟩ .statement)
      = (every isEmittable code && c.isEmittable) := by
  rw [Lowered.dropped, if_pos ⟨rfl, rfl⟩, every_append, every_instr, every_nil,
    Bool.and_true]
  rfl

namespace Lowerer

variable (l : Lowerer)

/-- What the test says about an expression, of its lowered form. -/
structure Loads (e : Expr) (use : Use) (x : Lowered) : Prop where
  value : (every isEmittable x.code && x.value.isUsable use) = l.loads e use
  dropped : use = .operand ∨ use = .statement → every isEmittable (x.dropped use) = l.drops e use
  /-- An operand is no element, and a class only if the expression names one. -/
  operand : l.namesClass e = false → use.isInline = false → ∀ o, x.value = .single o →
    o.isLoadable = true
  /-- A literal other than an integer is a truth value. -/
  literal : ∀ k t, x.value = .single (.literal k t) → t = .int32 ∨ l.site.typeOf e = .boolean
  /-- No truth value is added to a variable or taken away from it. -/
  step : x.value.resultType = .int32 ∨ l.site.typeOf e ≠ .error →
    ∀ name, stepIsInt (.var name .int32) x.value = true
  steps : every stepsInt x.code = true

/-- What the test says about an expression, of the operand its value is stored in and of all code
before it. -/
structure LoadsOperand (e : Expr) (use : Use) (code : List Item) (o : Operand) : Prop where
  emittable : every isEmittable code = (l.namesClass e || l.loads e use)
  loadable : o.isLoadable = !l.namesClass e
  isClass : o.isClass = l.namesClass e
  literal : ∀ k t, o = .literal k t → t = .int32 ∨ l.site.typeOf e = .boolean
  steps : every stepsInt code = true

variable {l} {e : Expr} {use : Use}

/-- The name of an import is lowered to its class. -/
theorem expr_of_namesClass (h : l.namesClass e = true) :
    ∃ name, ∀ use n, (l.expr e use n).1 = .ofOperand (.classRef name) := by
  induction e with
  | ident name span =>
    have himport : l.table.isImport name = true := h
    exact ⟨name, fun use n ↦ by rw [expr, ident, if_pos himport]; rfl⟩
  | paren inner span ih =>
    obtain ⟨name, hname⟩ := ih h
    exact ⟨name, fun use n ↦ hname use.inParens n⟩
  | _ => cases h

theorem loads_of_namesClass (h : l.namesClass e = true) (use : Use) : l.loads e use = false := by
  induction e generalizing use with
  | ident name span =>
    have himport : l.table.isImport name = true := h
    simp [loads, himport]
  | paren inner span ih => exact ih h use.inParens
  | _ => exact nomatch h

theorem LoadsOperand.value {code : List Item} {o : Operand} (h : l.LoadsOperand e use code o) :
    (every isEmittable code && o.isLoadable) = l.loads e use := by
  rw [h.emittable, h.loadable]
  cases hclass : l.namesClass e with
  | true => rw [loads_of_namesClass hclass]; rfl
  | false => simp

/-- The value of an expression can be stored in a temporary if it can be computed. -/
theorem Loads.materialize {n : Names} (h : l.Loads e use (l.expr e use n).1)
    (hinline : use.isInline = false) (hstmt : use ≠ .statement) (n' : Names) :
    l.LoadsOperand e use
      ((l.expr e use n).1.code ++ (materialize (l.expr e use n).1.value n').1.1)
      (materialize (l.expr e use n).1.value n').1.2 := by
  cases hnames : l.namesClass e with
  | true =>
    obtain ⟨name, heq⟩ := expr_of_namesClass hnames
    rw [heq]
    exact ⟨by rw [hnames]; rfl, by rw [hnames]; rfl, hnames.symm,
      fun _ _ h ↦ Operand.noConfusion h, rfl⟩
  | false =>
    generalize (l.expr e use n).1 = x at h ⊢
    have hvalue := h.value
    rw [Instr.isUsable, if_neg hstmt] at hvalue
    rcases materialize_cases x.value n' with ⟨o, ho, heq⟩ | ⟨_, heq⟩
    · have hloadable := h.operand hnames hinline o ho
      rw [ho, Instr.isValue, hloadable, Bool.and_true] at hvalue
      rw [heq]
      refine ⟨by simp [hnames, hvalue], by simp [hnames, hloadable],
        by rw [hnames, Operand.isClass_of_isLoadable hloadable],
        fun k t hk ↦ h.literal k t (hk ▸ ho), by simp [h.steps]⟩
    · have hstep : ∀ name, stepIsInt (.var name x.value.resultType) x.value = true := fun name ↦
        stepIsInt_of_int fun htype ↦ h.step (.inl htype) name
      rw [heq]
      exact ⟨by simp [hnames, hvalue, hstep], by rw [hnames]; rfl, hnames.symm,
        fun _ _ h ↦ Operand.noConfusion h, by simp [h.steps, hstep]⟩

theorem loadsOperand_asOperand (h : ∀ n, l.Loads e use (l.expr e use n).1)
    (hinline : use.isInline = false) (hstmt : use ≠ .statement) (n : Names) :
    l.LoadsOperand e use (asOperand (l.expr e use) n).1.1 (asOperand (l.expr e use) n).1.2 :=
  (h n).materialize hinline hstmt _

theorem loadsOperand_operand (h : ∀ n, l.Loads e .operand (l.expr e .operand n).1) (n : Names) :
    l.LoadsOperand e .operand (asOperand (l.expr e .operand) n).1.1
      (asOperand (l.expr e .operand) n).1.2 :=
  loadsOperand_asOperand h rfl nofun n

theorem loadsOperand_expected {t : Ty}
    (h : ∀ n, l.Loads e (.expected t) (l.expr e (.expected t) n).1) (n : Names) :
    l.LoadsOperand e (.expected t) (asOperand (l.expr e (.expected t)) n).1.1
      (asOperand (l.expr e (.expected t)) n).1.2 :=
  loadsOperand_asOperand h rfl nofun n

/-- The value of an expression as a variable. -/
theorem emittable_asVar (h : ∀ n, l.Loads e .operand (l.expr e .operand n).1) (n : Names) :
    every isEmittable (asVar (l.expr e .operand) n).1.1 = l.loads e .operand
      ∧ every stepsInt (asVar (l.expr e .operand) n).1.1 = true := by
  have hoperand := loadsOperand_operand h n
  have hvalue := hoperand.value
  rcases asVar_cases (l.expr e .operand) n with ⟨name, t, ho, heq⟩ | ⟨_, heq⟩
  · rw [ho] at hvalue
    rw [heq]
    exact ⟨(Bool.and_true _).symm.trans hvalue, hoperand.steps⟩
  · rw [heq]
    refine ⟨?_, by simp [hoperand.steps, stepIsInt]⟩
    rw [every_append, ← hvalue]
    simp [stepIsInt]

/-! ## Sequences of expressions -/

theorem emittable_stores {es : List Expr} (h : ∀ e ∈ es, ∀ use n, l.Loads e use (l.expr e use n).1)
    (array : String) (element : Ty) (position : Nat) (n : Names) :
    every isEmittable (l.stores array element position es n).1 = l.loadsAll element es
      ∧ every stepsInt (l.stores array element position es n).1 = true := by
  induction es generalizing position n with
  | nil => exact ⟨rfl, rfl⟩
  | cons e es ih =>
    rw [Lowerer.stores, loadsAll]
    have hfirst := loadsOperand_expected (h e List.mem_cons_self (.expected element)) n
    obtain ⟨hrest, hsteps⟩ := ih (fun e' he' ↦ h e' (List.mem_cons_of_mem e he')) (position + 1)
      (asOperand (l.expr e (.expected element)) n).2
    simp only [Draw.bind_apply, Draw.pure_apply, every_append, every_instr, hrest, hsteps,
      hfirst.steps, ← hfirst.value]
    simp [isEmittable, stepsInt, stepIsInt, Operand.int, Operand.isLoadable, Bool.and_assoc]

theorem emittable_args {es : List Expr} (h : ∀ e ∈ es, ∀ use n, l.Loads e use (l.expr e use n).1)
    (formals : List (Ty × Bool)) (position : Nat) (n : Names) :
    (every isEmittable (l.args formals position es n).1.1
        && (l.args formals position es n).1.2.all Operand.isLoadable)
        = l.loadsArgs formals position es
      ∧ every stepsInt (l.args formals position es n).1.1 = true := by
  induction es generalizing position n with
  | nil => exact ⟨rfl, rfl⟩
  | cons e es ih =>
    obtain ⟨hinline, hstmt⟩ : (argUse formals position).isInline = false
        ∧ argUse formals position ≠ .statement := by
      rcases argUse_cases formals position with huse | ⟨t, huse⟩ <;> rw [huse] <;>
        exact ⟨rfl, nofun⟩
    have hfirst := loadsOperand_asOperand (h e List.mem_cons_self (argUse formals position))
      hinline hstmt n
    obtain ⟨hrest, hsteps⟩ := ih (fun e' he' ↦ h e' (List.mem_cons_of_mem e he')) (position + 1)
      (asOperand (l.expr e (argUse formals position)) n).2
    rw [Lowerer.args, loadsArgs, ← hfirst.value, ← hrest]
    simp only [Draw.bind_apply, Draw.pure_apply, every_append, List.all_cons, hfirst.steps, hsteps]
    exact ⟨by ac_rfl, rfl⟩

theorem emittable_packed {es : List Expr}
    (h : ∀ e ∈ es, ∀ use n, l.Loads e use (l.expr e use n).1) (element : Ty) (n : Names) :
    ∃ code name, (packed es.length element (fun name ↦ l.stores name element 0 es) n).1
        = ⟨code, .single (.var name (.array element))⟩
      ∧ every isEmittable code = l.loadsAll element es ∧ every stepsInt code = true := by
  have hstores := fun name ↦ emittable_stores h name element 0
  by_cases hlength : es.length = 0
  · have hnone : l.loadsAll element es = true := by
      rw [List.length_eq_zero_iff.mp hlength]
      rfl
    simp only [packed, if_pos hlength, Draw.bind_apply, Draw.pure_apply]
    refine ⟨_, _, rfl, ?_⟩
    simp [hnone, stepsInt, stepIsInt, Operand.int, Operand.isLoadable]
  · simp only [packed, if_neg hlength, Draw.bind_apply, Draw.pure_apply]
    refine ⟨_, _, rfl, ?_⟩
    simp [hstores, stepsInt, stepIsInt, Operand.int, Operand.isLoadable]

theorem emittable_callArgs {es : List Expr}
    (h : ∀ e ∈ es, ∀ use n, l.Loads e use (l.expr e use n).1) (formals : List (Ty × Bool))
    (n : Names) :
    ((every isEmittable (l.callArgs formals es n).1.1
        && (l.callArgs formals es n).1.2.all Operand.isLoadable)
        = match l.packedType? formals es with
          | some element => l.loadsAll element es
          | none => l.loadsArgs formals 0 es)
      ∧ every stepsInt (l.callArgs formals es n).1.1 = true := by
  rw [callArgs]
  cases l.packedType? formals es with
  | none => exact emittable_args h formals 0 n
  | some element =>
    obtain ⟨code, name, heq, hcode, hsteps⟩ := emittable_packed h element n
    simp [asOperand_apply, heq, hcode, hsteps, Ollir.materialize, Operand.isLoadable]

/-! ## Operations -/

/-- A value that is an operand, and neither an element nor a class. -/
theorem Loads.of_operand {code : List Item} {o : Operand}
    (hcode : every isEmittable code = l.loads e use) (hsteps : every stepsInt code = true)
    (hdrops : l.drops e use = l.loads e use) (ho : o.isLoadable = true)
    (hliteral : ∀ k t, o = .literal k t → t = .int32 ∨ l.site.typeOf e = .boolean) :
    l.Loads e use ⟨code, .single o⟩ where
  value := by rw [hcode, Instr.isUsable_single, ho, Bool.and_true]
  dropped _ := by
    rw [hdrops, Lowered.dropped_of_isCall rfl]
    exact hcode
  operand _ _ _ h := Instr.single.inj h ▸ ho
  literal k t h := hliteral k t (Instr.single.inj h)
  step _ _ := rfl
  steps := hsteps

/-- A value that is in a variable. -/
theorem Loads.of_var {code : List Item} {name : String} {type : Ty}
    (hcode : every isEmittable code = l.loads e use) (hsteps : every stepsInt code = true)
    (hdrops : l.drops e use = l.loads e use) : l.Loads e use ⟨code, .single (.var name type)⟩ :=
  .of_operand hcode hsteps hdrops rfl nofun

theorem binaryType_ne_error {op : BinOp} {left right : Jmm.Ty} (hop : op = .add ∨ op = .sub)
    (h : Site.binaryType op left right ≠ .error) : left ≠ .boolean ∧ right ≠ .boolean := by
  have heq : Site.binaryType op left right
      = if (left = right ∧ left.isArray = false) ∧ left ≠ .boolean then left else .error := by
    rcases hop with rfl | rfl <;> rfl
  rw [heq] at h
  split at h
  · rename_i hsame
    exact ⟨hsame.2, hsame.1.1 ▸ hsame.2⟩
  · exact absurd rfl h

/-- Where an operation has a type, it has no truth value for an operand. -/
theorem stepIsInt_binary {op : BinOp} {left right : Expr} {x y : Operand} {type : Ty}
    (hx : ∀ k t, x = .literal k t → t = .int32 ∨ l.site.typeOf left = .boolean)
    (hy : ∀ k t, y = .literal k t → t = .int32 ∨ l.site.typeOf right = .boolean)
    (h : Site.binaryType op (l.site.typeOf left) (l.site.typeOf right) ≠ .error) (name : String) :
    stepIsInt (.var name .int32) (.binary op x y type) = true := by
  rw [stepIsInt]
  split
  · rename_i k t negated hstep
    rw [decide_eq_true_iff]
    rcases Jasmin.stepOf_cases hstep with ⟨rfl, _, rfl, _⟩ | ⟨rfl, rfl, _, _⟩ | ⟨rfl, _, rfl, _⟩
    · exact (hy k t rfl).resolve_right (binaryType_ne_error (.inl rfl) h).2
    · exact (hx k t rfl).resolve_right (binaryType_ne_error (.inl rfl) h).1
    · exact (hy k t rfl).resolve_right (binaryType_ne_error (.inr rfl) h).2
  · rfl

theorem typeOf_binary_error {op : BinOp} {left right : Expr} {span : Span}
    (h : l.site.typeOf (.binary op left right span) = .error) :
    l.typeOf (.binary op left right span) = .void := by
  rw [Lowerer.typeOf, h]
  rfl

/-- An operation can be emitted if both operands can be loaded. -/
theorem loads_operation {left right : Expr} {a b : Lowered} {n : Names} (op : BinOp) (span : Span)
    (hleft : l.LoadsOperand left .operand (a.code ++ (Ollir.materialize a.value n).1.1)
      (Ollir.materialize a.value n).1.2)
    (hright : l.LoadsOperand right .operand
      (b.code ++ (Ollir.materialize b.value (Ollir.materialize a.value n).2).1.1)
      (Ollir.materialize b.value (Ollir.materialize a.value n).2).1.2) (inline : Bool)
    (hinline : inline = true → use.isInline = true) :
    l.Loads (.binary op left right span) use
      (operation op a b (l.typeOf (.binary op left right span)) inline n).1 := by
  obtain ⟨code, x, y, n', hcode, hx, hy, -, heq⟩ :=
    operation_apply op a b (l.typeOf (.binary op left right span)) inline n
  rw [← hx] at hleft
  rw [← hy] at hright
  have hstep : l.site.typeOf (.binary op left right span) ≠ .error → ∀ name,
      stepIsInt (.var name .int32) (.binary op x y (l.typeOf (.binary op left right span)))
        = true :=
    fun htype ↦ stepIsInt_binary hleft.literal hright.literal htype
  have hint : l.typeOf (.binary op left right span) = .int32 →
      l.site.typeOf (.binary op left right span) ≠ .error := fun hint herror ↦ by
    rw [typeOf_binary_error herror] at hint
    exact nomatch hint
  have hvalue : (every isEmittable code && (x.isLoadable && y.isLoadable))
      = l.loads (.binary op left right span) use := by
    rw [loads, ← hleft.value, ← hright.value, hcode]
    simp only [every_append]
    ac_rfl
  have hsteps : every stepsInt code = true := by
    rw [hcode, List.append_assoc, every_append, hleft.steps, hright.steps]
    rfl
  rw [heq]
  cases inline with
  | true =>
    have hinline : use.isInline = true := hinline rfl
    refine ⟨?_, fun huse ↦ ?_, fun _ _ ↦ nofun, nofun, fun h ↦ ?_, hsteps⟩
    · rw [← hvalue]
      exact congrArg _ (ite_self _)
    · rcases huse with rfl | rfl <;> exact nomatch hinline
    · exact hstep (h.elim hint id)
  | false =>
    have hstored : ∀ name, stepIsInt (.var name (l.typeOf (.binary op left right span)))
        (.binary op x y (l.typeOf (.binary op left right span))) = true := fun name ↦
      stepIsInt_of_int fun htype ↦ hstep (hint htype) name
    refine Loads.of_var ?_ (by simp [Instr.resultType, hsteps, hstored]) rfl
    rw [← hvalue]
    simp [Instr.resultType, Instr.isValue, hstored]

theorem typeOf_logical {op : BinOp} (hop : op = .and ∨ op = .or) (left right : Expr) (span : Span) :
    l.typeOf (.binary op left right span) ≠ .int32 := by
  have heq : l.site.typeOf (.binary op left right span)
      = if (l.site.typeOf left = l.site.typeOf right ∧ (l.site.typeOf left).isArray = false)
          ∧ l.site.typeOf left = .boolean then l.site.typeOf left else .error := by
    rcases hop with rfl | rfl <;> rfl
  rw [Lowerer.typeOf, heq]
  split
  · rename_i hsame
    rw [hsame.2]
    exact fun h ↦ Ty.noConfusion h
  · exact fun h ↦ Ty.noConfusion h

/-- `&&` and `||` can be emitted if both operands can be loaded. -/
theorem loads_shortCircuit {left right : Expr} {a b : Lowered} (hleft : l.Loads left .operand a)
    (hright : l.Loads right .operand b) {op : BinOp} (hop : op = .and ∨ op = .or) (span : Span)
    (isOr : Bool) (n : Names) :
    l.Loads (.binary op left right span) use
      (shortCircuit a b (l.typeOf (.binary op left right span)) isOr n).1 := by
  have hstep : ∀ name value, stepIsInt (.var name (l.typeOf (.binary op left right span))) value
      = true := fun name value ↦
    stepIsInt_of_int fun h ↦ absurd h (typeOf_logical hop left right span)
  have hvalue : (every isEmittable a.code && a.value.isValue) = l.loads left .operand :=
    hleft.value
  have hvalue' : (every isEmittable b.code && b.value.isValue) = l.loads right .operand :=
    hright.value
  obtain ⟨_, _, _, -, -, -, heq⟩ :=
    shortCircuit_apply a b (l.typeOf (.binary op left right span)) isOr n
  rw [heq]
  refine Loads.of_var ?_ ?_ rfl
  · rw [loads, ← hvalue, ← hvalue']
    cases isOr <;>
      simp [hstep, isEmittable, Operand.bool, Operand.isLoadable, Bool.and_assoc]
  · cases isOr <;> simp [hstep, stepsInt, hleft.steps, hright.steps]

/-! ## Calls -/

theorem isNamed_operandType_of_namesClass (h : l.namesClass e = true) :
    (l.operandType e).isNamed = true := by
  induction e with
  | ident name span =>
    have himport : l.table.isImport name = true := h
    rw [operandType, if_pos himport]
    rfl
  | paren inner span ih => exact ih h
  | _ => cases h

/-- A call can be emitted if its receiver and its arguments can, where the receiver is a class or
has one. -/
theorem loads_finishCall {receiver : Expr} {method : String} {args : List Expr}
    {code argCode : List Item} {caller : Operand} {operands : List Operand}
    (hcaller : l.LoadsOperand receiver .operand code caller)
    (htype : caller.type = l.operandType receiver)
    (hargs : (every isEmittable argCode && operands.all Operand.isLoadable)
      = match l.packedType? (l.formals receiver method) args with
        | some element => l.loadsAll element args
        | none => l.loadsArgs (l.formals receiver method) 0 args)
    (hsteps : every stepsInt argCode = true) (span : Span) (use : Use) (n : Names) :
    l.Loads (.call receiver method args span) use
      (l.finishCall (.call receiver method args span) (l.site.namesImport receiver)
        (code ++ argCode) caller method operands use n).1 := by
  -- Both kinds of call are emitted alike: a receiver that is no class can be loaded.
  have hcall : ∀ kind returns, kind = .virtual ∨ kind = .static →
      (every isEmittable (code ++ argCode) && Call.isEmittable
          { kind, caller, method := some method, args := operands, returns }
        && (use = .statement || l.callType (.call receiver method args span) use ≠ .void))
        = l.loads (.call receiver method args span) use := by
    intro kind returns hkind
    have hemit : Call.isEmittable { kind, caller, method := some method, args := operands, returns }
        = (operands.all Operand.isLoadable && (l.operandType receiver).isNamed) := by
      rcases hkind with rfl | rfl <;>
        simp [Call.isEmittable, hcaller.isClass, hcaller.loadable, htype]
    rw [loads, ← hargs, hemit, every_append, hcaller.emittable]
    cases hclass : l.namesClass receiver with
    | true => simp [isNamed_operandType_of_namesClass hclass]
    | false =>
      rw [Bool.false_or, Bool.false_or]
      ac_rfl
  rw [finishCall]
  by_cases huse : use = .statement
  · subst huse
    rw [if_pos rfl]
    have hkept : ∀ kind returns, kind = .virtual ∨ kind = .static →
        l.Loads (.call receiver method args span) .statement ⟨code ++ argCode,
          .call { kind, caller, method := some method, args := operands, returns }⟩ := by
      intro kind returns hkind
      have hvalue : (every isEmittable (code ++ argCode) && Call.isEmittable
          { kind, caller, method := some method, args := operands, returns })
          = l.loads (.call receiver method args span) .statement :=
        (Bool.and_true _).symm.trans (hcall kind returns hkind)
      exact ⟨hvalue, fun _ ↦ (emittable_dropped_call _ _).trans hvalue,
        fun _ _ _ h ↦ Instr.noConfusion h, fun _ _ h ↦ Instr.noConfusion h, fun _ _ ↦ rfl,
        by simp [hcaller.steps, hsteps]⟩
    cases l.site.namesImport receiver with
    | true => exact hkept .static .void (.inr rfl)
    | false => exact hkept .virtual _ (.inl rfl)
  · rw [if_neg huse]
    refine Loads.of_var ?_ (by simp [hcaller.steps, hsteps, stepIsInt]) rfl
    rw [← hcall .virtual (l.callType (.call receiver method args span) use) (.inl rfl)]
    rw [every_append, every_append, every_assignVar, every_nil, Instr.isEmittable_assignVar,
      stepIsInt_of_int fun _ ↦ rfl, Instr.isValue, decide_eq_false huse, Bool.false_or]
    simp only [Bool.and_true]
    ac_rfl

/-! ## Expressions -/

theorem loads_ident (name : String) (span : Span) (use : Use) (n : Names) :
    l.Loads (.ident name span) use (l.ident name n).1 := by
  rw [ident]
  by_cases himport : l.table.isImport name = true
  · have hclass : l.namesClass (.ident name span) = true := himport
    rw [if_pos himport]
    refine ⟨?_, fun _ ↦ ?_, fun h ↦ ?_,
      fun _ _ h ↦ Operand.noConfusion (Instr.single.inj h), fun _ _ ↦ rfl, rfl⟩
    · rw [loads_of_namesClass hclass]
      exact congrArg _ (Instr.isUsable_single _ _)
    · rw [Lowered.dropped_of_isCall rfl]
      rfl
    · rw [hclass] at h
      cases h
  · have hloads : l.loads (.ident name span) use = true := by simp [loads, himport]
    have hdrops : l.drops (.ident name span) use = l.loads (.ident name span) use := hloads.symm
    rw [if_neg himport]
    split
    · refine Loads.of_var ?_ (by simp [stepIsInt]) hdrops
      rw [hloads]
      simp [stepIsInt, Instr.isValue, receiver, Operand.isLoadable, Operand.type, Ty.isNamed]
    · exact Loads.of_var hloads.symm rfl hdrops

/-- **The test for the value of an expression is exact.** -/
theorem loads_expr (e : Expr) : ∀ use n, l.Loads e use (l.expr e use n).1 := by
  -- Literals and types are carried along for the increments that an operation may become.
  induction e with
  | int value span =>
    exact fun _ _ ↦ .of_operand (by rw [loads]; rfl) rfl rfl rfl fun _ _ h ↦
      .inl (Operand.literal.inj h).2.symm
  | bool value span =>
    exact fun _ _ ↦ .of_operand (by rw [loads]; rfl) rfl rfl rfl fun _ _ _ ↦ .inr rfl
  | ident name span => exact loads_ident name span
  | self span =>
    exact fun _ _ ↦ .of_operand (by rw [loads]; rfl) rfl rfl rfl fun _ _ h ↦
      Operand.noConfusion h
  | paren inner span ih =>
    intro use n
    obtain ⟨hvalue, hdropped, hoperand, hliteral, hstep, hsteps⟩ := ih use.inParens n
    have hinline : use.inParens.isInline = false := by cases use <;> rfl
    have husable : ∀ i : Instr, i.isUsable use.inParens = i.isUsable use := by
      cases use <;> exact fun _ ↦ rfl
    rw [husable] at hvalue
    refine ⟨hvalue, fun huse ↦ ?_, fun hnames _ ↦ hoperand hnames hinline, hliteral, hstep,
      hsteps⟩
    rcases huse with rfl | rfl
    · exact hdropped (.inl rfl)
    · exact hdropped (.inr rfl)
  | arrayLit elements span ih =>
    intro use n
    obtain ⟨code, name, heq, hcode, hsteps⟩ := emittable_packed ih .int32 n
    rw [Lowerer.expr, heq]
    exact Loads.of_var (hcode.trans (by rw [loads])) hsteps rfl
  | not operand span ih =>
    intro use n
    have hoperand := loadsOperand_operand (ih .operand) n
    refine ⟨?_, fun _ ↦ ?_, fun _ _ _ h ↦ Instr.noConfusion h, fun _ _ h ↦ Instr.noConfusion h,
      fun _ _ ↦ rfl, hoperand.steps⟩
    · rw [loads, ← hoperand.value]
      exact congrArg _ (ite_self _)
    · rw [Lowered.dropped_of_isCall rfl]
      exact hoperand.emittable
  | index array position span iha ihp =>
    intro use n
    obtain ⟨harray, hsteps₁⟩ := emittable_asVar (iha .operand) n
    rcases h₁ : asVar (l.expr array .operand) n with ⟨⟨code₁, name, t⟩, n₁⟩
    have hindex := loadsOperand_operand (ihp .operand) n₁
    have hposition := hindex.value
    have hsteps₂ := hindex.steps
    rcases h₂ : asOperand (l.expr position .operand) n₁ with ⟨⟨code₂, index⟩, n₂⟩
    rw [h₁] at harray hsteps₁
    rw [h₂] at hposition hsteps₂
    have hvalue : (every isEmittable (code₁ ++ code₂) && index.isLoadable)
        = l.loads (.index array position span) use := by
      rw [loads, ← hposition, ← harray, every_append, Bool.and_assoc]
    rcases l.expr_index h₁ h₂ span use with ⟨⟨t', rfl⟩, heq⟩ | ⟨_, heq⟩
    · rw [heq]
      exact ⟨hvalue, fun h ↦ h.elim (fun h ↦ Use.noConfusion h) fun h ↦ Use.noConfusion h,
        fun _ h ↦ Bool.noConfusion h, fun _ _ h ↦ Operand.noConfusion (Instr.single.inj h),
        fun _ _ ↦ rfl, by simp [hsteps₁, hsteps₂]⟩
    · rw [heq]
      refine Loads.of_var ?_ (by simp [hsteps₁, hsteps₂, stepIsInt]) rfl
      rw [← hvalue, every_append]
      simp [stepIsInt, Operand.isLoadable]
  | binary op left right span ihl ihr =>
    intro use n
    have hleft := ihl .operand n
    have hright := ihr .operand (l.expr left .operand n).2
    have hoperation : ∀ op, l.Loads (.binary op left right span) use
        (operation op (l.expr left .operand n).1
          (l.expr right .operand (l.expr left .operand n).2).1
          (l.typeOf (.binary op left right span))
          (!left.isBinary && !right.isBinary && use.isInline)
          (l.expr right .operand (l.expr left .operand n).2).2).1 := fun op ↦
      loads_operation op span (hleft.materialize rfl (fun h ↦ Use.noConfusion h) _)
        (hright.materialize rfl (fun h ↦ Use.noConfusion h) _) _
        fun hinline ↦ (Bool.and_eq_true_iff.mp hinline).2
    rw [l.expr_binary]
    cases op with
    | and => exact loads_shortCircuit hleft hright (.inl rfl) span false _
    | or => exact loads_shortCircuit hleft hright (.inr rfl) span true _
    | _ => exact hoperation _
  | call receiver method args span ihr iha =>
    intro use n
    rw [l.expr_call]
    obtain ⟨hargs, hsteps⟩ := emittable_callArgs iha (l.formals receiver method)
      (asOperand (l.expr receiver .operand) n).2
    exact loads_finishCall (loadsOperand_operand (ihr .operand) n)
      ((l.type_operand receiver .operand n).trans (l.valueType_operand receiver)) hargs hsteps span
      use _
  | newArray element size span ih =>
    intro use n
    have hsize := loadsOperand_operand (ih .operand) n
    refine ⟨?_, fun huse ↦ ?_, fun _ _ _ h ↦ Instr.noConfusion h,
      fun _ _ h ↦ Instr.noConfusion h, fun _ _ ↦ rfl, hsize.steps⟩
    · rw [loads, ← hsize.value]
      exact congrArg _ (ite_self _)
    · rcases huse with rfl | rfl
      · exact hsize.emittable
      · exact (emittable_dropped_call _ _).trans hsize.value
  | newObject className span =>
    intro use n
    rw [Lowerer.expr]
    refine Loads.of_var ?_ (by simp [stepsInt, stepIsInt]) rfl
    rw [loads]
    have hconstruct : ∀ name, (Call.construct
        (.var name (Instr.call (Call.newObject className)).resultType)).isEmittable = true :=
      fun _ ↦ rfl
    simp [stepIsInt, isValue_newObject, hconstruct, isEmittable]
  | length array span ih =>
    intro use n
    obtain ⟨hcode, hsteps⟩ := emittable_asVar (ih .operand) n
    rw [l.expr_length]
    refine Loads.of_var ?_ (by simp [hsteps, stepIsInt]) rfl
    rw [loads, ← hcode, every_append]
    exact Bool.and_true _

/-! ## Statements -/

/-- What may be assigned to an integer has a type. -/
theorem ne_error_of_assignedType {target value : Expr} {span : Span}
    (h : l.checker.assignedType target value span = []) (hint : l.typeOf target = .int32) :
    l.site.typeOf value ≠ .error := by
  have htarget : l.site.typeOf target = .int := by
    rw [Lowerer.typeOf, Ty.ofBinding] at hint
    split at hint
    · cases hint
    · generalize l.site.typeOf target = t at hint
      cases t with
      | int => rfl
      | _ => cases hint
  intro herror
  have hassign : l.table.canAssign .error .int = true := by
    rw [Checker.assignedType] at h
    split at h
    · rename_i hfits
      have hassign : l.table.canAssign (l.site.typeOf value) (l.site.typeOf target) = true := hfits
      rwa [herror, htarget] at hassign
    · cases h
  have hrelated : l.table.areRelated .error .int = false := by
    rw [SymbolTable.areRelated]
    cases l.table.superclass <;> rfl
  have hname : (Jmm.Ty.error.name == Jmm.Ty.int.name) = false := by decide
  rw [SymbolTable.canAssign, hrelated, hname] at hassign
  cases hassign

theorem emittable_assign {target value : Expr} {span : Span}
    (h : l.checker.assignedType target value span = []) (n : Names) :
    every isEmittable (l.assign target value n).1 = l.assigns target value := by
  cases target with
  | ident name s =>
    rw [Lowerer.assign, assigns]
    split
    · rw [← (loadsOperand_expected (loads_expr value (.expected (l.typeOf (.ident name s))))
        n).value]
      simp [isEmittable, receiver, Operand.isLoadable, Operand.type, Ty.isNamed]
    · have hvalue := loads_expr (l := l) value (.assign (l.typeOf (.ident name s))) n
      have hstep : stepIsInt (.var name (l.typeOf (.ident name s)))
          (l.expr value (.assign (l.typeOf (.ident name s))) n).1.value = true :=
        stepIsInt_of_int fun hint ↦ hvalue.step (.inr (ne_error_of_assignedType h hint)) name
      rw [← hvalue.value]
      simp [hstep, Instr.isUsable]
  | index array position s =>
    obtain ⟨harray, _⟩ := emittable_asVar (loads_expr (l := l) array .operand) n
    have htype := l.type_var array n
    rcases h₁ : asVar (l.expr array .operand) n with ⟨⟨code₁, name, t⟩, n₁⟩
    have hposition := (loadsOperand_operand (loads_expr (l := l) position .operand) n₁).value
    rcases h₂ : asOperand (l.expr position .operand) n₁ with ⟨⟨code₂, index⟩, n₂⟩
    rw [h₁] at harray htype
    rw [h₂] at hposition
    obtain rfl : t = l.operandType array := htype
    have hvalue := (loads_expr (l := l) value (.assign (l.operandType array).elementOrInt) n₂).value
    rw [assigns, ← harray, ← hposition, ← hvalue]
    simp only [Lowerer.assign, Draw.bind_apply, Draw.pure_apply, h₁, h₂, every_append,
      every_instr, every_nil, isEmittable, Instr.isUsable]
    simp
    ac_rfl
  | _ => exact (loads_expr value .operand n).dropped (.inl rfl)

theorem emittable_stmts {sts : List Stmt}
    (ih : ∀ st ∈ sts, l.checker.stmt st = [] → ∀ n, every isEmittable (l.stmt st n).1 = l.emits st)
    (h : l.checker.stmts sts = []) (n : Names) :
    every isEmittable (l.stmts sts n).1 = l.emitsAll sts := by
  induction sts generalizing n with
  | nil => rfl
  | cons st sts ihs =>
    obtain ⟨hst, hsts⟩ := List.append_eq_nil_iff.mp h
    rw [Lowerer.stmts, emitsAll, ← ih st List.mem_cons_self hst n,
      ← ihs (fun st' hst' ↦ ih st' (List.mem_cons_of_mem st hst')) hsts (l.stmt st n).2]
    exact every_append _ _ _

/-- **The test for statements is exact**, in methods without violations. -/
theorem emittable_stmt (st : Stmt) (h : l.checker.stmt st = []) :
    ∀ n, every isEmittable (l.stmt st n).1 = l.emits st := by
  induction st with
  | assign target value span =>
    simp only [Checker.stmt, List.append_eq_nil_iff] at h
    exact emittable_assign h.1.1.2
  | expr e span =>
    intro n
    rw [emits, ← (loads_expr e .statement n).dropped (.inr rfl)]
    rw [Lowerer.stmt, Lowerer.exprStmt, Lowered.dropped]
    simp only [Draw.bind_apply, Draw.pure_apply, true_and]
  | ret value span =>
    intro n
    cases value with
    | none => rfl
    | some e =>
      rw [emits, ← (loadsOperand_operand (loads_expr e .operand) n).value]
      simp [Lowerer.stmt, Lowerer.ret, isEmittable]
  | cond test thenBranch elseBranch span iht ihe =>
    intro n
    simp only [Checker.stmt, List.append_eq_nil_iff] at h
    have htest := (loads_expr (l := l) test .condition ((n.bump .ifBody).bump .endIf)).value
    generalize hc : (l.expr test .condition ((n.bump .ifBody).bump .endIf)).1 = c at htest
    have hcode : every isEmittable (l.stmt (.cond test thenBranch elseBranch span) n).1
        = (every isEmittable c.code && (c.value.isValue
          && (l.emitsAll elseBranch && l.emitsAll thenBranch))) := by
      simp [Lowerer.stmt, isEmittable, hc, emittable_stmts iht h.1.2,
        emittable_stmts ihe h.2]
    rw [hcode, emits, ← htest]
    simp only [Instr.isUsable, reduceCtorEq, if_false]
    ac_rfl
  | loop test body span ih =>
    intro n
    simp only [Checker.stmt, List.append_eq_nil_iff] at h
    have htest := (loads_expr (l := l) test .condition n).value
    generalize hc : (l.expr test .condition n).1 = c at htest
    -- The test stands in the code twice, so that its value counts twice.
    have hcode : every isEmittable (l.stmt (.loop test body span) n).1
        = (every isEmittable c.code
          && (c.value.isValue && (l.emitsAll body && c.value.isValue))) := by
      simp [Lowerer.stmt, isEmittable, hc, emittable_stmts ih h.2]
    rw [hcode, emits, ← htest]
    simp only [Instr.isUsable, reduceCtorEq, if_false]
    cases c.value.isValue with
    | true => simp
    | false => simp

/-! ## Increments -/

theorem steps_dropped {x : Lowered} (h : every stepsInt x.code = true) (use : Use) :
    every stepsInt (x.dropped use) = true := by
  obtain ⟨code, value⟩ := x
  rw [Lowered.dropped]
  split
  · rename_i hcall
    cases value with
    | call c => simp [h, stepsInt]
    | _ => cases hcall.2
  · exact h

theorem steps_assign {target value : Expr} {span : Span}
    (h : l.checker.assignedType target value span = []) (n : Names) :
    every stepsInt (l.assign target value n).1 = true := by
  cases target with
  | ident name s =>
    rw [Lowerer.assign]
    split
    · have hvalue := loadsOperand_expected
        (loads_expr (l := l) value (.expected (l.typeOf (.ident name s)))) n
      simp [hvalue.steps, stepsInt]
    · have hvalue := loads_expr (l := l) value (.assign (l.typeOf (.ident name s))) n
      have hstep : stepIsInt (.var name (l.typeOf (.ident name s)))
          (l.expr value (.assign (l.typeOf (.ident name s))) n).1.value = true :=
        stepIsInt_of_int fun hint ↦ hvalue.step (.inr (ne_error_of_assignedType h hint)) name
      simp [hvalue.steps, hstep]
  | index array position s =>
    have hvalue := fun use n ↦ (loads_expr (l := l) value use n).steps
    simp [Lowerer.assign, (emittable_asVar (loads_expr (l := l) array .operand) _).2,
      (loadsOperand_operand (loads_expr (l := l) position .operand) _).steps, hvalue, stepIsInt]
  | _ => exact steps_dropped (loads_expr value .operand n).steps .operand

theorem steps_stmts {sts : List Stmt}
    (ih : ∀ st ∈ sts, l.checker.stmt st = [] → ∀ n, every stepsInt (l.stmt st n).1 = true)
    (h : l.checker.stmts sts = []) (n : Names) : every stepsInt (l.stmts sts n).1 = true := by
  induction sts generalizing n with
  | nil => rfl
  | cons st sts ihs =>
    obtain ⟨hst, hsts⟩ := List.append_eq_nil_iff.mp h
    simp [Lowerer.stmts, ih st List.mem_cons_self hst n,
      ihs (fun st' hst' ↦ ih st' (List.mem_cons_of_mem st hst')) hsts]

/-- **Only integers are added to integer variables**, in methods without violations. -/
theorem steps_stmt (st : Stmt) (h : l.checker.stmt st = []) :
    ∀ n, every stepsInt (l.stmt st n).1 = true := by
  have hexpr := fun e use n ↦ (loads_expr (l := l) e use n).steps
  induction st with
  | assign target value span =>
    simp only [Checker.stmt, List.append_eq_nil_iff] at h
    exact steps_assign h.1.1.2
  | expr e span =>
    intro n
    have hdropped := steps_dropped (hexpr e .statement n) .statement
    rw [Lowered.dropped] at hdropped
    simpa only [Lowerer.stmt, Lowerer.exprStmt, Draw.bind_apply, Draw.pure_apply, true_and]
      using hdropped
  | ret value span =>
    intro n
    cases value with
    | none => rfl
    | some e =>
      simp [Lowerer.stmt, Lowerer.ret, stepsInt,
        (loadsOperand_operand (loads_expr (l := l) e .operand) n).steps]
  | cond test thenBranch elseBranch span iht ihe =>
    intro n
    simp only [Checker.stmt, List.append_eq_nil_iff] at h
    simp [Lowerer.stmt, stepsInt, hexpr, steps_stmts iht h.1.2, steps_stmts ihe h.2]
  | loop test body span ih =>
    intro n
    simp only [Checker.stmt, List.append_eq_nil_iff] at h
    simp [Lowerer.stmt, stepsInt, hexpr, steps_stmts ih h.2]

/-! ## Methods -/

theorem stepsInt_method (h : l.checker.body = []) (n : Names) :
    ∀ i ∈ (l.method n).1.instrs, i.stepsInt = true := by
  have hbody : every stepsInt (l.stmts l.decl.body n).1 = true :=
    steps_stmts (fun st _ hst ↦ steps_stmt st hst) h n
  have hcode : every stepsInt (l.code n) = true := by
    rw [code, every_append, hbody]
    cases l.decl.hasReturn <;> rfl
  rw [instrs_method]
  exact List.all_eq_true.mp hcode

theorem emittable_code (h : l.checker.body = []) (n : Names) :
    every isEmittable (l.code n) = l.emitsAll l.decl.body := by
  have hbody : every isEmittable (l.stmts l.decl.body n).1 = l.emitsAll l.decl.body :=
    emittable_stmts (fun st _ hst ↦ emittable_stmt st hst) h n
  rw [code, every_append, hbody]
  cases l.decl.hasReturn <;> exact Bool.and_true _

theorem all_isEmittable_method (h : l.checker.body = []) (n : Names) :
    (l.method n).1.instrs.all isEmittable = l.emitsAll l.decl.body := by
  rw [method_eq_extend, Method.extend_eq]
  exact emittable_code h n

end Lowerer

theorem all_isEmittable_lowerMethods (a : Analysis) {ds : List MethodDecl}
    (h : ∀ d ∈ ds, (a.lowerer d).checker.body = []) (n : Names) :
    ((lowerMethods a ds n).1.all fun m ↦ m.instrs.all isEmittable)
      = ds.all fun d ↦ (a.lowerer d).emitsAll d.body := by
  induction ds generalizing n with
  | nil => rfl
  | cons d ds ih =>
    have hfirst := Lowerer.all_isEmittable_method (h d List.mem_cons_self) n
    have hrest := ih (fun d' hd' ↦ h d' (List.mem_cons_of_mem d hd')) ((a.lowerer d).method n).2
    exact congrArg₂ _ hfirst hrest

end Jmm.Ollir

namespace Jmm

theorem Analysis.isOk_assemble (a : Analysis) {c : ClassDecl}
    (h : ∀ d ∈ c.methods, (a.lowerer d).checker.body = []) :
    ((a.lower c).assemble true).isOk = c.methods.all fun d ↦ (a.lowerer d).emitsAll d.body := by
  rw [Jasmin.isOk_assemble, ← Ollir.all_isEmittable_lowerMethods a h {}]
  · rfl
  · intro m hm
    obtain ⟨d, _, n, rfl⟩ := Ollir.exists_of_mem_lowerMethods a hm
    exact Ollir.Lowerer.isEmpty_vars_method _ n

/-- The faults of a class without violations. -/
theorem Analysis.fault_cases {imports : List ImportDecl} {c : ClassDecl}
    (h : (Analysis.ofClass imports c).hasErrors = false) {fusion : Bool} {f : Jasmin.Fault}
    (hfault : ((Analysis.ofClass imports c).lower c).assemble fusion = .error f) :
    f = .arrayLengthArgument ∨ (∃ name, f = .classAsValue name) ∨ (∃ o, f = .noMembers o)
      ∨ ∃ call, f = .voidValue call := by
  refine Jasmin.Fault.cases_of_assemble (fun m hm ↦ ?_) (fun m hm ↦ ?_) (fun m hm ↦ ?_) hfault <;>
    obtain ⟨d, hd, n, rfl⟩ := Ollir.exists_of_mem_lowerMethods _ hm
  · exact Ollir.Lowerer.isEmpty_vars_method _ n
  · exact ⟨_, Ollir.Lowerer.isFormed_method _ (Ollir.Lowerer.allows_true _ _) n⟩
  · exact Ollir.Lowerer.stepsInt_method (Analysis.body_eq_nil h hd) n

/-- With the default settings a class without violations is assembled. -/
theorem Program.compile_of_clean {p : Program} {c : ClassDecl} (hclass : p.classes = [c])
    (h : (Analysis.ofClass p.imports c).hasErrors = false) :
    p.compile {} = match ((Analysis.ofClass p.imports c).lower c).assemble true with
      | .ok j => .ok { diagnostics := (Analysis.ofClass p.imports c).diagnostics
                       ollir := some ((Analysis.ofClass p.imports c).lower c).text
                       jasmin := some j.text }
      | .error f => .error (.fault f) := by
  have hp : p.class? = .ok c := by rw [Program.class?, hclass]
  have hemit : p.compile {} = ((Analysis.ofClass p.imports c).emit {} c).mapError .fault := by
    rw [Program.compile, hp]
    exact if_neg (by simp [h])
  rw [hemit, Analysis.emit]
  cases ((Analysis.ofClass p.imports c).lower c).assemble true with
  | ok j => rfl
  | error f => rfl

/-- **The accepted programs that compile are those that pass the test.**  Let a program have one
class and no violation.  With the default settings it compiles if and only if all its methods pass,
and otherwise no assembly can be emitted for the code it is lowered to.  The fault is then one of
four: an array is allocated without a length, a class stands for a value, a value without a class
has members, or a call of type `void` is stored. -/
theorem Program.compile_succeeds_iff {p : Program} {c : ClassDecl} (hclass : p.classes = [c])
    (hclean : (Analysis.ofClass p.imports c).hasErrors = false) :
    ((∃ o, p.compile {} = .ok o)
        ↔ ∀ d ∈ c.methods, ((Analysis.ofClass p.imports c).lowerer d).emitsAll d.body = true)
      ∧ ((∃ f, p.compile {} = .error (.fault f))
        ↔ ∃ d ∈ c.methods, ((Analysis.ofClass p.imports c).lowerer d).emitsAll d.body = false)
      ∧ ∀ f, p.compile {} = .error (.fault f) →
        f = .arrayLengthArgument ∨ (∃ name, f = .classAsValue name) ∨ (∃ o, f = .noMembers o)
          ∨ ∃ call, f = .voidValue call := by
  have hok := (Analysis.ofClass p.imports c).isOk_assemble
    fun d hd ↦ Analysis.body_eq_nil hclean hd
  rw [Program.compile_of_clean hclass hclean]
  cases hassemble : ((Analysis.ofClass p.imports c).lower c).assemble true with
  | ok j =>
    rw [hassemble] at hok
    have hall := List.all_eq_true.mp hok.symm
    refine ⟨⟨fun _ ↦ hall, fun _ ↦ ⟨_, rfl⟩⟩, ⟨nofun, fun ⟨d, hd, hfalse⟩ ↦ ?_⟩, nofun⟩
    rw [hall d hd] at hfalse
    exact nomatch hfalse
  | error f =>
    rw [hassemble] at hok
    obtain ⟨d, hd, hfalse⟩ := List.all_eq_false.mp hok.symm
    rw [Bool.not_eq_true] at hfalse
    refine ⟨⟨nofun, fun hall ↦ ?_⟩, ⟨fun _ ↦ ⟨d, hd, hfalse⟩, fun _ ↦ ⟨f, rfl⟩⟩, fun f' hf' ↦ ?_⟩
    · rw [hall d hd] at hfalse
      exact nomatch hfalse
    · obtain rfl : f = f' := CompileError.fault.inj (Except.error.inj hf')
      exact Analysis.fault_cases hclean hassemble

/-- A program that counts down, allocates an object of an imported class and calls a method of
it. -/
def Program.allocating (className : String) : Program :=
  { imports := [{ path := [className] }]
    classes := [{ name := "Main", superclass := none, fields := [], methods := [
      { name := "run", isPublic := true, isStatic := false, returns := { name := "void" }
        params := [{ name := "n", type := { name := "int" } }]
        locals := [{ name := "a", type := { name := className } }]
        body := [
          .loop (.binary .less (.int 0 {}) (.ident "n" {}) {})
            [.assign (.ident "n" {}) (.binary .sub (.ident "n" {}) (.int 1 {}) {}) {}] {},
          .assign (.ident "a" {}) (.newObject className {}) {},
          .expr (.call (.ident "a" {}) "show" [.ident "n" {}] {}) {}] }] }] }

theorem Program.compile_allocating_point : ∃ c, (allocating "Point").classes = [c]
    ∧ (Analysis.ofClass (allocating "Point").imports c).hasErrors = false
    ∧ ∃ o, (allocating "Point").compile {} = .ok o := by
  have hclean : (Analysis.ofClass (allocating "Point").imports
      ((allocating "Point").classes.headD default)).hasErrors = false := by decide +kernel
  exact ⟨_, rfl, hclean, (compile_succeeds_iff rfl hclean).1.mpr (by decide +kernel)⟩

/-- An object of a class named `array` is taken for an array without a length. -/
theorem Program.compile_allocating_array : ∃ c, (allocating "array").classes = [c]
    ∧ (Analysis.ofClass (allocating "array").imports c).hasErrors = false
    ∧ (allocating "array").compile {} = .error (.fault .arrayLengthArgument) := by
  refine ⟨_, rfl, by decide +kernel, ?_⟩
  have hfault : (match (allocating "array").compile {} with
      | .ok _ => false
      | .error e => decide (e = .fault .arrayLengthArgument)) = true := by decide +kernel
  cases hcompile : (allocating "array").compile {} with
  | ok o =>
    rw [hcompile] at hfault
    exact nomatch hfault
  | error e =>
    rw [hcompile] at hfault
    exact congrArg Except.error (of_decide_eq_true hfault)

end Jmm
