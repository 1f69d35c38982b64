import Jmm.Proofs.Lowering.Expressions
import Jmm.Proofs.Lowering.Structured
import Jmm.Proofs.Typing.LoweredTypes

/-!
# What lowered code does

Apart from computing with values and jumping, code does four things: it works on arrays, it calls
methods, it reads and writes fields, and it may store a value where one of another kind belongs.
These are the `Event`s of its instructions.  `Lowerer.bodyEvents` lists the events that the body of
a method asks for, in their order, and `Lowerer.events_method` says that the lowered method has just
these.  What holds of one sort of event is then read off the list, without another look at lowering.

* Operands of lowered code are plain, elements of arrays apart that are assigned, so an expression
  reads an element in one place: in its code or as its value.
* A value that is stored in a temporary keeps its type, so the kind of a value changes only where
  the program gives a type to both sides.
* The events of an expression do not depend on where its value goes, but for a statement, a loop and
  an assignment to nothing those of the value count apart (`Lowerer.valueEvents`).
-/

set_option autoImplicit false

namespace Jmm

/-- A name that is read or assigned to. -/
inductive NameUse where
  | read (name : String)
  | write (name : String)
deriving DecidableEq, Repr

namespace Ollir

/-! ## Events -/

/-- An operation on an array, with the type that is written at it: the type of the array where it is
allocated, that of the element where one is read or written. -/
inductive ArrayOp where
  | allocate (type : Ty)
  | load (element : Ty)
  | store (element : Ty)
deriving DecidableEq, Repr, Inhabited

/-- What a call says about the method that it is linked to. -/
structure Linkage where
  kind : CallKind
  /-- The type of the receiver. -/
  caller : Ty
  method : String
  args : List Ty
  returns : Ty
deriving DecidableEq, Repr, Inhabited

/-- An access to a field of an object. -/
structure FieldAccess where
  object : Operand
  field : String
  type : Ty
  isWrite : Bool
deriving DecidableEq, Repr, Inhabited

/-- A value is stored or returned. -/
structure Transfer where
  /-- The type of the place it goes to. -/
  place : Ty
  /-- The type of the value. -/
  value : Ty
deriving DecidableEq, Repr, Inhabited

/-- The place and the value are both references, or both are not. -/
def Transfer.keepsKind (t : Transfer) : Bool := t.place.isReference == t.value.isReference

/-- The transfers that change the kind. -/
def mixed (ts : List Transfer) : List Transfer := ts.filter fun t ↦ !t.keepsKind

/-- What code does apart from computing with values and jumping. -/
inductive Event where
  | array (op : ArrayOp)
  /-- A method is called, on a class or else on an object. -/
  | call (link : Linkage) (onClass : Bool)
  | access (field : FieldAccess)
  /-- A value goes to a place of another kind. -/
  | change (t : Transfer)
deriving DecidableEq, Repr, Inhabited

/-- The events of transfers. -/
def changes (ts : List Transfer) : List Event := (mixed ts).map .change

@[simp] theorem changes_nil : changes [] = [] := rfl

theorem changes_of_keepsKind {t : Transfer} (h : t.keepsKind = true) : changes [t] = [] := by
  simp [changes, mixed, h]

@[simp] theorem changes_self (t : Ty) : changes [⟨t, t⟩] = [] :=
  changes_of_keepsKind (beq_self_eq_true _)

theorem filterMap_changes {β : Type} {f : Event → Option β} (h : ∀ t, f (.change t) = none)
    (ts : List Transfer) : (changes ts).filterMap f = [] := by
  rw [changes, List.filterMap_map]
  exact List.filterMap_eq_nil_iff.mpr fun t _ ↦ h t

/-! ## Instructions -/

/-- The events of reading an operand. -/
def Operand.events : Operand → List Event
  | element _ index t => index.events ++ [.array (.load t)]
  | _ => []

/-- What a call of a method says about it; an allocation or a construction is no such call. -/
def Call.linkage? (c : Call) : Option Linkage :=
  if c.kind = .virtual ∨ c.kind = .static then
    c.method.map fun method ↦ ⟨c.kind, c.caller.type, method, c.args.map Operand.type, c.returns⟩
  else none

/-- A call that needs no object. -/
def Call.isOnClass (c : Call) : Bool := c.kind = .static || c.caller.isClass

/-- The events before a call of a method, or of another call. -/
def Call.operandEvents (c : Call) : List Event :=
  match c.kind with
  | .new =>
    if c.isNewArray then c.args.flatMap Operand.events ++ [.array (.allocate c.returns)] else []
  | .arrayLength => c.caller.events
  | .special => c.caller.events
  | .virtual => c.caller.events ++ c.args.flatMap Operand.events
  | .static => c.args.flatMap Operand.events

/-- The events of a call. -/
def Call.events (c : Call) : List Event :=
  c.operandEvents ++ c.linkage?.toList.map fun link ↦ .call link c.isOnClass

/-- The events of an instruction. -/
def Instr.events : Instr → List Event
  | assign (.element _ index t) _ value =>
    index.events ++ value.events ++ .array (.store t) :: changes [⟨t, value.resultType⟩]
  | assign target _ value => value.events ++ changes [⟨target.type, value.resultType⟩]
  | single o => o.events
  | binary _ left right _ => left.events ++ right.events
  | not o _ => o.events
  | call c => c.events
  | getField object field type => object.events ++ [.access ⟨object, field, type, false⟩]
  | putField object field type value =>
    object.events ++ value.events
      ++ changes [⟨type, value.type⟩] ++ [.access ⟨object, field, type, true⟩]
  | branch test _ => test.events
  | goto _ => []
  | ret _ none => []
  | ret type (some o) => o.events ++ changes [⟨type, o.type⟩]

section filterMap

/-! What looks at no array operations sees nothing of operands, and of a call the method. -/

variable {β : Type} {f : Event → Option β} (h : ∀ op, f (.array op) = none)

include h

theorem Operand.filterMap_events (o : Operand) : o.events.filterMap f = [] := by
  induction o with
  | element name index t ih =>
    rw [events, List.filterMap_append, ih]
    exact List.filterMap_cons_none (h _)
  | _ => rfl

theorem Operand.filterMap_flatMap_events (os : List Operand) :
    (os.flatMap events).filterMap f = [] := by
  rw [List.filterMap_flatMap]
  exact List.flatMap_eq_nil_iff.mpr fun o _ ↦ o.filterMap_events h

theorem Call.filterMap_events (c : Call) :
    c.events.filterMap f = (c.linkage?.bind fun link ↦ f (.call link c.isOnClass)).toList := by
  have hoperands : c.operandEvents.filterMap f = [] := by
    rw [operandEvents]
    cases c.kind with
    | new =>
      cases c.isNewArray with
      | true => simp [Operand.filterMap_flatMap_events h, h]
      | false => rfl
    | arrayLength | special => exact c.caller.filterMap_events h
    | virtual => simp [Operand.filterMap_flatMap_events h, Operand.filterMap_events h]
    | static => exact Operand.filterMap_flatMap_events h c.args
  rw [events, List.filterMap_append, hoperands]
  cases c.linkage? with
  | none => rfl
  | some link => cases hf : f (.call link c.isOnClass) <;> simp [hf]

end filterMap

/-! ## Code -/

/-- The events of a lowered expression: those of its code, and of its value. -/
def Lowered.events (x : Lowered) : List Event := gather Instr.events x.code ++ x.value.events

section Code

variable {name : String} {t : Ty} {value : Instr} {xs ys : List Event}

@[simp] theorem Operand.events_var : (Operand.var name t).events = [] := rfl

@[simp] theorem Operand.events_int (k : Int32) : (Operand.int k).events = [] := rfl

@[simp] theorem Operand.events_bool (b : Bool) : (Operand.bool b).events = [] := rfl

@[simp] theorem Instr.events_single (o : Operand) : (single o).events = o.events := rfl

@[simp] theorem Instr.events_branch (test : Instr) (label : String) :
    (branch test label).events = test.events := rfl

@[simp] theorem Instr.events_goto (label : String) : (goto label).events = [] := rfl

@[simp] theorem Instr.events_assignVar (t' : Ty) :
    (assign (.var name t) t' value).events = value.events ++ changes [⟨t, value.resultType⟩] := rfl

theorem Operand.events_of_isPlain {o : Operand} (h : o.isPlain = true) : o.events = [] := by
  cases o with
  | element => cases h
  | _ => rfl

theorem Instr.events_of_operand? (h : value.operand?.isSome = true)
    (hplain : ∀ o, value = .single o → o.isPlain = true) : value.events = [] := by
  cases value with
  | single o => exact Operand.events_of_isPlain (hplain o rfl)
  | _ => cases h

theorem isPlain_materialize (h : ∀ o, value = .single o → o.isPlain = true) (n : Names) :
    (materialize value n).1.2.isPlain = true := by
  rcases materialize_cases value n with ⟨o, rfl, heq⟩ | ⟨_, heq⟩
  · rw [heq]
    exact h o rfl
  · rw [heq]
    rfl

theorem gather_events_materialize (h : ∀ o, value = .single o → o.isPlain = true) (n : Names) :
    gather Instr.events (materialize value n).1.1 = value.events := by
  rcases materialize_cases value n with ⟨o, rfl, heq⟩ | ⟨_, heq⟩
  · rw [heq]
    exact (Operand.events_of_isPlain (h o rfl)).symm
  · rw [heq]
    simp

theorem gather_events_asOperand {e : Draw Lowered} (hplain : PlainValue e)
    (h : ∀ n, (e n).1.events = xs) (n : Names) : gather Instr.events (asOperand e n).1.1 = xs := by
  rw [asOperand_apply, gather_append, gather_events_materialize (hplain n)]
  exact h n

theorem gather_events_asVar {e : Draw Lowered} (hplain : PlainValue e)
    (h : ∀ n, (e n).1.events = xs) (n : Names) : gather Instr.events (asVar e n).1.1 = xs := by
  have hcode := gather_events_asOperand hplain h n
  rcases asVar_cases e n with ⟨name, t, _, heq⟩ | ⟨_, heq⟩
  · rw [heq]
    exact hcode
  · have hvalue : (asOperand e n).1.2.events = [] :=
      Operand.events_of_isPlain (isPlain_asOperand hplain n)
    have hkept : changes [⟨(asOperand e n).1.2.type,
        (Instr.single (asOperand e n).1.2).resultType⟩] = [] := changes_self _
    rw [heq, gather_append, hcode, gather_assignVar, Instr.events_assignVar, Instr.events_single,
      hvalue, hkept]
    exact List.append_nil _

theorem events_value_stored (code : List Item) (h : ∀ o, value = .single o → o.isPlain = true)
    (n : Names) : (stored code value n).1.value.events = [] :=
  Operand.events_of_isPlain (isPlain_materialize h n)

theorem events_stored (code : List Item) (h : ∀ o, value = .single o → o.isPlain = true)
    (n : Names) : (stored code value n).1.events = gather Instr.events code ++ value.events := by
  rw [Lowered.events, events_value_stored code h, List.append_nil, stored_apply, gather_append,
    gather_events_materialize h]

/-- The right operand of `&&` or `||` is stored where the result goes, which is no reference. -/
theorem events_shortCircuit (x y : Lowered) (ht : t.isReference = false) (isOr : Bool) (n : Names) :
    (shortCircuit x y t isOr n).1.events
      = x.events ++ y.events ++ changes [⟨t, y.value.resultType⟩] := by
  obtain ⟨trueLabel, endLabel, result, _, heq⟩ := shortCircuit_diamond x y t isOr n
  have hdecided : changes [⟨t, (Instr.single (Operand.bool isOr)).resultType⟩] = [] :=
    changes_of_keepsKind (beq_iff_eq.mpr ht)
  rw [heq]
  cases isOr <;> simp [Lowered.events, gather_diamond, hdecided]

theorem events_binary (op : BinOp) {x y : Instr} (hx : ∀ o, x = .single o → o.isPlain = true)
    (hy : ∀ o, y = .single o → o.isPlain = true) (t : Ty) (n n' : Names) :
    (Instr.binary op (materialize x n).1.2 (materialize y n').1.2 t).events = [] := by
  rw [Instr.events, Operand.events_of_isPlain (isPlain_materialize hx n),
    Operand.events_of_isPlain (isPlain_materialize hy n')]
  rfl

theorem events_operation (op : BinOp) {x y : Lowered}
    (hx : ∀ o, x.value = .single o → o.isPlain = true)
    (hy : ∀ o, y.value = .single o → o.isPlain = true) (t : Ty) (inline : Bool) (n : Names) :
    (operation op x y t inline n).1.events = x.events ++ y.events
      ∧ (operation op x y t inline n).1.value.events = [] := by
  obtain ⟨code, o, o', n', rfl, rfl, rfl, rfl, heq⟩ := operation_apply op x y t inline n
  have hvalue := events_binary op hx hy t n (materialize x.value n).2
  rw [heq]
  cases inline with
  | true =>
    refine ⟨?_, hvalue⟩
    simp [Lowered.events, gather_events_materialize hx, gather_events_materialize hy, hvalue]
  | false =>
    rw [if_neg Bool.false_ne_true, events_stored _ fun _ h ↦ Instr.noConfusion h, hvalue]
    refine ⟨?_, events_value_stored _ (fun _ h ↦ Instr.noConfusion h) _⟩
    simp [Lowered.events, gather_events_materialize hx, gather_events_materialize hy]

/-- An array is allocated first and filled then. -/
theorem events_packed (length : Nat) (element : Ty) {fill : String → Draw (List Item)}
    (hzero : length = 0 → xs = []) (hfill : ∀ name n, gather Instr.events (fill name n).1 = xs)
    (n : Names) :
    (packed length element fill n).1.events = .array (.allocate (.array element)) :: xs := by
  have hallocate : (Instr.call (Call.newArray (Operand.int (Int32.ofNat length))
      (.array element))).events = [.array (.allocate (.array element))] := rfl
  have hkept : changes [⟨.array element, (Instr.call (Call.newArray
      (Operand.int (Int32.ofNat length)) (.array element))).resultType⟩] = [] := changes_self _
  have hcopied : ∀ name, changes [⟨.array element,
      (Instr.single (.var name (.array element))).resultType⟩] = [] := fun _ ↦ changes_self _
  rw [packed, Draw.bind_apply]
  split
  · rename_i hlength
    simp [Lowered.events, hallocate, hkept, hzero hlength]
  · simp [Lowered.events, hallocate, hkept, hcopied, hfill]

theorem plainValue_packed (length : Nat) (element : Ty) (fill : String → Draw (List Item)) :
    PlainValue (packed length element fill) := by
  intro n o ho
  rw [packed, Draw.bind_apply] at ho
  split at ho <;>
    · obtain rfl := Instr.single.inj ho
      rfl

end Code

/-! ## What the source asks for -/

/-- A call of a method in a program, with the use made of its value. -/
structure CallSite where
  receiver : Expr
  method : String
  args : List Expr
  span : Span
  use : Use

/-- The call as an expression. -/
def CallSite.expr (s : CallSite) : Expr := .call s.receiver s.method s.args s.span

namespace Lowerer

variable (l : Lowerer)

/-- The types of the arguments that a call gets. -/
def argTypes (formals : List (Ty × Bool)) (args : List Expr) : List Ty :=
  match l.packedType? formals args with
  | some element => [.array element]
  | none => args.mapIdx fun i e ↦ l.valueType e (argUse formals i)

/-- What a call becomes: it is virtual, unless it is a statement on an import. -/
def linkage (s : CallSite) : Linkage :=
  let isStatic : Bool := s.use = .statement && l.site.namesImport s.receiver
  { kind := if isStatic then .static else .virtual
    caller := l.operandType s.receiver
    method := s.method
    args := l.argTypes (l.formals s.receiver s.method) s.args
    returns := if isStatic then .void else l.callType s.expr s.use }

/-- Whether the use of a name reads a field. -/
def readsField (name : String) : Bool :=
  !l.table.isImport name && l.scopes.isField name l.decl.name

/-- The access that the use of a name makes. -/
def access? : NameUse → Option FieldAccess
  | .read name =>
    if l.readsField name then some ⟨l.receiver, name, l.nameType name, false⟩ else none
  | .write name =>
    if l.scopes.isField name l.decl.name then some ⟨l.receiver, name, l.nameType name, true⟩
    else none

/-- The event of the use of a name. -/
def accessEvents (u : NameUse) : List Event := (l.access? u).toList.map .access

theorem filterMap_accessEvents {β : Type} {f : Event → Option β} (h : ∀ a, f (.access a) = none)
    (u : NameUse) : (l.accessEvents u).filterMap f = [] := by
  rw [accessEvents, List.filterMap_map]
  exact List.filterMap_eq_nil_iff.mpr fun a _ ↦ h a

/-- The right operand of `&&` and `||` may become the result. -/
def resultTransfers (op : BinOp) (result right : Ty) : List Transfer :=
  match op with
  | .and | .or => [⟨result, right⟩]
  | _ => []

mutual

/-- The events of an expression that is lowered for a use. -/
def exprEvents : Expr → Use → List Event
  | .int _ _, _ | .bool _ _, _ | .self _, _ => []
  | .ident name _, _ => l.accessEvents (.read name)
  | .paren inner _, use => exprEvents inner use.inParens
  | .arrayLit elements _, _ => .array (.allocate Ty.intArray) :: elementEvents .int32 elements
  | .not operand _, _ => exprEvents operand .operand
  | .index array position _, _ =>
    exprEvents array .operand ++ exprEvents position .operand
      ++ [.array (.load (l.operandType array).elementOrInt)]
  | .binary op left right span, _ =>
    exprEvents left .operand ++ exprEvents right .operand
      ++ changes (resultTransfers op (l.typeOf (.binary op left right span)) (l.operandType right))
  | .call receiver method args span, use =>
    exprEvents receiver .operand
      ++ (match l.packedType? (l.formals receiver method) args with
        | some element => .array (.allocate (.array element)) :: elementEvents element args
        | none => argEvents (l.formals receiver method) 0 args)
      ++ [.call (l.linkage ⟨receiver, method, args, span, use⟩)
        (l.site.namesImport receiver.unparen)]
  | .newArray _ size _, _ => exprEvents size .operand ++ [.array (.allocate Ty.intArray)]
  | .newObject className _, _ =>
    -- a class of this name is taken for an array
    if className = Call.arrayClass then [.array (.allocate (.named className))] else []
  | .length array _, _ => exprEvents array .operand

/-- The events of expressions that are stored in an array. -/
def elementEvents (element : Ty) : List Expr → List Event
  | [] => []
  | e :: es =>
    exprEvents e (.expected element)
      ++ .array (.store element) :: changes [⟨element, l.valueType e (.expected element)⟩]
      ++ elementEvents element es

/-- The events of arguments from a position on. -/
def argEvents (formals : List (Ty × Bool)) : Nat → List Expr → List Event
  | _, [] => []
  | position, e :: es =>
    exprEvents e (argUse formals position) ++ argEvents formals (position + 1) es

end

/-- The events of the arguments of a call, packed into an array or one by one. -/
def callArgEvents (formals : List (Ty × Bool)) (args : List Expr) : List Event :=
  match l.packedType? formals args with
  | some element => .array (.allocate (.array element)) :: l.elementEvents element args
  | none => l.argEvents formals 0 args

theorem exprEvents_call (receiver : Expr) (method : String) (args : List Expr) (span : Span)
    (use : Use) :
    l.exprEvents (.call receiver method args span) use
      = l.exprEvents receiver .operand ++ l.callArgEvents (l.formals receiver method) args
        ++ [.call (l.linkage ⟨receiver, method, args, span, use⟩)
          (l.site.namesImport receiver.unparen)] := by
  rw [exprEvents]
  rfl

/-- The events of the value of an expression, without those of the code before it: an array of a
given length is allocated where its value is used. -/
def valueEvents : Expr → List Event
  | .paren inner _ => valueEvents inner
  | .newArray _ _ _ => [.array (.allocate Ty.intArray)]
  | _ => []

/-- The events of an expression whose value is not used. -/
def keptEvents : Expr → List Event
  | .paren inner _ => keptEvents inner
  | .newArray _ size _ => l.exprEvents size .operand
  | e => l.exprEvents e .operand

/-- The use that an assignment makes of its value. -/
def assignUse (target : Expr) : Use :=
  match target with
  | .ident name _ =>
    if l.scopes.isField name l.decl.name then .expected (l.typeOf target)
    else .assign (l.typeOf target)
  | .index array _ _ => .assign (l.operandType array).elementOrInt
  | _ => .operand

/-- The transfer to the target of an assignment. -/
def targetTransfer? (target value : Expr) : Option Transfer :=
  match target with
  | .ident _ _ => some ⟨l.typeOf target, l.valueType value (.assign (l.typeOf target))⟩
  | .index array _ _ =>
    let type := (l.operandType array).elementOrInt
    some ⟨type, l.valueType value (.assign type)⟩
  | _ => none

/-- The transfer that returns a value. -/
def returnTransfer (value : Expr) : Transfer := ⟨l.returnType, l.operandType value⟩

/-- The events of an assignment. -/
def assignEvents (target value : Expr) : List Event :=
  match target with
  | .ident name _ =>
    l.exprEvents value (l.assignUse target) ++ changes (l.targetTransfer? target value).toList
      ++ l.accessEvents (.write name)
  | .index array position _ =>
    l.exprEvents array .operand ++ l.exprEvents position .operand
      ++ l.exprEvents value (l.assignUse target)
      ++ .array (.store (l.operandType array).elementOrInt)
        :: changes (l.targetTransfer? target value).toList
  | _ => l.keptEvents value

mutual

/-- The events of a statement.  Of a conditional the second branch comes first; the value of the
test of a loop is used twice. -/
def stmtEvents : Stmt → List Event
  | .assign target value _ => l.assignEvents target value
  | .expr e _ => l.exprEvents e .statement
  | .ret none _ => []
  | .ret (some e) _ => l.exprEvents e .operand ++ changes [l.returnTransfer e]
  | .cond test thenBranch elseBranch _ =>
    l.exprEvents test .condition ++ bodyEvents elseBranch ++ bodyEvents thenBranch
  | .loop test body _ => l.exprEvents test .condition ++ bodyEvents body ++ valueEvents test

/-- The events of statements. -/
def bodyEvents : List Stmt → List Event
  | [] => []
  | st :: sts => stmtEvents st ++ bodyEvents sts

end

/-! ## Expressions -/

theorem keptEvents_append_value (e : Expr) :
    l.keptEvents e ++ valueEvents e = l.exprEvents e .operand := by
  induction e with
  | paren inner span ih => exact ih
  | newArray element size span => rfl
  | _ => exact List.append_nil _

theorem plainValue_operand (e : Expr) : PlainValue (l.expr e .operand) :=
  l.plainValue_expr e fun _ h ↦ Use.noConfusion h

theorem plainValue_expected (e : Expr) (t : Ty) : PlainValue (l.expr e (.expected t)) :=
  l.plainValue_expr e fun _ h ↦ Use.noConfusion h

theorem plainValue_argUse (e : Expr) (formals : List (Ty × Bool)) (position : Nat) :
    PlainValue (l.expr e (argUse formals position)) := by
  refine l.plainValue_expr e fun t ht ↦ ?_
  rcases argUse_cases formals position with h | ⟨t', h⟩ <;> exact Use.noConfusion (h.symm.trans ht)

theorem events_operand (e : Expr) (n : Names) :
    (asOperand (l.expr e .operand) n).1.2.events = [] :=
  Operand.events_of_isPlain (isPlain_asOperand (l.plainValue_operand e) n)

theorem events_ident (name : String) (n : Names) :
    (l.ident name n).1.events = l.accessEvents (.read name)
      ∧ (l.ident name n).1.value.events = [] := by
  rw [Lowerer.ident]
  by_cases himport : l.table.isImport name = true
  · simp [himport, accessEvents, access?, readsField, Lowered.events, Lowered.ofOperand,
      Operand.events]
  · by_cases hfield : l.scopes.isField name l.decl.name = true
    · rw [if_neg himport, if_pos hfield, events_stored [] fun _ h ↦ Instr.noConfusion h]
      refine ⟨?_, events_value_stored [] (fun _ h ↦ Instr.noConfusion h) n⟩
      simp [himport, hfield, accessEvents, access?, readsField, Instr.events, Operand.events,
        nameType, receiver]
    · simp [himport, hfield, accessEvents, access?, readsField, Lowered.events, Lowered.ofOperand]

theorem gather_events_stores {es : List Expr}
    (ih : ∀ e ∈ es, ∀ use n, (l.expr e use n).1.events = l.exprEvents e use) (array : String)
    (element : Ty) (position : Nat) (n : Names) :
    gather Instr.events (l.stores array element position es n).1 = l.elementEvents element es := by
  induction es generalizing position n with
  | nil => rfl
  | cons e es ihes =>
    obtain ⟨hfirst, hrest⟩ := List.forall_mem_cons.mp ih
    have hplain := l.plainValue_expected e element
    have hcode := gather_events_asOperand hplain (hfirst _) n
    have htype := l.type_operand e (.expected element) n
    have hstore : ∀ index o, (Instr.assign (.element array (Operand.int index) element) element
        (.single o)).events = o.events ++ .array (.store element) :: changes [⟨element, o.type⟩] :=
      fun _ _ ↦ rfl
    have hoperand := Operand.events_of_isPlain (isPlain_asOperand hplain n)
    have htail := ihes hrest (position + 1) (asOperand (l.expr e (.expected element)) n).2
    rw [Lowerer.stores, elementEvents, ← hcode, ← htail, ← htype]
    simp [hstore, hoperand]

/-- The events of the code of arguments, and of their operands. -/
theorem events_args {es : List Expr}
    (ih : ∀ e ∈ es, ∀ use n, (l.expr e use n).1.events = l.exprEvents e use)
    (formals : List (Ty × Bool)) (position : Nat) (n : Names) :
    gather Instr.events (l.args formals position es n).1.1 = l.argEvents formals position es
      ∧ (l.args formals position es n).1.2.flatMap Operand.events = [] := by
  induction es generalizing position n with
  | nil => exact ⟨rfl, rfl⟩
  | cons e es ihes =>
    obtain ⟨hfirst, hrest⟩ := List.forall_mem_cons.mp ih
    have hplain := l.plainValue_argUse e formals position
    have hcode := gather_events_asOperand hplain (hfirst _) n
    have hoperand := Operand.events_of_isPlain (isPlain_asOperand hplain n)
    obtain ⟨htail, hoperands⟩ :=
      ihes hrest (position + 1) (asOperand (l.expr e (argUse formals position)) n).2
    rw [Lowerer.args, argEvents, ← hcode, ← htail]
    simp [hoperand, hoperands]

theorem events_fill {es : List Expr}
    (ih : ∀ e ∈ es, ∀ use n, (l.expr e use n).1.events = l.exprEvents e use) (element : Ty)
    (n : Names) :
    (packed es.length element (fun name ↦ l.stores name element 0 es) n).1.events
      = .array (.allocate (.array element)) :: l.elementEvents element es := by
  refine events_packed _ _ (fun hlength ↦ ?_)
    (fun name ↦ l.gather_events_stores ih name element 0) n
  rw [List.length_eq_zero_iff.mp hlength]
  rfl

theorem events_callArgs {es : List Expr}
    (ih : ∀ e ∈ es, ∀ use n, (l.expr e use n).1.events = l.exprEvents e use)
    (formals : List (Ty × Bool)) (n : Names) :
    gather Instr.events (l.callArgs formals es n).1.1 = l.callArgEvents formals es
      ∧ (l.callArgs formals es n).1.2.flatMap Operand.events = [] := by
  rw [callArgs, callArgEvents]
  cases l.packedType? formals es with
  | none => exact l.events_args ih formals 0 n
  | some element =>
    have hplain := plainValue_packed es.length element fun name ↦ l.stores name element 0 es
    have hoperand := Operand.events_of_isPlain (isPlain_asOperand hplain n)
    exact ⟨gather_events_asOperand hplain (l.events_fill ih element) n,
      List.flatMap_eq_nil_iff.mpr (List.forall_mem_singleton.mpr hoperand)⟩

theorem type_args (es : List Expr) (formals : List (Ty × Bool)) (position : Nat) (n : Names) :
    (l.args formals position es n).1.2.map Operand.type
      = es.mapIdx fun i e ↦ l.valueType e (argUse formals (position + i)) := by
  induction es generalizing position n with
  | nil => rfl
  | cons e es ih =>
    rw [Lowerer.args, List.mapIdx_cons]
    simp only [Draw.bind_apply, Draw.pure_apply, List.map_cons, ih,
      l.type_operand, Nat.add_zero, Nat.add_assoc, Nat.add_comm 1]

/-- The arguments of a call have the types that it says. -/
theorem type_callArgs (es : List Expr) (formals : List (Ty × Bool)) (n : Names) :
    (l.callArgs formals es n).1.2.map Operand.type = l.argTypes formals es := by
  rw [callArgs, argTypes]
  cases l.packedType? formals es with
  | none =>
    refine (l.type_args es formals 0 n).trans (List.mapIdx_eq_mapIdx_iff.mpr fun i _ ↦ ?_)
    rw [Nat.zero_add]
  | some element =>
    cases es with
    | nil => rfl
    | cons first rest => rfl

/-- The events of a call with plain operands. -/
theorem events_finishCall (s : CallSite) {code : List Item} {caller : Operand}
    {args : List Operand} (hcaller : caller.events = [])
    (hargs : args.flatMap Operand.events = [])
    (hcallerType : caller.type = l.operandType s.receiver)
    (hargTypes : args.map Operand.type = l.argTypes (l.formals s.receiver s.method) s.args)
    (hclass : caller.isClass = l.site.namesImport s.receiver.unparen) (n : Names) :
    (l.finishCall s.expr (l.site.namesImport s.receiver) code caller s.method args s.use n).1.events
      = gather Instr.events code
        ++ [.call (l.linkage s) (l.site.namesImport s.receiver.unparen)] := by
  rw [finishCall, linkage, ← hclass]
  by_cases huse : s.use = .statement
  · cases himport : l.site.namesImport s.receiver with
    | false =>
      simp [huse, Lowered.events, Instr.events, Call.events, Call.operandEvents, Call.linkage?,
        Call.isOnClass, hcaller, hargs, hcallerType, hargTypes]
    | true =>
      have honClass : caller.isClass = true := hclass.trans (Site.namesImport_unparen himport)
      simp [huse, Lowered.events, Instr.events, Call.events, Call.operandEvents, Call.linkage?,
        Call.isOnClass, hargs, hcallerType, hargTypes, honClass]
  · rw [if_neg huse, events_stored _ fun _ h ↦ Instr.noConfusion h]
    simp [huse, Instr.events, Call.events, Call.operandEvents, Call.linkage?, Call.isOnClass,
      hcaller, hargs, hcallerType, hargTypes]

theorem events_value_finishCall (e : Expr) (onImport : Bool) (code : List Item) (caller : Operand)
    (method : String) (args : List Operand) (use : Use) (n : Names) :
    (l.finishCall e onImport code caller method args use n).1.value.events = []
      ∨ use = .statement
        ∧ (l.finishCall e onImport code caller method args use n).1.value.isCall = true := by
  rw [finishCall]
  by_cases huse : use = .statement
  · rw [if_pos huse]
    exact .inr ⟨huse, rfl⟩
  · rw [if_neg huse]
    exact .inl (events_value_stored _ (fun _ h ↦ Instr.noConfusion h) _)

/-- **The events of a lowered expression are those of the expression**, in their order. -/
theorem events_expr (e : Expr) : ∀ use n, (l.expr e use n).1.events = l.exprEvents e use := by
  induction e with
  | int | bool | self => exact fun _ _ ↦ rfl
  | ident name span => exact fun _ n ↦ (l.events_ident name n).1
  | paren inner span ih => exact fun use ↦ ih use.inParens
  | arrayLit elements span ih => exact fun _ ↦ l.events_fill ih .int32
  | not operand span ih =>
    intro use n
    have hcode := gather_events_asOperand (l.plainValue_operand operand) (ih .operand) n
    rw [exprEvents, ← hcode, Lowerer.expr]
    simp [Lowered.events, Instr.events, l.events_operand]
  | newArray element size span ih =>
    intro use n
    have hcode := gather_events_asOperand (l.plainValue_operand size) (ih .operand) n
    rw [exprEvents, ← hcode, Lowerer.expr]
    simp [Lowered.events, Instr.events, Call.events, Call.operandEvents, Call.newArray,
      Call.isNewArray, Call.linkage?, l.events_operand]
  | newObject className span =>
    intro use n
    have hnew : (Instr.call (Call.newObject className)).events
        = l.exprEvents (.newObject className span) use := by
      simp [Instr.events, Call.events, Call.operandEvents, Call.newObject, Call.isNewArray,
        Call.linkage?, exprEvents]
    have hconstruct : ∀ name t, (Instr.call (Call.construct (.var name t))).events = [] :=
      fun _ _ ↦ rfl
    rw [← hnew, Lowerer.expr]
    simp [Lowered.events, materialize, hconstruct]
  | index array position span iha ihp =>
    intro use n
    have harray := gather_events_asVar (l.plainValue_operand array) (iha .operand) n
    have htype := l.type_var array n
    rcases h₁ : asVar (l.expr array .operand) n with ⟨⟨code₁, name, t⟩, n₁⟩
    have hposition := gather_events_asOperand (l.plainValue_operand position) (ihp .operand) n₁
    have hindex := l.events_operand position n₁
    rcases h₂ : asOperand (l.expr position .operand) n₁ with ⟨⟨code₂, index⟩, n₂⟩
    rw [h₁] at harray htype
    rw [h₂] at hposition hindex
    obtain rfl : t = l.operandType array := htype
    have hload : (Operand.element name index (l.operandType array).elementOrInt).events
        = [.array (.load (l.operandType array).elementOrInt)] := by
      rw [Operand.events, hindex]
      rfl
    have hkept : changes [⟨(l.operandType array).elementOrInt, (Instr.single (.element name index
        (l.operandType array).elementOrInt)).resultType⟩] = [] := changes_self _
    rw [exprEvents, ← harray, ← hposition]
    rcases l.expr_index h₁ h₂ span use with ⟨_, heq⟩ | ⟨_, heq⟩ <;> rw [heq] <;>
      simp [Lowered.events, hload, hkept]
  | binary op left right span ihl ihr =>
    intro use n
    have hright := l.resultType_expr right .operand (l.expr left .operand n).2
    rw [valueType_operand] at hright
    rw [l.expr_binary, exprEvents, ← ihl .operand n, ← ihr .operand (l.expr left .operand n).2,
      ← hright]
    cases op with
    | and => exact events_shortCircuit _ _ (l.isReference_typeOf_binary (.inl rfl) _ _ _) _ _
    | or => exact events_shortCircuit _ _ (l.isReference_typeOf_binary (.inr (.inl rfl)) _ _ _) _ _
    | _ =>
      refine (events_operation _ (l.plainValue_operand left _) (l.plainValue_operand right _) _ _
        _).1.trans ?_
      exact (List.append_nil _).symm
  | call receiver method args span ihr iha =>
    intro use n
    obtain ⟨hcode, hargs⟩ := l.events_callArgs iha (l.formals receiver method)
      (asOperand (l.expr receiver .operand) n).2
    have hcallerType : (asOperand (l.expr receiver .operand) n).1.2.type = l.operandType receiver :=
      (l.type_operand _ _ n).trans (l.valueType_operand receiver)
    rw [l.expr_call]
    refine (l.events_finishCall ⟨receiver, method, args, span, use⟩ (l.events_operand receiver n)
      hargs hcallerType (l.type_callArgs args _ _) (l.isClass_operand receiver n) _).trans ?_
    rw [gather_append, hcode,
      gather_events_asOperand (l.plainValue_operand receiver) (ihr .operand), exprEvents_call]
  | length array span ih =>
    intro use n
    have hlength : ∀ name t, (Instr.call (Call.lengthOf (.var name t))).events = [] :=
      fun _ _ ↦ rfl
    rw [l.expr_length, events_stored _ fun _ h ↦ Instr.noConfusion h, hlength,
      gather_events_asVar (l.plainValue_operand array) (ih .operand)]
    exact List.append_nil _

/-- Outside of an assignment the value of an expression has no events, unless it allocates an array
or is a call that makes a statement. -/
theorem events_value (e : Expr) {use : Use} (huse : ∀ t, use ≠ .assign t) (n : Names) :
    (l.expr e use n).1.value.events = valueEvents e
      ∨ use = .statement ∧ (l.expr e use n).1.value.isCall = true := by
  have hplain := l.plainValue_expr e huse n
  induction e generalizing use with
  | paren inner span ih =>
    have huse' : ∀ t, use.inParens ≠ .assign t := by
      intro t
      cases use <;> simp [Use.inParens]
    refine (ih huse' hplain).imp_right fun h ↦ ⟨?_, h.2⟩
    cases use with
    | statement => rfl
    | _ => exact Use.noConfusion h.1
  | int | bool | self => exact .inl rfl
  | newObject | length => exact .inl (Instr.events_of_operand? rfl hplain)
  | ident name span => exact .inl (l.events_ident name n).2
  | arrayLit elements span =>
    refine .inl (Instr.events_of_operand? ?_ hplain)
    rw [Lowerer.expr, packed, Draw.bind_apply]
    split <;> rfl
  | not operand span => exact .inl (l.events_operand operand n)
  | newArray element size span =>
    refine .inl ?_
    rw [Lowerer.expr]
    simp [Instr.events, Call.events, Call.operandEvents, Call.newArray, Call.isNewArray,
      Call.linkage?, l.events_operand, valueEvents]
  | index array position span =>
    refine .inl (Instr.events_of_operand? ?_ hplain)
    rcases l.expr_index (n := n) rfl rfl span use with ⟨_, heq⟩ | ⟨_, heq⟩ <;> rw [heq] <;> rfl
  | binary op left right span =>
    refine .inl ?_
    rw [l.expr_binary]
    cases op with
    | and | or => rfl
    | _ =>
      exact (events_operation _ (l.plainValue_operand left _) (l.plainValue_operand right _) _ _
        _).2
  | call receiver method args span =>
    rw [l.expr_call]
    exact l.events_value_finishCall _ _ _ _ _ _ _ _

/-! ## Statements -/

theorem gather_events_kept (e : Expr) (n : Names) :
    gather Instr.events (l.expr e .operand n).1.code = l.keptEvents e := by
  have htotal := l.events_expr e .operand n
  have hvalue := (l.events_value e (fun _ h ↦ Use.noConfusion h) n).resolve_right
    fun h ↦ Use.noConfusion (show Use.operand = .statement from h.1)
  rw [Lowered.events, hvalue, ← l.keptEvents_append_value] at htotal
  exact List.append_cancel_right htotal

theorem gather_events_assign (target value : Expr) (n : Names) :
    gather Instr.events (l.assign target value n).1 = l.assignEvents target value := by
  cases target with
  | ident name s =>
    rw [Lowerer.assign, assignEvents, targetTransfer?, assignUse]
    dsimp only
    split
    · rename_i hfield
      have hplain := l.plainValue_expected value (l.typeOf (.ident name s))
      have hoperand := Operand.events_of_isPlain (isPlain_asOperand hplain n)
      have htype : (asOperand (l.expr value (.expected (l.typeOf (.ident name s)))) n).1.2.type
          = l.valueType value (.assign (l.typeOf (.ident name s))) :=
        (l.type_operand _ _ n).trans
          (l.valueType_inParens value (.assign (l.typeOf (.ident name s))))
      have hput : ∀ t o, (Instr.putField l.receiver name t o).events
          = o.events ++ changes [⟨t, o.type⟩] ++ [.access ⟨l.receiver, name, t, true⟩] :=
        fun _ _ ↦ rfl
      rw [← gather_events_asOperand hplain (l.events_expr value _) n, ← htype]
      simp [hput, hoperand, accessEvents, access?, hfield, ← l.typeOf_ident name s]
    · rename_i hfield
      rw [← l.events_expr value (.assign (l.typeOf (.ident name s))) n,
        ← l.resultType_expr value _ n]
      simp [Lowered.events, accessEvents, access?, hfield]
  | index array position s =>
    have harray := gather_events_asVar (l.plainValue_operand array) (l.events_expr array .operand) n
    have htype := l.type_var array n
    rw [Lowerer.assign, assignEvents, targetTransfer?, assignUse]
    simp only [Draw.bind_apply, Draw.pure_apply]
    generalize asVar (l.expr array .operand) n = first at harray htype ⊢
    obtain ⟨⟨code₁, name, t⟩, n₁⟩ := first
    obtain rfl : t = l.operandType array := htype
    have hposition := gather_events_asOperand (l.plainValue_operand position)
      (l.events_expr position .operand) n₁
    have hindex := l.events_operand position n₁
    generalize asOperand (l.expr position .operand) n₁ = second at hposition hindex ⊢
    obtain ⟨⟨code₂, index⟩, n₂⟩ := second
    have hvalue := l.events_expr value (.assign (l.operandType array).elementOrInt) n₂
    have hstored := l.resultType_expr value (.assign (l.operandType array).elementOrInt) n₂
    rw [← harray, ← hposition, ← hvalue, ← hstored]
    simp [Lowered.events, Instr.events, hindex]
  | _ => exact l.gather_events_kept value n

theorem valueEvents_of_not_isCall (e : Expr) {use : Use} {n : Names}
    (h : ¬ (l.expr e use n).1.value.isCall = true) : valueEvents e = [] := by
  induction e generalizing use with
  | paren inner span ih => exact ih h
  | newArray => exact absurd rfl h
  | _ => rfl

/-- Of the value of a statement only a call is kept, but another value does nothing. -/
theorem gather_events_exprStmt (e : Expr) (n : Names) :
    gather Instr.events (l.exprStmt e n).1 = l.exprEvents e .statement := by
  rw [Lowerer.exprStmt, ← l.events_expr e .statement n]
  simp only [Draw.bind_apply, Draw.pure_apply]
  split
  · simp [Lowered.events]
  · rename_i hcall
    have hvalue : (l.expr e .statement n).1.value.events = [] :=
      ((l.events_value e (fun _ h ↦ Use.noConfusion h) n).resolve_right fun h ↦ hcall h.2).trans
        (l.valueEvents_of_not_isCall e hcall)
    simp [Lowered.events, hvalue]

theorem gather_events_stmts {sts : List Stmt}
    (ih : ∀ st ∈ sts, ∀ n, gather Instr.events (l.stmt st n).1 = l.stmtEvents st) (n : Names) :
    gather Instr.events (l.stmts sts n).1 = l.bodyEvents sts := by
  induction sts generalizing n with
  | nil => rfl
  | cons st sts ihs =>
    obtain ⟨hfirst, hrest⟩ := List.forall_mem_cons.mp ih
    rw [Lowerer.stmts, bodyEvents, ← hfirst n, ← ihs hrest (l.stmt st n).2]
    exact gather_append _ _ _

/-- The events of a lowered statement are those of the statement. -/
theorem gather_events_stmt (st : Stmt) :
    ∀ n, gather Instr.events (l.stmt st n).1 = l.stmtEvents st := by
  induction st with
  | assign target value span => exact l.gather_events_assign target value
  | expr e span => exact l.gather_events_exprStmt e
  | ret value span =>
    intro n
    cases value with
    | none => rfl
    | some e =>
      have hcode := gather_events_asOperand (l.plainValue_operand e) (l.events_expr e .operand) n
      have htype := (l.type_operand e .operand n).trans (l.valueType_operand e)
      rw [Lowerer.stmt, Lowerer.ret, stmtEvents, returnTransfer, ← hcode, ← htype]
      simp [Instr.events, l.events_operand]
  | cond test thenBranch elseBranch span iht ihe =>
    intro n
    obtain ⟨bodyLabel, endLabel, n₁, n₂, n₃, heq⟩ := l.stmt_cond test thenBranch elseBranch span n
    rw [heq, stmtEvents, ← l.events_expr test .condition n₁, ← l.gather_events_stmts ihe n₂,
      ← l.gather_events_stmts iht n₃]
    simp [gather_diamond, Lowered.events]
  | loop test body span ih =>
    intro n
    obtain ⟨bodyLabel, endLabel, n₁, heq⟩ := l.stmt_loop test body span n
    have hvalue := (l.events_value test (fun _ h ↦ Use.noConfusion h) n).resolve_right
      fun h ↦ Use.noConfusion (show Use.condition = .statement from h.1)
    rw [heq, stmtEvents, ← l.events_expr test .condition n, ← l.gather_events_stmts ih n₁, ← hvalue]
    simp [Lowered.events]

/-- **The events of a lowered method are those that its body asks for**, in their order. -/
theorem events_method (n : Names) :
    (l.method n).1.instrs.flatMap Instr.events = l.bodyEvents l.decl.body := by
  rw [l.instrs_method]
  show gather Instr.events (l.code n) = _
  rw [Lowerer.code, gather_append, l.gather_events_stmts fun st _ ↦ l.gather_events_stmt st]
  cases l.decl.hasReturn with
  | true => exact List.append_nil _
  | false => exact List.append_nil _

end Lowerer
end Ollir
end Jmm
