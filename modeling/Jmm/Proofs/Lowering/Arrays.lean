import Jmm.Proofs.Lowering.Events
import Jmm.Proofs.Typing.Rules

/-!
# The array operations of lowered code

Three kinds of instructions work on arrays: those that allocate one, and those that read or write an
element.  Each has a type written at it, which the allocation and the elements get from different
places.  `Lowerer.bodyArrayOps` lists the operations that a body asks for, in order and with their
types, and `Lowerer.arrayOps_method` says that the lowered method has just these.

An array of a literal or of `new` has elements of type `int32`.  Arguments that are packed for a
vararg go into an array of its element type, whatever that is.

The operations are events of the code, and the list is read off the events of the body.
-/

set_option autoImplicit false

namespace Jmm.Ollir

/-! ## Instructions -/

namespace Operand

/-- The array operations that read an operand. -/
def arrayOps : Operand → List ArrayOp
  | element _ index t => index.arrayOps ++ [.load t]
  | _ => []

/-- The array operations of an assignment to an operand, given those of the value. -/
def assignOps (value : List ArrayOp) : Operand → List ArrayOp
  | element _ index t => index.arrayOps ++ value ++ [.store t]
  | _ => value

end Operand

/-- The array operations of a call. -/
def Call.arrayOps (c : Call) : List ArrayOp :=
  match c.kind with
  | .new =>
    if c.isNewArray then c.args.flatMap Operand.arrayOps ++ [.allocate c.returns] else []
  | .arrayLength => c.caller.arrayOps
  | .special => c.caller.arrayOps
  | .virtual => c.caller.arrayOps ++ c.args.flatMap Operand.arrayOps
  | .static => c.args.flatMap Operand.arrayOps

/-- The array operations of an instruction. -/
def Instr.arrayOps : Instr → List ArrayOp
  | assign target _ value => target.assignOps value.arrayOps
  | single o => o.arrayOps
  | binary _ left right _ => left.arrayOps ++ right.arrayOps
  | not o _ => o.arrayOps
  | call c => c.arrayOps
  | getField object _ _ => object.arrayOps
  | putField object _ _ value => object.arrayOps ++ value.arrayOps
  | branch test _ => test.arrayOps
  | goto _ => []
  | ret _ value => value.toList.flatMap Operand.arrayOps

/-! ### Allocations -/

section allocations

variable {t : Ty}

@[simp] theorem Operand.allocate_notMem_arrayOps {o : Operand} : .allocate t ∉ o.arrayOps := by
  intro h
  induction o with
  | element name index type ih =>
    rcases List.mem_append.mp h with h | h
    · exact ih h
    · cases List.mem_singleton.mp h
  | _ => exact absurd h List.not_mem_nil

theorem Operand.allocate_mem_assignOps {o : Operand} {value : List ArrayOp} :
    .allocate t ∈ o.assignOps value ↔ .allocate t ∈ value := by
  cases o with
  | element => simp [assignOps]
  | _ => rfl

theorem Call.allocate_mem_arrayOps {c : Call} :
    .allocate t ∈ c.arrayOps ↔ c.isNewArray = true ∧ c.returns = t := by
  rw [arrayOps]
  cases hkind : c.kind with
  | new =>
    cases harray : c.isNewArray with
    | true => simp [eq_comm]
    | false => simp
  | _ => simp [isNewArray, hkind]

/-- An instruction allocates an array if it is, or has as its value, a call that does. -/
theorem Instr.allocate_mem_arrayOps {i : Instr} :
    .allocate t ∈ i.arrayOps ↔ ∃ c, i.call? = some c ∧ c.isNewArray = true ∧ c.returns = t := by
  induction i with
  | assign target type value ih => exact Operand.allocate_mem_assignOps.trans ih
  | branch test label ih => exact ih
  | call c => simp [arrayOps, Call.allocate_mem_arrayOps, call?]
  | _ => simp [arrayOps, call?]

end allocations

/-! ### Events -/

/-- The array operation of an event. -/
def Event.array? : Event → Option ArrayOp
  | array op => some op
  | _ => none

section Events

theorem Operand.filterMap_array_events (o : Operand) :
    o.events.filterMap Event.array? = o.arrayOps := by
  induction o with
  | element name index t ih =>
    rw [events, List.filterMap_append, ih]
    rfl
  | _ => rfl

theorem Operand.filterMap_array_flatMap (os : List Operand) :
    (os.flatMap events).filterMap Event.array? = os.flatMap arrayOps := by
  rw [List.filterMap_flatMap]
  exact congrArg (os.flatMap ·) (funext filterMap_array_events)

theorem Call.filterMap_array_events (c : Call) :
    c.events.filterMap Event.array? = c.arrayOps := by
  have hcall : (c.linkage?.toList.map fun link ↦ Event.call link c.isOnClass).filterMap
      Event.array? = [] := by
    cases c.linkage? <;> rfl
  rw [events, List.filterMap_append, hcall, List.append_nil, operandEvents, arrayOps]
  cases c.kind with
  | new =>
    cases c.isNewArray with
    | true =>
      simp only [if_true, List.filterMap_append, Operand.filterMap_array_flatMap]
      rfl
    | false => rfl
  | arrayLength | special => exact c.caller.filterMap_array_events
  | virtual =>
    simp only [List.filterMap_append, Operand.filterMap_array_flatMap,
      Operand.filterMap_array_events]
  | static => exact Operand.filterMap_array_flatMap c.args

/-- The array operations of an instruction are among its events. -/
theorem Instr.filterMap_array_events (i : Instr) :
    i.events.filterMap Event.array? = i.arrayOps := by
  have hchanges : ∀ ts, (changes ts).filterMap Event.array? = [] := filterMap_changes fun _ ↦ rfl
  induction i with
  | assign target type value ih =>
    cases target with
    | element name index t =>
      simp only [events, arrayOps, Operand.assignOps, List.filterMap_append, ih,
        Operand.filterMap_array_events, List.filterMap_cons, Event.array?, hchanges]
    | _ => simp only [events, arrayOps, Operand.assignOps, List.filterMap_append, ih, hchanges,
        List.append_nil]
  | branch test label ih => exact ih
  | single o | not o => exact o.filterMap_array_events
  | binary op left right type =>
    simp only [events, arrayOps, List.filterMap_append, Operand.filterMap_array_events]
  | call c => exact c.filterMap_array_events
  | getField object field type =>
    rw [events, List.filterMap_append, Operand.filterMap_array_events]
    exact List.append_nil _
  | putField object field type value =>
    simp only [events, arrayOps, List.filterMap_append, Operand.filterMap_array_events, hchanges,
      List.append_nil]
    exact List.append_nil _
  | goto label => rfl
  | ret type value =>
    cases value with
    | none => rfl
    | some o =>
      rw [events, List.filterMap_append, Operand.filterMap_array_events, hchanges]
      exact (List.append_nil _).trans (List.append_nil _).symm

end Events

namespace Lowerer

variable (l : Lowerer)

/-! ## What the source asks for -/

mutual

/-- The array operations of an expression. -/
def exprArrayOps : Expr → List ArrayOp
  | .int _ _ | .bool _ _ | .ident _ _ | .self _ => []
  | .paren inner _ => exprArrayOps inner
  | .arrayLit elements _ => .allocate Ty.intArray :: exprsArrayOps [.store .int32] elements
  | .not operand _ => exprArrayOps operand
  | .index array position _ =>
    exprArrayOps array ++ exprArrayOps position ++ [.load (l.operandType array).elementOrInt]
  | .binary _ left right _ => exprArrayOps left ++ exprArrayOps right
  | .call receiver method args _ =>
    exprArrayOps receiver
      ++ match l.packedType? (l.formals receiver method) args with
        | some element => .allocate (.array element) :: exprsArrayOps [.store element] args
        | none => exprsArrayOps [] args
  | .newArray _ size _ => exprArrayOps size ++ [.allocate Ty.intArray]
  | .newObject className _ =>
    -- a class of this name is taken for an array
    if className = Call.arrayClass then [.allocate (.named className)] else []
  | .length array _ => exprArrayOps array

/-- The array operations of expressions, with what is done after each of them. -/
def exprsArrayOps (after : List ArrayOp) : List Expr → List ArrayOp
  | [] => []
  | e :: es => exprArrayOps e ++ after ++ exprsArrayOps after es

end

/-- The array operations of the value of an expression, without those of the code before it: an
array of a given length is allocated where its value is used. -/
def valueArrayOps : Expr → List ArrayOp
  | .paren inner _ => valueArrayOps inner
  | .newArray _ _ _ => [.allocate Ty.intArray]
  | _ => []

/-- The array operations of an expression whose value is not used. -/
def keptArrayOps : Expr → List ArrayOp
  | .paren inner _ => keptArrayOps inner
  | .newArray _ size _ => l.exprArrayOps size
  | e => l.exprArrayOps e

/-- The array operations of an assignment. -/
def assignArrayOps (target value : Expr) : List ArrayOp :=
  match target with
  | .ident _ _ => l.exprArrayOps value
  | .index array position _ =>
    l.exprArrayOps array ++ l.exprArrayOps position ++ l.exprArrayOps value
      ++ [.store (l.operandType array).elementOrInt]
  | _ => l.keptArrayOps value

mutual

/-- The array operations of a statement.  Of a conditional the second branch comes first; the value
of the test of a loop is used twice. -/
def stmtArrayOps : Stmt → List ArrayOp
  | .assign target value _ => l.assignArrayOps target value
  | .expr e _ => l.exprArrayOps e
  | .ret none _ => []
  | .ret (some e) _ => l.exprArrayOps e
  | .cond test thenBranch elseBranch _ =>
    l.exprArrayOps test ++ bodyArrayOps elseBranch ++ bodyArrayOps thenBranch
  | .loop test body _ => l.exprArrayOps test ++ bodyArrayOps body ++ valueArrayOps test

/-- The array operations of statements. -/
def bodyArrayOps : List Stmt → List ArrayOp
  | [] => []
  | st :: sts => stmtArrayOps st ++ bodyArrayOps sts

end

/-! ## The source's events -/

theorem keptArrayOps_append_value (e : Expr) :
    l.keptArrayOps e ++ valueArrayOps e = l.exprArrayOps e := by
  induction e with
  | paren inner span ih => exact ih
  | newArray element size span => rfl
  | _ => exact List.append_nil _

theorem filterMap_array_elementEvents {es : List Expr}
    (ih : ∀ e ∈ es, ∀ use, (l.exprEvents e use).filterMap Event.array? = l.exprArrayOps e)
    (element : Ty) :
    (l.elementEvents element es).filterMap Event.array? = l.exprsArrayOps [.store element] es := by
  induction es with
  | nil => rfl
  | cons e es ihes =>
    obtain ⟨hfirst, hrest⟩ := List.forall_mem_cons.mp ih
    have hchanges : ∀ ts, (changes ts).filterMap Event.array? = [] := filterMap_changes fun _ ↦ rfl
    simp only [elementEvents, exprsArrayOps, List.filterMap_append, hfirst, ihes hrest,
      List.filterMap_cons, Event.array?, hchanges]

theorem filterMap_array_argEvents {es : List Expr}
    (ih : ∀ e ∈ es, ∀ use, (l.exprEvents e use).filterMap Event.array? = l.exprArrayOps e)
    (formals : List (Ty × Bool)) (position : Nat) :
    (l.argEvents formals position es).filterMap Event.array? = l.exprsArrayOps [] es := by
  induction es generalizing position with
  | nil => rfl
  | cons e es ihes =>
    obtain ⟨hfirst, hrest⟩ := List.forall_mem_cons.mp ih
    rw [argEvents, exprsArrayOps, List.filterMap_append, hfirst, ihes hrest, List.append_nil]

theorem filterMap_array_exprEvents (e : Expr) :
    ∀ use, (l.exprEvents e use).filterMap Event.array? = l.exprArrayOps e := by
  induction e with
  | int | bool | self => exact fun _ ↦ rfl
  | ident name span => exact fun _ ↦ l.filterMap_accessEvents (fun _ ↦ rfl) _
  | paren inner span ih => exact fun use ↦ ih use.inParens
  | arrayLit elements span ih =>
    intro _
    rw [exprEvents, exprArrayOps, ← l.filterMap_array_elementEvents ih]
    rfl
  | not operand span ih | length operand span ih => exact fun _ ↦ ih .operand
  | index array position span iha ihp =>
    intro _
    rw [exprEvents, exprArrayOps, List.filterMap_append, List.filterMap_append, iha, ihp]
    rfl
  | binary op left right span ihl ihr =>
    intro _
    rw [exprEvents, exprArrayOps, List.filterMap_append, List.filterMap_append, ihl, ihr,
      filterMap_changes fun _ ↦ rfl, List.append_nil]
  | call receiver method args span ihr iha =>
    intro _
    rw [exprEvents_call, exprArrayOps, List.filterMap_append, List.filterMap_append, ihr,
      callArgEvents]
    refine (List.append_nil _).trans (congrArg (l.exprArrayOps receiver ++ ·) ?_)
    cases l.packedType? (l.formals receiver method) args with
    | none => exact l.filterMap_array_argEvents iha _ 0
    | some element =>
      exact congrArg (List.cons (.allocate (.array element)))
        (l.filterMap_array_elementEvents iha element)
  | newArray element size span ih =>
    intro _
    rw [exprEvents, exprArrayOps, List.filterMap_append, ih]
    rfl
  | newObject className span =>
    intro _
    rw [exprEvents, exprArrayOps]
    split <;> rfl

theorem filterMap_array_valueEvents (e : Expr) :
    (valueEvents e).filterMap Event.array? = valueArrayOps e := by
  induction e with
  | paren inner span ih => exact ih
  | _ => rfl

theorem filterMap_array_keptEvents (e : Expr) :
    (l.keptEvents e).filterMap Event.array? = l.keptArrayOps e := by
  have htotal := l.filterMap_array_exprEvents e .operand
  rw [← l.keptEvents_append_value, List.filterMap_append, filterMap_array_valueEvents,
    ← l.keptArrayOps_append_value] at htotal
  exact List.append_cancel_right htotal

theorem filterMap_array_assignEvents (target value : Expr) :
    (l.assignEvents target value).filterMap Event.array? = l.assignArrayOps target value := by
  have hchanges : ∀ ts, (changes ts).filterMap Event.array? = [] := filterMap_changes fun _ ↦ rfl
  cases target with
  | ident name span =>
    rw [assignEvents, List.filterMap_append, List.filterMap_append, hchanges,
      l.filterMap_array_exprEvents, l.filterMap_accessEvents fun _ ↦ rfl, List.append_nil,
      List.append_nil]
    rfl
  | index array position span =>
    rw [assignEvents, assignArrayOps]
    simp only [List.filterMap_append, l.filterMap_array_exprEvents, List.filterMap_cons,
      Event.array?, hchanges]
  | _ => exact l.filterMap_array_keptEvents value

theorem filterMap_array_stmts {sts : List Stmt}
    (ih : ∀ st ∈ sts, (l.stmtEvents st).filterMap Event.array? = l.stmtArrayOps st) :
    (l.bodyEvents sts).filterMap Event.array? = l.bodyArrayOps sts := by
  induction sts with
  | nil => rfl
  | cons st sts ihs =>
    obtain ⟨hfirst, hrest⟩ := List.forall_mem_cons.mp ih
    rw [bodyEvents, bodyArrayOps, List.filterMap_append, hfirst, ihs hrest]

theorem filterMap_array_stmtEvents (st : Stmt) :
    (l.stmtEvents st).filterMap Event.array? = l.stmtArrayOps st := by
  induction st with
  | assign target value span => exact l.filterMap_array_assignEvents target value
  | expr e span => exact l.filterMap_array_exprEvents e .statement
  | ret value span =>
    cases value with
    | none => rfl
    | some e =>
      rw [stmtEvents, stmtArrayOps, List.filterMap_append, l.filterMap_array_exprEvents,
        filterMap_changes fun _ ↦ rfl, List.append_nil]
  | cond test thenBranch elseBranch span iht ihe =>
    rw [stmtEvents, stmtArrayOps, List.filterMap_append, List.filterMap_append,
      l.filterMap_array_exprEvents, l.filterMap_array_stmts ihe, l.filterMap_array_stmts iht]
  | loop test body span ih =>
    rw [stmtEvents, stmtArrayOps, List.filterMap_append, List.filterMap_append,
      l.filterMap_array_exprEvents, l.filterMap_array_stmts ih, filterMap_array_valueEvents]

theorem filterMap_array_bodyEvents (sts : List Stmt) :
    (l.bodyEvents sts).filterMap Event.array? = l.bodyArrayOps sts :=
  l.filterMap_array_stmts fun st _ ↦ l.filterMap_array_stmtEvents st

/-- **The array operations of a lowered method are those of its body**, in their order. -/
theorem arrayOps_method (n : Names) :
    (l.method n).1.instrs.flatMap Instr.arrayOps = l.bodyArrayOps l.decl.body := by
  rw [← l.filterMap_array_bodyEvents, ← l.events_method n, List.filterMap_flatMap]
  exact congrArg (List.flatMap · _) (funext fun i : Instr ↦ i.filterMap_array_events.symm)

/-! ## Where arrays come from -/

/-- The type of the array that an expression allocates, the expressions in it left aside. -/
def allocated? : Expr → Option Ty
  | .arrayLit _ _ => some Ty.intArray
  | .newArray _ _ _ => some Ty.intArray
  | .call receiver method args _ =>
    (l.packedType? (l.formals receiver method) args).map Ty.array
  | .newObject className _ =>
    if className = Call.arrayClass then some (.named className) else none
  | _ => none

section allocated

variable {t : Ty} {e : Expr}

theorem mem_allocated_self (h : l.allocated? e = some t) : t ∈ e.parts.filterMap l.allocated? := by
  rw [Expr.parts_eq]
  exact List.mem_filterMap.mpr ⟨e, List.mem_cons_self, h⟩

theorem mem_allocated_child {c : Expr} (hc : c ∈ e.children)
    (h : t ∈ c.parts.filterMap l.allocated?) : t ∈ e.parts.filterMap l.allocated? := by
  obtain ⟨part, hpart, h⟩ := List.mem_filterMap.mp h
  rw [Expr.parts_eq e]
  exact List.mem_filterMap.mpr
    ⟨part, List.mem_cons_of_mem e (List.mem_flatMap.mpr ⟨c, hc, hpart⟩), h⟩

theorem exists_of_mem_exprsArrayOps {es : List Expr} {op : ArrayOp} {after : List ArrayOp}
    (h : op ∈ l.exprsArrayOps after es) : op ∈ after ∨ ∃ e ∈ es, op ∈ l.exprArrayOps e := by
  induction es with
  | nil => exact absurd h List.not_mem_nil
  | cons e es ih =>
    rw [exprsArrayOps, List.mem_append, List.mem_append] at h
    rcases h with (h | h) | h
    · exact .inr ⟨e, List.mem_cons_self, h⟩
    · exact .inl h
    · rcases ih h with h | ⟨e', he', h⟩
      · exact .inl h
      · exact .inr ⟨e', List.mem_cons_of_mem e he', h⟩

/-- Of the operations of an array that is filled only the first allocates it. -/
theorem eq_or_exists_of_mem_fill {es : List Expr} {type element : Ty}
    (h : .allocate t ∈ ArrayOp.allocate type :: l.exprsArrayOps [.store element] es) :
    t = type ∨ ∃ e ∈ es, .allocate t ∈ l.exprArrayOps e := by
  rcases List.mem_cons.mp h with h | h
  · exact .inl (ArrayOp.allocate.inj h)
  · rcases l.exists_of_mem_exprsArrayOps h with h | h
    · cases List.mem_singleton.mp h
    · exact .inr h

/-- An array that the code of an expression allocates belongs to a part of the expression. -/
theorem mem_allocated_of_mem_exprArrayOps (h : .allocate t ∈ l.exprArrayOps e) :
    t ∈ e.parts.filterMap l.allocated? := by
  induction e with
  | int | bool | ident | self => exact absurd h List.not_mem_nil
  | paren inner span ih | not inner span ih | length inner span ih =>
    exact l.mem_allocated_child List.mem_cons_self (ih h)
  | arrayLit elements span ih =>
    rcases l.eq_or_exists_of_mem_fill h with rfl | ⟨e, he, h⟩
    · exact l.mem_allocated_self rfl
    · exact l.mem_allocated_child he (ih e he h)
  | index array position span iha ihp =>
    rw [exprArrayOps, List.mem_append, List.mem_append] at h
    rcases h with (h | h) | h
    · exact l.mem_allocated_child List.mem_cons_self (iha h)
    · exact l.mem_allocated_child (List.mem_cons_of_mem _ List.mem_cons_self) (ihp h)
    · cases List.mem_singleton.mp h
  | binary op left right span ihl ihr =>
    rw [exprArrayOps, List.mem_append] at h
    rcases h with h | h
    · exact l.mem_allocated_child List.mem_cons_self (ihl h)
    · exact l.mem_allocated_child (List.mem_cons_of_mem _ List.mem_cons_self) (ihr h)
  | newArray element size span ih =>
    rw [exprArrayOps, List.mem_append, List.mem_singleton] at h
    rcases h with h | h
    · exact l.mem_allocated_child List.mem_cons_self (ih h)
    · exact l.mem_allocated_self (congrArg some (ArrayOp.allocate.inj h).symm)
  | newObject className span =>
    refine l.mem_allocated_self ?_
    rw [exprArrayOps] at h
    rw [allocated?]
    split at h
    · rename_i hname
      rw [if_pos hname, ArrayOp.allocate.inj (List.mem_singleton.mp h)]
    · exact absurd h List.not_mem_nil
  | call receiver method args span ihr iha =>
    have harg : (∃ e ∈ args, .allocate t ∈ l.exprArrayOps e) →
        t ∈ (Expr.call receiver method args span).parts.filterMap l.allocated? := by
      rintro ⟨e, he, h⟩
      exact l.mem_allocated_child (List.mem_cons_of_mem _ he) (iha e he h)
    rw [exprArrayOps, List.mem_append] at h
    rcases h with h | h
    · exact l.mem_allocated_child List.mem_cons_self (ihr h)
    · cases hpacked : l.packedType? (l.formals receiver method) args with
      | none =>
        rw [hpacked] at h
        exact harg ((l.exists_of_mem_exprsArrayOps h).resolve_left List.not_mem_nil)
      | some element =>
        rw [hpacked] at h
        rcases l.eq_or_exists_of_mem_fill h with rfl | h
        · exact l.mem_allocated_self (by rw [allocated?, hpacked]; rfl)
        · exact harg h

theorem mem_allocated_of_mem_assign {target value : Expr}
    (h : .allocate t ∈ l.assignArrayOps target value) :
    ∃ e ∈ [target, value], t ∈ e.parts.filterMap l.allocated? := by
  have hvalue (h : .allocate t ∈ l.exprArrayOps value) :
      ∃ e ∈ [target, value], t ∈ e.parts.filterMap l.allocated? :=
    ⟨value, List.mem_cons_of_mem target List.mem_cons_self, l.mem_allocated_of_mem_exprArrayOps h⟩
  cases target with
  | ident => exact hvalue h
  | index array position span =>
    rw [assignArrayOps, List.mem_append, List.mem_append] at h
    rcases h with (h | h) | h
    · refine ⟨.index array position span, List.mem_cons_self, ?_⟩
      exact l.mem_allocated_of_mem_exprArrayOps (List.mem_append_left _ h)
    · exact hvalue h
    · cases List.mem_singleton.mp h
  | _ =>
    refine hvalue ?_
    rw [← l.keptArrayOps_append_value]
    exact List.mem_append_left _ h

theorem mem_allocated_of_mem_stmts {sts : List Stmt}
    (ih : ∀ st ∈ sts, .allocate t ∈ l.stmtArrayOps st →
      ∃ e ∈ st.exprs, t ∈ e.parts.filterMap l.allocated?)
    (h : .allocate t ∈ l.bodyArrayOps sts) :
    ∃ e ∈ Stmt.exprsAll sts, t ∈ e.parts.filterMap l.allocated? := by
  induction sts with
  | nil => exact absurd h List.not_mem_nil
  | cons st sts ihs =>
    obtain ⟨ihst, ihsts⟩ := List.forall_mem_cons.mp ih
    rw [bodyArrayOps, List.mem_append] at h
    rcases h with h | h
    · obtain ⟨e, he, h⟩ := ihst h
      exact ⟨e, List.mem_append_left _ he, h⟩
    · obtain ⟨e, he, h⟩ := ihs ihsts h
      exact ⟨e, List.mem_append_right _ he, h⟩

theorem mem_allocated_of_mem_stmt (st : Stmt) (h : .allocate t ∈ l.stmtArrayOps st) :
    ∃ e ∈ st.exprs, t ∈ e.parts.filterMap l.allocated? := by
  induction st with
  | assign target value span => exact l.mem_allocated_of_mem_assign h
  | expr e span => exact ⟨e, List.mem_cons_self, l.mem_allocated_of_mem_exprArrayOps h⟩
  | ret value span =>
    cases value with
    | none => exact absurd h List.not_mem_nil
    | some e => exact ⟨e, List.mem_cons_self, l.mem_allocated_of_mem_exprArrayOps h⟩
  | cond test thenBranch elseBranch span iht ihe =>
    rw [stmtArrayOps, List.mem_append, List.mem_append] at h
    rcases h with (h | h) | h
    · exact ⟨test, List.mem_cons_self, l.mem_allocated_of_mem_exprArrayOps h⟩
    · obtain ⟨e, he, h⟩ := l.mem_allocated_of_mem_stmts ihe h
      exact ⟨e, List.mem_cons_of_mem test (List.mem_append_right _ he), h⟩
    · obtain ⟨e, he, h⟩ := l.mem_allocated_of_mem_stmts iht h
      exact ⟨e, List.mem_cons_of_mem test (List.mem_append_left _ he), h⟩
  | loop test body span ih =>
    rw [stmtArrayOps, List.mem_append, List.mem_append] at h
    have htest (h : .allocate t ∈ l.exprArrayOps test) :
        ∃ e ∈ (Stmt.loop test body span).exprs, t ∈ e.parts.filterMap l.allocated? :=
      ⟨test, List.mem_cons_self, l.mem_allocated_of_mem_exprArrayOps h⟩
    rcases h with (h | h) | h
    · exact htest h
    · obtain ⟨e, he, h⟩ := l.mem_allocated_of_mem_stmts ih h
      exact ⟨e, List.mem_cons_of_mem test he, h⟩
    · refine htest ?_
      rw [← l.keptArrayOps_append_value]
      exact List.mem_append_right _ h

/-- **An array that a method allocates belongs to an expression in its body**, which gives it its
type. -/
theorem exists_allocated {sts : List Stmt} (h : .allocate t ∈ l.bodyArrayOps sts) :
    ∃ e ∈ Stmt.exprParts sts, l.allocated? e = some t := by
  obtain ⟨e, he, h⟩ := l.mem_allocated_of_mem_stmts (fun st _ ↦ l.mem_allocated_of_mem_stmt st) h
  obtain ⟨part, hpart, h⟩ := List.mem_filterMap.mp h
  exact ⟨part, List.mem_flatMap.mpr ⟨e, he, hpart⟩, h⟩

end allocated

end Lowerer
end Jmm.Ollir
