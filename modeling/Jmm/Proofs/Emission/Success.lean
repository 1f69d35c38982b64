import Jmm.Compile
import Jmm.Proofs.Emission.Instructions

/-!
# When emission succeeds

Emission is partial: it gives a `Fault` where a class would have to be pushed, where members are
reached through a value that has no class, where a call of type `void` has to leave a value, and
where an object of the class `array` is allocated.  Whether it does can be read off the instruction
alone, once all variables have slots:

* `Instr.isValue` and `Instr.isEmittable` are the tests, `isOk_value` and `isOk_instr` say that they
  are exact;
* the variable table of a method binds all its variables, so that a class is emitted if and only if
  all its instructions pass the test (`isOk_assemble`).

Increments are taken as fused throughout, which adds one more way to fail.
-/

set_option autoImplicit false

namespace Jmm.Ollir

/-! ## Instructions that can be emitted -/

/-- An operand that can be pushed: no class stands for a value in it. -/
def Operand.isLoadable : Operand → Bool
  | classRef _ => false
  | element _ index _ => index.isLoadable
  | _ => true

/-- The type of an object, which has members. -/
def Ty.isNamed : Ty → Bool
  | named _ => true
  | _ => false

/-- A call that can be emitted, whatever becomes of its result. -/
def Call.isEmittable (c : Call) : Bool :=
  match c.kind with
  | .new =>
    if c.isNewArray then
      match c.args with
      | [length] => length.isLoadable
      | _ => false
    else c.caller.isClass
  | .arrayLength => c.caller.isLoadable
  | .special => c.caller.isLoadable && c.caller.type.isNamed
  | .virtual =>
    (c.caller.isClass || c.caller.isLoadable) && c.args.all Operand.isLoadable && c.method.isSome
      && c.caller.type.isNamed
  | .static => c.args.all Operand.isLoadable && c.method.isSome && c.caller.type.isNamed

/-- An instruction that can be emitted so that it leaves a value. -/
def Instr.isValue : Instr → Bool
  | single o => o.isLoadable
  | binary _ left right _ => left.isLoadable && right.isLoadable
  | not o _ => o.isLoadable
  | call c => c.returns ≠ .void && c.isEmittable
  | getField object _ _ => object.isLoadable && object.type.isNamed
  | _ => false

/-- If an assignment to an integer variable adds a literal to it or takes one away, the literal is
an integer. -/
def stepIsInt : Operand → Instr → Bool
  | .var name .int32, .binary op left right _ =>
    match Jasmin.Emitter.stepOf name op left right with
    | some (.literal _ type, _) => type = .int32
    | _ => true
  | _, _ => true

/-- An instruction that can be emitted. -/
def Instr.isEmittable : Instr → Bool
  | assign (.var name type) _ value => value.isValue && stepIsInt (.var name type) value
  | assign (.element _ index _) _ value => index.isLoadable && value.isValue
  | assign _ _ _ => false
  | call c => c.isEmittable
  | putField object _ _ value => object.isLoadable && value.isLoadable && object.type.isNamed
  | branch test _ => test.isValue
  | goto _ => true
  | ret _ (some value) => value.isLoadable
  | ret _ none => true
  | i => i.isValue

theorem Method.instrsOf_listingFrom (m : Method) (index : Nat) (is : List Instr) :
    instrsOf (m.listingFrom index is) = is := by
  have hlabels : ∀ index, instrsOf ((m.labelsAt index).map Item.label) = [] := fun index ↦ by
    simp [instrsOf, Item.instr?]
  induction is generalizing index with
  | nil => exact hlabels index
  | cons i is ih => rw [listingFrom, instrsOf_append, hlabels, instrsOf_instr, ih, List.nil_append]

theorem Method.instrsOf_listing (m : Method) : instrsOf m.listing = m.instrs :=
  m.instrsOf_listingFrom 0 m.instrs

end Jmm.Ollir

namespace Jmm.Jasmin

open Ollir (Operand Instr Call Item)

/-! ## Success of a sequence -/

section Bind

variable {α β : Type} {b : Bool} {n : Nat}

@[simp] theorem isOk_pure (a : α) : (pure a : Except Fault α).isOk = true := rfl

theorem exists_of_isOk {x : Except Fault α} (h : x.isOk = true) : ∃ a, x = .ok a := by
  cases x with
  | ok a => exact ⟨a, rfl⟩
  | error f => exact nomatch h

theorem isOk_bind {x : Except Fault α} {k : α → Except Fault β} (h : ∀ a, (k a).isOk = b) :
    (x >>= k).isOk = (x.isOk && b) := by
  cases x with
  | ok a => exact h a
  | error f => rfl

theorem Emit.isOk_bind {x : Emit α} {k : α → Emit β} (h : ∀ a n, (k a n).isOk = b) :
    ((x >>= k) n).isOk = ((x n).isOk && b) :=
  Jasmin.isOk_bind fun ⟨a, n'⟩ ↦ h a n'

theorem Emit.isOk_lift_bind {x : Except Fault α} {k : α → Emit β}
    (h : ∀ a n, (k a n).isOk = b) :
    (((liftM x : Emit α) >>= k) n).isOk = (x.isOk && b) := by
  cases x with
  | ok a => exact h a n
  | error f => rfl

/-- A last step that only puts results together does not fail. -/
theorem isOk_map {x : Except Fault α} {f : α → β} : (x >>= fun a ↦ pure (f a)).isOk = x.isOk :=
  (isOk_bind (b := true) fun _ ↦ rfl).trans (Bool.and_true _)

theorem Emit.isOk_map {x : Emit α} {f : α → β} :
    ((x >>= fun a ↦ pure (f a)) n).isOk = (x n).isOk :=
  (Emit.isOk_bind (b := true) fun _ _ ↦ rfl).trans (Bool.and_true _)

theorem Emit.isOk_lift_map {x : Except Fault α} {f : α → β} :
    (((liftM x : Emit α) >>= fun a ↦ pure (f a)) n).isOk = x.isOk :=
  (Emit.isOk_lift_bind (b := true) fun _ _ ↦ rfl).trans (Bool.and_true _)

end Bind

/-! ## Operands and calls -/

variable {e : Emitter} {o : Operand} {n : Nat}

/-- The variables of an operand have slots. -/
def Emitter.Binds (e : Emitter) (o : Operand) : Prop := ∀ x ∈ o.reads, (e.slot x).isOk = true

theorem isOk_load (h : e.Binds o) : (e.load o).isOk = o.isLoadable := by
  induction o with
  | literal value type => rfl
  | var name type =>
    rw [Emitter.load, isOk_map]
    exact h name (by simp [Operand.reads])
  | element name index type ih =>
    have hname : (e.slot name).isOk = true := h name (by simp [Operand.reads])
    have hindex := ih fun x hx ↦ h x (by simp [Operand.reads, hx])
    rw [Emitter.load, isOk_bind fun _ ↦ isOk_map, hname, hindex]
    rfl
  | receiver className => rfl
  | classRef name => rfl

theorem isOk_loads {os : List Operand} (h : ∀ o ∈ os, e.Binds o) :
    (e.loads os).isOk = os.all Operand.isLoadable := by
  induction os with
  | nil => rfl
  | cons o os ih =>
    rw [Emitter.loads, isOk_bind fun _ ↦ isOk_map, isOk_load (h o List.mem_cons_self),
      ih fun o' ho' ↦ h o' (List.mem_cons_of_mem o ho'), List.all_cons]

theorem isOk_owner (e : Emitter) (o : Operand) : (e.owner o).isOk = o.type.isNamed := by
  rw [Emitter.owner]
  cases o.type <;> rfl

theorem isOk_invoke {c : Call} (hcaller : e.Binds c.caller) (hargs : ∀ o ∈ c.args, e.Binds o)
    (isStatic : Bool) :
    (e.invoke c isStatic).isOk = ((isStatic || c.caller.isLoadable)
      && c.args.all Operand.isLoadable && c.method.isSome && c.caller.type.isNamed) := by
  have howner := isOk_owner e c.caller
  rw [Emitter.invoke]
  cases isStatic
  all_goals
    refine (isOk_bind (b := c.args.all Operand.isLoadable
      && (c.method.isSome && c.caller.type.isNamed)) fun caller ↦ ?_).trans ?_
    · rw [← isOk_loads hargs]
      refine isOk_bind fun args ↦ ?_
      cases c.method with
      | none => rfl
      | some method => exact isOk_map.trans howner
    · simp [isOk_load hcaller, Bool.and_assoc]

theorem isOk_call {c : Call} (hcaller : e.Binds c.caller) (hargs : ∀ o ∈ c.args, e.Binds o) :
    (e.call c).isOk = c.isEmittable := by
  rw [Emitter.call, Call.isEmittable]
  cases c.kind with
  | virtual =>
    dsimp only
    rw [isOk_invoke hcaller hargs]
    cases c.caller <;> rfl
  | static =>
    dsimp only
    rw [isOk_invoke hcaller hargs, Bool.true_or, Bool.true_and]
  | special =>
    dsimp only
    rw [isOk_bind fun _ ↦ isOk_map, isOk_load hcaller, isOk_owner]
  | new =>
    dsimp only
    split
    · rcases hlist : c.args with _ | ⟨length, _ | ⟨_, _⟩⟩
      · rfl
      · exact isOk_map.trans (isOk_load (hargs length (hlist ▸ List.mem_cons_self)))
      · rfl
    · cases c.caller <;> rfl
  | arrayLength =>
    dsimp only
    rw [isOk_map, isOk_load hcaller]

/-! ## Instructions -/

theorem Emit.isOk_lift {α : Type} (x : Except Fault α) :
    ((liftM x : Emit α) n).isOk = x.isOk := by
  cases x <;> rfl

theorem isOk_value {i : Instr} (h : ∀ o ∈ i.operands, e.Binds o) (n : Nat) :
    (e.value i n).isOk = i.isValue := by
  cases i with
  | single o => exact (Emit.isOk_lift _).trans (isOk_load (h o (by simp [Instr.operands])))
  | binary op left right type =>
    have hleft := isOk_load (h left (by simp [Instr.operands]))
    have hright := isOk_load (h right (by simp [Instr.operands]))
    rw [Emitter.value, Instr.isValue, ← hleft, ← hright]
    refine Emit.isOk_lift_bind fun x n ↦ (Emit.isOk_lift_bind (b := true) fun y n ↦ ?_).trans ?_
    · cases op <;> rfl
    · exact Bool.and_true _
  | not o type =>
    rw [Emitter.value, Instr.isValue, ← isOk_load (h o (by simp [Instr.operands]))]
    exact Emit.isOk_lift_map
  | call c =>
    rw [Emitter.value, Instr.isValue]
    by_cases hvoid : c.returns = .void
    · simp [hvoid]
      rfl
    · rw [if_neg hvoid, Emit.isOk_lift, isOk_call (h _ (by simp [Instr.operands]))
        fun o ho ↦ h o (by simp [Instr.operands, ho])]
      simp [hvoid]
  | getField object field type =>
    rw [Emitter.value, Instr.isValue, ← isOk_load (h object (by simp [Instr.operands])),
      ← isOk_owner e object]
    exact Emit.isOk_lift_bind fun x n ↦ Emit.isOk_lift_map
  | _ => rfl

/-- An assignment to a variable is not an increment, is one whose value could also be computed, or
fails because its step is no integer. -/
theorem increment?_cases {name : String} (hslot : (e.slot name).isOk = true) (type : Ollir.Ty)
    (value : Instr) :
    (e.increment? (.var name type) value = .ok none
      ∧ Ollir.stepIsInt (.var name type) value = true)
    ∨ (∃ step, e.increment? (.var name type) value = .ok (some step)
      ∧ value.isValue = true ∧ Ollir.stepIsInt (.var name type) value = true)
    ∨ (∃ f, e.increment? (.var name type) value = .error f
      ∧ Ollir.stepIsInt (.var name type) value = false) := by
  by_cases htype : type = .int32
  · subst htype
    cases value with
    | binary op left right t =>
      rw [Emitter.increment?, Ollir.stepIsInt]
      rcases hstep : Emitter.stepOf name op left right with _ | ⟨o, negated⟩
      · exact .inl ⟨rfl, rfl⟩
      · cases o with
        | literal k kt =>
          dsimp only
          by_cases hkt : kt = .int32
          · rw [if_pos hkt]
            cases Emitter.fittingStep k negated with
            | none => exact .inl ⟨rfl, decide_eq_true hkt⟩
            | some step =>
              obtain ⟨slot, hslot⟩ := exists_of_isOk hslot
              refine .inr (.inl ⟨(slot, step), by rw [hslot]; rfl, ?_, decide_eq_true hkt⟩)
              rcases stepOf_cases hstep with ⟨_, rfl, rfl, _⟩ | ⟨_, rfl, rfl, _⟩ | ⟨_, rfl, rfl, _⟩
                <;> rfl
          · rw [if_neg hkt]
            exact .inr (.inr ⟨_, rfl, decide_eq_false hkt⟩)
        | _ => exact .inl ⟨rfl, rfl⟩
    | _ => exact .inl ⟨rfl, rfl⟩
  · cases type with
    | int32 => exact absurd rfl htype
    | _ => exact .inl ⟨rfl, rfl⟩

theorem isOk_plainAssign {target : Operand} {value : Instr} (htarget : e.Binds target)
    (hvalue : ∀ o ∈ value.operands, e.Binds o) (n : Nat) :
    (e.plainAssign target value n).isOk = match target with
      | .var _ _ => value.isValue
      | .element _ index _ => index.isLoadable && value.isValue
      | _ => false := by
  have hstore : ∀ (f : List Step → List Step) n,
      ((do return f (← e.value value) : Emit (List Step)) n).isOk = value.isValue := fun f n ↦
    Emit.isOk_map.trans (isOk_value hvalue n)
  cases target with
  | var name type =>
    have hslot : (e.slot name).isOk = true := htarget name (by simp [Operand.reads])
    rw [Emitter.plainAssign]
    refine (Emit.isOk_lift_bind fun slot n ↦ hstore _ n).trans ?_
    rw [hslot, Bool.true_and]
  | element name index type =>
    have hslot : (e.slot name).isOk = true := htarget name (by simp [Operand.reads])
    have hindex : e.Binds index := fun x hx ↦ htarget x (by simp [Operand.reads, hx])
    rw [Emitter.plainAssign]
    refine (Emit.isOk_lift_bind fun slot n ↦
      Emit.isOk_lift_bind fun position n ↦ hstore _ n).trans ?_
    rw [hslot, isOk_load hindex, Bool.true_and]
  | _ => rfl

theorem isOk_assign (hfusion : e.fusion = true) {target : Operand} {value : Instr}
    (htarget : e.Binds target) (hvalue : ∀ o ∈ value.operands, e.Binds o) (type : Ollir.Ty)
    (n : Nat) : (e.assign target value n).isOk = (Instr.assign target type value).isEmittable := by
  have hplain := isOk_plainAssign htarget hvalue n
  rw [Emitter.assign, hfusion]
  cases target with
  | var name t =>
    rcases increment?_cases (htarget name (by simp [Operand.reads])) t value with
      ⟨heq, hstep⟩ | ⟨step, heq, hval, hstep⟩ | ⟨f, heq, hstep⟩
    · simp only [if_true, heq, Instr.isEmittable, hstep, Bool.and_true]
      exact hplain
    · simp only [if_true, heq, Instr.isEmittable, hstep, hval]
      rfl
    · simp only [if_true, heq, Instr.isEmittable, hstep, Bool.and_false]
      rfl
  | _ => exact hplain

theorem isOk_branch {test : Instr} (h : ∀ o ∈ test.operands, e.Binds o) (label : String) (n : Nat) :
    (e.branch test label n).isOk = test.isValue := by
  have hvalue : ((do return (← e.value test) ++ [.op (.jumpIf .nonzero label) (-1)]
      : Emit (List Step)) n).isOk = test.isValue :=
    Emit.isOk_map.trans (isOk_value h n)
  cases test with
  | binary op left right type =>
    cases op with
    | less =>
      rw [Emitter.branch, Instr.isValue, ← isOk_load (h left (by simp [Instr.operands])),
        ← isOk_load (h right (by simp [Instr.operands]))]
      exact Emit.isOk_lift_bind fun x n ↦ Emit.isOk_lift_map
    | _ => exact hvalue
  | not o type =>
    rw [Emitter.branch, Instr.isValue, ← isOk_load (h o (by simp [Instr.operands]))]
    exact Emit.isOk_lift_map
  | _ => exact hvalue

/-- **An instruction whose variables have slots is emitted if and only if it passes the test.** -/
theorem isOk_instr (hfusion : e.fusion = true) {i : Instr} (h : ∀ o ∈ i.operands, e.Binds o)
    (n : Nat) : (e.instr i n).isOk = i.isEmittable := by
  have hdropped : ((do return (← e.value i) ++ [.op .pop (-1)] : Emit (List Step)) n).isOk
      = i.isValue :=
    Emit.isOk_map.trans (isOk_value h n)
  cases i with
  | assign target type value =>
    exact isOk_assign hfusion (h target (by simp [Instr.operands]))
      (fun o ho ↦ h o (by simp [Instr.operands, ho])) type n
  | call c =>
    rw [Emitter.instr, Instr.isEmittable, ← isOk_call (h c.caller (by simp [Instr.operands]))
      fun o ho ↦ h o (by simp [Instr.operands, ho])]
    exact Emit.isOk_lift_map
  | putField object field type value =>
    rw [Emitter.instr, Instr.isEmittable, ← isOk_load (h object (by simp [Instr.operands])),
      ← isOk_load (h value (by simp [Instr.operands])), ← isOk_owner e object, Bool.and_assoc]
    exact Emit.isOk_lift_bind fun x n ↦ Emit.isOk_lift_bind fun y n ↦ Emit.isOk_lift_map
  | branch test label =>
    have htest : ∀ o ∈ test.operands, e.Binds o := h
    exact isOk_branch htest label n
  | goto label => rfl
  | ret type value =>
    cases value with
    | none => rfl
    | some o =>
      rw [Emitter.instr, Instr.isEmittable, ← isOk_load (h o (by simp [Instr.operands]))]
      exact Emit.isOk_lift_map
  | _ => exact hdropped

/-! ## Methods and classes -/

theorem isOk_items (hfusion : e.fusion = true) {code : List Item}
    (h : ∀ i ∈ Ollir.instrsOf code, ∀ o ∈ i.operands, e.Binds o) (n : Nat) :
    (e.items code n).isOk = (Ollir.instrsOf code).all Instr.isEmittable := by
  induction code generalizing n with
  | nil => rfl
  | cons item code ih =>
    rw [Emitter.items]
    cases item with
    | label name =>
      exact (Emit.isOk_bind fun _ n ↦ Emit.isOk_map.trans (ih h n)).trans (Bool.true_and _)
    | instr i =>
      have hrest := ih fun j hj ↦ h j (List.mem_cons_of_mem i hj)
      rw [Ollir.instrsOf_instr, List.all_cons, ← isOk_instr hfusion (h i List.mem_cons_self) n]
      exact Emit.isOk_bind fun _ n ↦ Emit.isOk_map.trans (hrest n)

/-- The variable table of a method binds the variables of its instructions. -/
theorem binds_table (unit : Ollir.Class) (fusion : Bool) {className : String} {m : Ollir.Method}
    {i : Instr} (hi : i ∈ m.instrs) (ho : o ∈ i.operands) :
    Emitter.Binds ⟨unit, m.table className, fusion⟩ o := by
  intro x hx
  have hcontains := Ollir.Method.contains_table className hi ho hx
  rw [Ollir.VarTable.contains_eq_isSome] at hcontains
  obtain ⟨b, hb⟩ := Option.isSome_iff_exists.mp hcontains
  have hscope := (Ollir.Method.isDense_table className m).scope _ (Ollir.VarTable.mem_of_get? hb)
  simp [Emitter.slot, hb, hscope, Except.isOk, Except.toBool]

theorem isOk_emitMethods {unit : Ollir.Class} {ms : List Ollir.Method}
    (h : ∀ m ∈ ms, m.vars = m.table unit.name) (n : Nat) :
    (emitMethods unit true ms n).isOk = ms.all fun m ↦ m.instrs.all Instr.isEmittable := by
  induction ms generalizing n with
  | nil => rfl
  | cons m ms ih =>
    have hvars := h m List.mem_cons_self
    have hrest := ih fun m' hm' ↦ h m' (List.mem_cons_of_mem m hm')
    have hfirst : (emitMethod unit true m n).isOk = m.instrs.all Instr.isEmittable := by
      rw [emitMethod, Emit.isOk_map, isOk_items rfl, Ollir.Method.instrsOf_listing]
      intro i hi o ho
      rw [Ollir.Method.instrsOf_listing] at hi
      rw [hvars]
      exact binds_table unit true hi ho
    rw [emitMethods, List.all_cons, ← hfirst]
    exact Emit.isOk_bind fun _ n ↦ Emit.isOk_map.trans (hrest n)

/-- **A class is emitted if and only if all its instructions pass the test.** -/
theorem isOk_assemble {c : Ollir.Class} (h : ∀ m ∈ c.methods, m.vars.isEmpty = true) :
    (c.assemble true).isOk = c.methods.all fun m ↦ m.instrs.all Instr.isEmittable := by
  have hmethods : (emitMethods c.assignSlots true c.assignSlots.methods 0).isOk
      = c.assignSlots.methods.all fun m ↦ m.instrs.all Instr.isEmittable := by
    refine isOk_emitMethods (fun m hm ↦ ?_) 0
    obtain ⟨m₀, hm₀, rfl⟩ := List.mem_map.mp hm
    rw [Ollir.Method.assignSlots, if_pos (h m₀ hm₀)]
    rfl
  have hrun : ((emitMethods c.assignSlots true c.assignSlots.methods).run' 0).isOk
      = (emitMethods c.assignSlots true c.assignSlots.methods 0).isOk := isOk_map
  rw [Ollir.Class.assemble, emitClass, isOk_map, hrun, hmethods, Ollir.Class.assignSlots,
    List.all_map]
  refine List.all_congr rfl fun m ↦ ?_
  rw [Function.comp_apply, Ollir.Method.assignSlots]
  split <;> rfl

end Jmm.Jasmin
