import Jmm.Proofs.Emission.Success
import Jmm.Proofs.Lowering.Structured

/-!
# Faults of emission

Of the faults that emission can give, some name a variable without a slot, and some an instruction
that has not the form of lowered code: its target cannot be assigned to, it leaves no value where
one is needed, a call lacks its method or its class, or an increment adds a literal that is no
integer.  `Emitter.Blames` keeps track of both, through all of emission: a fault of the first kind
is that of a variable which is read, one of the second kind shows that the code is not formed.

So formed code whose variables are bound is stopped only by a class that stands for a value, by
members of a value without a class, by a call of type `void` that is stored, or by an array
allocated without a length (`Fault.cases_of_emitMethod`).
-/

set_option autoImplicit false

namespace Jmm

/-- No truth value is added to an integer variable by the instruction, or taken away from it. -/
def Ollir.Instr.stepsInt : Instr → Bool
  | assign target _ value => stepIsInt target value
  | _ => true

@[simp] theorem Ollir.Instr.stepsInt_assign (target : Operand) (type : Ty) (value : Instr) :
    (assign target type value).stepsInt = stepIsInt target value := rfl

namespace Jasmin

open Ollir (Operand Instr Call Item instrsOf stepIsInt)

/-- The variable that a fault finds without a slot. -/
def Fault.variable? : Fault → Option String
  | fieldAsLocal name => some name
  | unboundVariable name => some name
  | notAssignable _ | incrementLiteral _ _ | voidValue _ | noValue _ | arrayLengthArgument => none
  | notInstantiable _ | noMethodName _ | classAsValue _ | noMembers _ => none

/-- Whether a fault shows that an instruction is not of a form that lowering gives. -/
def Fault.isMalformed : Fault → Bool
  | notAssignable _ | incrementLiteral _ _ | noValue _ | notInstantiable _ | noMethodName _ => true
  | fieldAsLocal _ | unboundVariable _ | voidValue _ | arrayLengthArgument => false
  | classAsValue _ | noMembers _ => false

theorem Fault.cases_of_not_malformed {f : Fault} (hvar : f.variable? = none)
    (hformed : f.isMalformed = false) :
    f = .arrayLengthArgument ∨ (∃ name, f = .classAsValue name) ∨ (∃ o, f = .noMembers o)
      ∨ ∃ call, f = .voidValue call := by
  cases f with
  | arrayLengthArgument => exact .inl rfl
  | classAsValue name => exact .inr (.inl ⟨name, rfl⟩)
  | noMembers o => exact .inr (.inr (.inl ⟨o, rfl⟩))
  | voidValue call => exact .inr (.inr (.inr ⟨call, rfl⟩))
  | fieldAsLocal | unboundVariable => cases hvar
  | _ => cases hformed

/-- A computation that fails for want of a slot does so for a variable of the operands that has
none, and if it finds an instruction malformed, the code is not formed. -/
def Emitter.Blames {α : Type} (e : Emitter) (os : List Operand) (formed : Prop)
    (x : Except Fault α) : Prop :=
  ∀ f, x = .error f →
    (∀ y, f.variable? = some y → (∃ o ∈ os, y ∈ o.reads) ∧ e.slot y = .error f)
      ∧ (f.isMalformed = true → ¬ formed)

namespace Emitter

variable {e : Emitter} {os : List Operand} {formed : Prop} {α β : Type} {n : Nat} {this : Bool}

theorem blames_ok (a : α) : e.Blames os formed (.ok a) := fun f h ↦ by cases h

theorem blames_error {f : Fault} (hf : f.variable? = none)
    (hformed : f.isMalformed = true → ¬ formed) :
    e.Blames os formed (.error f : Except Fault α) := by
  intro f' h
  obtain rfl := Except.error.inj h
  refine ⟨fun y hy ↦ ?_, hformed⟩
  rw [hf] at hy
  cases hy

/-- A fault that formed code may give as well. -/
theorem blames_possible {f : Fault} (hf : f.variable? = none) (h : f.isMalformed = false) :
    e.Blames os formed (.error f : Except Fault α) :=
  blames_error hf fun hmalformed ↦ absurd (h.symm.trans hmalformed) Bool.false_ne_true

theorem Blames.bind {x : Except Fault α} {k : α → Except Fault β} (hx : e.Blames os formed x)
    (hk : ∀ a, e.Blames os formed (k a)) : e.Blames os formed (x >>= k) := by
  cases x with
  | ok a => exact hk a
  | error f =>
    intro f' h
    obtain rfl := Except.error.inj h
    exact hx f rfl

theorem Blames.emit_bind {x : Emit α} {k : α → Emit β} (hx : e.Blames os formed (x n))
    (hk : ∀ a n, e.Blames os formed (k a n)) : e.Blames os formed ((x >>= k) n) :=
  Blames.bind hx fun r ↦ hk r.1 r.2

theorem Blames.lift {x : Except Fault α} (hx : e.Blames os formed x) :
    e.Blames os formed ((liftM x : Emit α) n) := by
  cases x with
  | ok a => exact blames_ok _
  | error f =>
    intro f' h
    obtain rfl := Except.error.inj h
    exact hx f rfl

theorem Blames.lift_bind {x : Except Fault α} {k : α → Emit β} (hx : e.Blames os formed x)
    (hk : ∀ a n, e.Blames os formed (k a n)) :
    e.Blames os formed (((liftM x : Emit α) >>= k) n) :=
  Blames.emit_bind hx.lift hk

theorem Blames.mono {os' : List Operand} {formed' : Prop} {x : Except Fault α}
    (h : e.Blames os formed x) (hos : os ⊆ os') (hformed : formed' → formed) :
    e.Blames os' formed' x := by
  intro f hf
  refine ⟨fun y hy ↦ ?_, fun hmalformed h' ↦ (h f hf).2 hmalformed (hformed h')⟩
  obtain ⟨⟨o, ho, hmem⟩, hslot⟩ := (h f hf).1 y hy
  exact ⟨⟨o, hos ho, hmem⟩, hslot⟩

/-! ## Operands and calls -/

theorem blames_slot {x : String} (hx : ∃ o ∈ os, x ∈ o.reads) :
    e.Blames os formed (e.slot x) := by
  intro f hf
  have hname : f.variable? = some x ∧ f.isMalformed = false := by
    have herror := hf
    rw [slot] at herror
    split at herror
    · split at herror
      · obtain rfl := Except.error.inj herror
        exact ⟨rfl, rfl⟩
      · cases herror
    · obtain rfl := Except.error.inj herror
      exact ⟨rfl, rfl⟩
  refine ⟨fun y hy ↦ ?_, fun h ↦ absurd (hname.2.symm.trans h) Bool.false_ne_true⟩
  obtain rfl := Option.some.inj (hy.symm.trans hname.1)
  exact ⟨hx, hf⟩

theorem blames_owner (o : Operand) : e.Blames os formed (e.owner o) := by
  rw [owner]
  split
  · exact blames_ok _
  · exact blames_possible rfl rfl

/-- The code of an operand, which may be the index in another one. -/
theorem blames_load {o : Operand} (ho : ∀ x ∈ o.reads, ∃ o' ∈ os, x ∈ o'.reads) :
    e.Blames os formed (e.load o) := by
  induction o with
  | literal value type => exact blames_ok _
  | var name type =>
    exact (blames_slot (ho name List.mem_cons_self)).bind fun _ ↦ blames_ok _
  | element name index type ih =>
    refine (blames_slot (ho name List.mem_cons_self)).bind fun slot ↦ ?_
    exact (ih fun x hx ↦ ho x (List.mem_cons_of_mem _ hx)).bind fun _ ↦ blames_ok _
  | receiver className => exact blames_ok _
  | classRef name => exact blames_possible rfl rfl

theorem blames_operand {o : Operand} (ho : o ∈ os) : e.Blames os formed (e.load o) :=
  blames_load fun _ hx ↦ ⟨o, ho, hx⟩

theorem blames_loads {os' : List Operand} (hos : os' ⊆ os) :
    e.Blames os formed (e.loads os') := by
  induction os' with
  | nil => exact blames_ok _
  | cons o os' ih =>
    obtain ⟨ho, hos⟩ := List.cons_subset.mp hos
    exact (blames_operand ho).bind fun first ↦ (ih hos).bind fun _ ↦ blames_ok _

theorem blames_invoke {c : Call} (hcaller : c.caller ∈ os) (hargs : c.args ⊆ os)
    (hmethod : formed → c.method.isSome = true) (isStatic : Bool) :
    e.Blames os formed (e.invoke c isStatic) := by
  -- the code that comes after the receiver stands in both branches
  have hbranches {rest : List Step → Except Fault (List Step)}
      (h : ∀ caller, e.Blames os formed (rest caller)) :
      e.Blames os formed (if isStatic then pure [] >>= rest else e.load c.caller >>= rest) := by
    split
    · exact (blames_ok []).bind h
    · exact (blames_operand hcaller).bind h
  rw [invoke]
  refine hbranches fun caller ↦ (blames_loads hargs).bind fun args ↦ ?_
  cases hnone : c.method with
  | none =>
    refine blames_error rfl fun _ hformed ↦ ?_
    rw [hnone] at hmethod
    exact Bool.false_ne_true (hmethod hformed)
  | some method => exact (blames_owner _).bind fun _ ↦ blames_ok _

theorem blames_call {c : Call} (hcaller : c.caller ∈ os) (hargs : c.args ⊆ os)
    (hcall : formed → c.suitsKind = true) : e.Blames os formed (e.call c) := by
  rw [Call.suitsKind] at hcall
  rw [call.eq_def]
  split <;> rename_i hkind <;> rw [hkind] at hcall
  · split
    · split
      · rename_i length hlength
        refine (blames_operand (hargs ?_)).bind fun _ ↦ blames_ok _
        rw [hlength]
        exact List.mem_cons_self
      · exact blames_possible rfl rfl
    · split
      · exact blames_ok _
      · rename_i hclass
        refine blames_error rfl fun _ hformed ↦ ?_
        have hcaller := (Bool.and_eq_true_iff.mp (hcall hformed)).1
        cases hop : c.caller with
        | classRef name => exact hclass name hop
        | _ =>
          rw [hop] at hcaller
          cases hcaller
  · exact (blames_operand hcaller).bind fun _ ↦ blames_ok _
  · exact (blames_operand hcaller).bind fun _ ↦ (blames_owner _).bind fun _ ↦ blames_ok _
  · exact blames_invoke hcaller hargs hcall _
  · exact blames_invoke hcaller hargs (fun h ↦ (Bool.and_eq_true_iff.mp (hcall h)).1) true

/-! ## Instructions -/

theorem blames_value {i : Instr} (hos : i.operands ⊆ os)
    (hvalue : formed → i.isComputation this = true ∨ i.isFieldRead = true) (n : Nat) :
    e.Blames os formed (e.value i n) := by
  cases i with
  | single o => exact (blames_operand (hos List.mem_cons_self)).lift
  | binary op left right type =>
    refine (blames_operand (hos List.mem_cons_self)).lift_bind fun x n ↦ ?_
    refine (blames_operand (hos (List.mem_cons_of_mem _ List.mem_cons_self))).lift_bind fun y n ↦ ?_
    cases op <;> exact blames_ok _
  | not o type =>
    exact (blames_operand (hos List.mem_cons_self)).lift_bind fun _ _ ↦ blames_ok _
  | call c =>
    obtain ⟨hcaller, hargs⟩ := List.cons_subset.mp hos
    have hcall : formed → c.suitsKind = true := fun h ↦
      Call.suitsKind_of_isFormed ((hvalue h).resolve_right Bool.false_ne_true)
    rw [value]
    split
    · exact blames_possible rfl rfl
    · exact (blames_call hcaller hargs hcall).lift
  | getField object field type =>
    refine (blames_operand (hos List.mem_cons_self)).lift_bind fun code n ↦ ?_
    exact (blames_owner _).lift_bind fun _ _ ↦ blames_ok _
  | _ =>
    refine blames_error rfl fun _ hformed ↦ ?_
    rcases hvalue hformed with h | h <;> cases h

theorem blames_increment? {target : Operand} (htarget : target ∈ os) {value : Instr}
    (hstep : formed → stepIsInt target value = true) :
    e.Blames os formed (e.increment? target value) := by
  rw [increment?.eq_def]
  split
  · rw [stepIsInt] at hstep
    split
    · rename_i k type negated hstepOf
      rw [hstepOf] at hstep
      split
      · split
        · exact (blames_slot ⟨_, htarget, List.mem_cons_self⟩).bind fun _ ↦ blames_ok _
        · exact blames_ok _
      · rename_i htype
        exact blames_error rfl fun _ hformed ↦ htype (of_decide_eq_true (hstep hformed))
    · exact blames_ok _
  · exact blames_ok _

/-- An assignment of formed code is to a variable or an element, and of a value. -/
theorem formed_of_isFormed_assign {returns type : Ollir.Ty} {target : Operand} {value : Instr}
    (h : (Instr.assign target type value).isFormed this returns = true) :
    ((∃ name t, target = .var name t) ∨ ∃ array index t, target = .element array index t)
      ∧ (value.isComputation this = true ∨ value.isFieldRead = true) := by
  cases target with
  | var name t => exact ⟨.inl ⟨name, t, rfl⟩, Bool.or_eq_true_iff.mp h⟩
  | element array index t => exact ⟨.inr ⟨array, index, t, rfl⟩, .inl (Bool.and_eq_true_iff.mp h).2⟩
  | _ => cases h

theorem blames_plainAssign {target : Operand} {value : Instr} (htarget : target ∈ os)
    (hvalue : value.operands ⊆ os) {returns type : Ollir.Ty}
    (hformed : formed → (Instr.assign target type value).isFormed this returns = true) (n : Nat) :
    e.Blames os formed (e.plainAssign target value n) := by
  have hcode := fun n ↦ blames_value (e := e) hvalue
    (fun h ↦ (formed_of_isFormed_assign (hformed h)).2) n
  cases target with
  | var name type =>
    refine (blames_slot ⟨_, htarget, List.mem_cons_self⟩).lift_bind fun slot n ↦ ?_
    exact (hcode n).emit_bind fun _ _ ↦ blames_ok _
  | element name index type =>
    have hindex : e.Blames os formed (e.load index) :=
      blames_load fun x hx ↦ ⟨_, htarget, List.mem_cons_of_mem _ hx⟩
    refine (blames_slot ⟨_, htarget, List.mem_cons_self⟩).lift_bind fun slot n ↦ ?_
    refine hindex.lift_bind fun position n ↦ ?_
    exact (hcode n).emit_bind fun _ _ ↦ blames_ok _
  | _ => exact blames_error rfl fun _ h ↦ absurd (hformed h) Bool.false_ne_true

theorem blames_assign {target : Operand} {value : Instr} (htarget : target ∈ os)
    (hvalue : value.operands ⊆ os) {returns type : Ollir.Ty}
    (hformed : formed → (Instr.assign target type value).isFormed this returns = true)
    (hstep : formed → stepIsInt target value = true) (n : Nat) :
    e.Blames os formed (e.assign target value n) := by
  have hplain := fun n ↦ blames_plainAssign (e := e) htarget hvalue hformed n
  rw [assign]
  cases e.fusion with
  | false => exact hplain n
  | true =>
    refine (blames_increment? htarget hstep).lift_bind fun fused n ↦ ?_
    cases fused with
    | none => exact hplain n
    | some _ => exact blames_ok _

theorem blames_branch {test : Instr} (hos : test.operands ⊆ os)
    (htest : formed → test.isComputation this = true) (label : String) (n : Nat) :
    e.Blames os formed (e.branch test label n) := by
  rw [branch.eq_def]
  split
  · refine (blames_operand (hos List.mem_cons_self)).lift_bind fun x n ↦ ?_
    exact (blames_operand (hos (List.mem_cons_of_mem _ List.mem_cons_self))).lift_bind
      fun _ _ ↦ blames_ok _
  · exact (blames_operand (hos List.mem_cons_self)).lift_bind fun _ _ ↦ blames_ok _
  · exact (blames_value hos (fun h ↦ .inl (htest h)) n).emit_bind fun _ _ ↦ blames_ok _

theorem blames_instr {i : Instr} (hos : i.operands ⊆ os) {returns : Ollir.Ty}
    (hformed : formed → i.isFormed this returns = true) (hstep : formed → i.stepsInt = true)
    (n : Nat) : e.Blames os formed (e.instr i n) := by
  cases i with
  | assign target type value =>
    obtain ⟨htarget, hvalue⟩ := List.cons_subset.mp hos
    exact blames_assign htarget hvalue hformed hstep n
  | call c =>
    obtain ⟨hcaller, hargs⟩ := List.cons_subset.mp hos
    have hcall : e.Blames os formed (e.call c) :=
      blames_call hcaller hargs fun h ↦ Call.suitsKind_of_isFormed (hformed h)
    exact hcall.lift_bind fun _ _ ↦ blames_ok _
  | putField object field type value =>
    refine (blames_operand (hos List.mem_cons_self)).lift_bind fun x n ↦ ?_
    refine (blames_operand (hos (List.mem_cons_of_mem _ List.mem_cons_self))).lift_bind fun y n ↦ ?_
    exact (blames_owner _).lift_bind fun _ _ ↦ blames_ok _
  | branch test label =>
    have htest : test.operands ⊆ os := hos
    exact blames_branch htest hformed label n
  | goto label => exact blames_ok _
  | ret type value =>
    cases value with
    | none => exact blames_ok _
    | some o => exact (blames_operand (hos List.mem_cons_self)).lift_bind fun _ _ ↦ blames_ok _
  | _ =>
    refine (@blames_value e os formed true _ hos (fun h ↦ ?_) n).emit_bind fun _ _ ↦ blames_ok _
    exact absurd (hformed h) Bool.false_ne_true

/-- **Emission that fails for want of a slot** does so for a variable of an instruction, and formed
code is never found malformed. -/
theorem blames_items {items : List Item} (this : Bool) (returns : Ollir.Ty) (n : Nat) :
    e.Blames ((instrsOf items).flatMap Instr.operands)
      (∀ i ∈ instrsOf items, i.isFormed this returns = true ∧ i.stepsInt = true)
      (e.items items n) := by
  induction items generalizing n with
  | nil => exact blames_ok _
  | cons item items ih =>
    cases item with
    | label name =>
      exact Blames.emit_bind (blames_ok _) fun _ n ↦ (ih n).emit_bind fun _ _ ↦ blames_ok _
    | instr i =>
      rw [Ollir.instrsOf_instr, List.flatMap_cons]
      refine (blames_instr (List.subset_append_left _ _) (fun h ↦ (h i List.mem_cons_self).1)
        (fun h ↦ (h i List.mem_cons_self).2) n).emit_bind fun first n ↦ ?_
      exact ((ih n).mono (List.subset_append_right _ _) fun h j hj ↦
        h j (List.mem_cons_of_mem i hj)).emit_bind fun _ _ ↦ blames_ok _

end Emitter

/-! ## Methods and classes -/

/-- The faults of a method, as those of its instructions. -/
theorem blames_emitMethod (unit : Ollir.Class) (fusion : Bool) (m : Ollir.Method)
    (this : Bool) (returns : Ollir.Ty) (n : Nat) :
    Emitter.Blames ⟨unit, m.vars, fusion⟩ (m.instrs.flatMap Instr.operands)
      (∀ i ∈ m.instrs, i.isFormed this returns = true ∧ i.stepsInt = true)
      (emitMethod unit fusion m n) := by
  rw [← m.instrsOf_listing]
  exact (Emitter.blames_items this returns n).emit_bind fun _ _ ↦ Emitter.blames_ok _

/-- Where the variables of the instructions are bound, no method fails for want of a slot. -/
theorem variable?_eq_none_of_emitMethod {unit : Ollir.Class} {fusion : Bool} {m : Ollir.Method}
    (hbound : ∀ i ∈ m.instrs, ∀ o ∈ i.operands, Emitter.Binds ⟨unit, m.vars, fusion⟩ o)
    {n : Nat} {f : Fault} (h : emitMethod unit fusion m n = .error f) : f.variable? = none := by
  rw [Option.eq_none_iff_forall_ne_some]
  intro y hy
  obtain ⟨⟨o, ho, hmem⟩, hslot⟩ := (blames_emitMethod unit fusion m true .void n f h).1 y hy
  obtain ⟨i, hi, ho⟩ := List.mem_flatMap.mp ho
  have hbinds := hbound i hi o ho y hmem
  rw [hslot] at hbinds
  cases hbinds

/-- **The faults of formed code.**  Where the variables are bound and all instructions are formed, a
method can be stopped by four faults only. -/
theorem Fault.cases_of_emitMethod {unit : Ollir.Class} {fusion : Bool} {m : Ollir.Method}
    (hbound : ∀ i ∈ m.instrs, ∀ o ∈ i.operands, Emitter.Binds ⟨unit, m.vars, fusion⟩ o)
    {this : Bool} {returns : Ollir.Ty} (hformed : ∀ i ∈ m.instrs, i.isFormed this returns = true)
    (hsteps : ∀ i ∈ m.instrs, i.stepsInt = true) {n : Nat} {f : Fault}
    (h : emitMethod unit fusion m n = .error f) :
    f = .arrayLengthArgument ∨ (∃ name, f = .classAsValue name) ∨ (∃ o, f = .noMembers o)
      ∨ ∃ call, f = .voidValue call := by
  refine Fault.cases_of_not_malformed (variable?_eq_none_of_emitMethod hbound h) ?_
  rw [Bool.eq_false_iff]
  intro hmalformed
  exact (blames_emitMethod unit fusion m this returns n f h).2 hmalformed fun i hi ↦
    ⟨hformed i hi, hsteps i hi⟩

/-- Where methods are not emitted, one of them is not. -/
theorem exists_emitMethod_of_emitMethods {unit : Ollir.Class} {fusion : Bool}
    {ms : List Ollir.Method} {n : Nat} {f : Fault} (h : emitMethods unit fusion ms n = .error f) :
    ∃ m ∈ ms, ∃ n', emitMethod unit fusion m n' = .error f := by
  induction ms generalizing n with
  | nil => cases h
  | cons m ms ih =>
    rcases Emit.bind_eq_error_iff.mp h with hfirst | ⟨_, _, _, h⟩
    · exact ⟨m, List.mem_cons_self, n, hfirst⟩
    · rcases Emit.bind_eq_error_iff.mp h with hrest | ⟨_, _, _, h⟩
      · obtain ⟨m', hm', n', hfault⟩ := ih hrest
        exact ⟨m', List.mem_cons_of_mem m hm', n', hfault⟩
      · cases h

/-- **The faults of a class** that has no tables yet and formed code. -/
theorem Fault.cases_of_assemble {c : Ollir.Class} (hvars : ∀ m ∈ c.methods, m.vars.isEmpty = true)
    (hformed : ∀ m ∈ c.methods, ∃ returns, ∀ i ∈ m.instrs, i.isFormed true returns = true)
    (hsteps : ∀ m ∈ c.methods, ∀ i ∈ m.instrs, i.stepsInt = true) {fusion : Bool} {f : Fault}
    (h : c.assemble fusion = .error f) :
    f = .arrayLengthArgument ∨ (∃ name, f = .classAsValue name) ∨ (∃ o, f = .noMembers o)
      ∨ ∃ call, f = .voidValue call := by
  have hmethods : emitMethods c.assignSlots fusion c.assignSlots.methods 0 = .error f := by
    rcases bind_eq_error_iff.mp h with hrun | ⟨_, _, hpure⟩
    · rcases bind_eq_error_iff.mp hrun with hmethods | ⟨_, _, hpure⟩
      · exact hmethods
      · cases hpure
    · cases hpure
  obtain ⟨m', hm', n, hfault⟩ := exists_emitMethod_of_emitMethods hmethods
  obtain ⟨m, hm, rfl⟩ := List.mem_map.mp hm'
  rw [Ollir.Method.assignSlots, if_pos (hvars m hm)] at hfault
  obtain ⟨returns, hreturns⟩ := hformed m hm
  have hbound : ∀ i ∈ m.instrs, ∀ o ∈ i.operands,
      Emitter.Binds ⟨c.assignSlots, m.table c.name, fusion⟩ o :=
    fun i hi o ho ↦ binds_table _ fusion hi ho
  exact Fault.cases_of_emitMethod (m := { m with vars := m.table c.name }) hbound hreturns
    (hsteps m hm) hfault

end Jasmin
end Jmm
