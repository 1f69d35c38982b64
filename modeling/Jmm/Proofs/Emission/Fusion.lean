import Jmm.Proofs.Emission.Operations
import Jmm.Proofs.Emission.StackDepth

/-!
# Increment fusion

With fusion, an assignment that steps an integer variable by a literal becomes one increment, and
everything else is emitted as it is without.  `StepForm` lists the three forms of such assignments,
with the steps they make and the operations that the increments stand for.

* `Emitter.increment?_forms` says once what can become of an assignment: it is left alone, it is an
  increment, or it is refused, since its literal is no integer.
* `Unfused` relates the lines of a method with fusion to those without: they are the same but for
  the increments, each of which is replaced by the operations of its assignment.
* `Emitter.items_plain` follows emission with fusion by emission without, comparison by comparison,
  and `Emitter.exists_items` goes the other way.

`emitClass_transparent` puts these together, with what the two kinds of lines do on the machine.
-/

set_option autoImplicit false

namespace Jmm.Jasmin

open Semantics
open Ollir (Operand Instr Call Item VarTable instrsOf)

/-! ## Assignments that step a variable -/

/-- The forms of an assignment that steps an integer variable by an operand: `x := x + c`,
`x := c + x` and `x := x - c`. -/
inductive StepForm where
  | add
  | addTo
  | sub
deriving DecidableEq, Repr, Inhabited

namespace StepForm

/-- The value that is assigned. -/
def value (form : StepForm) (x : String) (c : Operand) (type : Ollir.Ty) : Instr :=
  match form with
  | add => .binary .add (.var x .int32) c type
  | addTo => .binary .add c (.var x .int32) type
  | sub => .binary .sub (.var x .int32) c type

/-- The assignment. -/
def assign (form : StepForm) (x : String) (c : Operand) (t type : Ollir.Ty) : Instr :=
  .assign (.var x .int32) t (form.value x c type)

/-- The step that a literal makes. -/
def step (form : StepForm) (k : Int32) : Int32 :=
  match form with
  | add | addTo => k
  | sub => -k

/-- The operations that carry the assignment out on a slot. -/
def ops (form : StepForm) (slot : Nat) (k : Int32) : List Op :=
  match form with
  | add => [.load .int slot, .const k, .arith .add, .store .int slot]
  | addTo => [.const k, .load .int slot, .arith .add, .store .int slot]
  | sub => [.load .int slot, .const k, .arith .sub, .store .int slot]

/-- The operations with the changes of the count of operands. -/
def code (form : StepForm) (slot : Nat) (k : Int32) : List Step :=
  List.zipWith Step.op (form.ops slot k) [1, 1, -1, -1]

theorem map_line_code (form : StepForm) (slot : Nat) (k : Int32) :
    (form.code slot k).map Step.line = (form.ops slot k).map .op := by
  cases form <;> rfl

end StepForm

/-! ## What increments and their assignments do -/

/-- The state after so many lines. -/
def stepTimes (w : World) (lines : List Line) : Nat → State → Option State
  | 0, st => some st
  | n + 1, st => (step w lines st).bind (stepTimes w lines n)

/-- The locals after a step of the integer in a slot, none where the slot holds something else. -/
def bumped (slot : Nat) (step : Int32) (locals : Nat → Val) : Option (Nat → Val) :=
  match locals slot with
  | .int n => some (Function.update locals slot (.int (n + step)))
  | _ => none

section Machine

variable {w : World} {lines : List Line} {slot i : Nat} {stack : List Val} {locals : Nat → Val}
  {s : Shared}

theorem step_increment {k : Int32} (h : lines[i]? = some (.op (.increment slot k))) :
    step w lines (.running ⟨i, stack, locals⟩ s)
      = (bumped slot k locals).map fun locals' ↦ .running ⟨i + 1, stack, locals'⟩ s := by
  simp only [step, h, Op.exec, bumped]
  cases locals slot <;> rfl

theorem step_op {o : Op} {f : Frame} (h : lines[f.line]? = some (.op o)) :
    step w lines (.running f s) = State.after (o.exec w lines f s) := by
  rw [step, h]

theorem stepTimes_succ {n : Nat} {o : Op} {f f' : Frame} (h : lines[f.line]? = some (.op o))
    (hexec : o.exec w lines f = pure (.goto f')) :
    stepTimes w lines (n + 1) (.running f s) = stepTimes w lines n (.running f' s) := by
  rw [stepTimes, step_op h, hexec]
  rfl

/-- An operation that adds the step to the integer in the slot, and the store of the sum. -/
theorem stepTimes_arith {op : Arith} {family : Family} {k : Int32} {a b : Val}
    (hop : lines[i]? = some (.op (.arith op)))
    (hstore : lines[i + 1]? = some (.op (.store family slot)))
    (heval : op.eval a b = operate .add (locals slot) (.int k)) :
    stepTimes w lines 2 (.running ⟨i, b :: a :: stack, locals⟩ s)
      = (bumped slot k locals).map fun locals' ↦ .running ⟨i + 2, stack, locals'⟩ s := by
  have hexec : (Op.arith op).exec w lines ⟨i, b :: a :: stack, locals⟩
      = operate .add (locals slot) (.int k)
          >>= fun v ↦ pure (.goto ⟨i + 1, v :: stack, locals⟩) := by
    rw [← heval]
    rfl
  rw [bumped]
  cases hn : locals slot with
  | int n =>
    have hsum : (Op.arith op).exec w lines ⟨i, b :: a :: stack, locals⟩
        = pure (.goto ⟨i + 1, .int (n + k) :: stack, locals⟩) := by
      rw [hexec, hn]
      rfl
    rw [stepTimes_succ hop hsum]
    exact stepTimes_succ hstore rfl
  | _ =>
    rw [stepTimes, step_op hop, hexec, hn]
    rfl

/-- The operations of an assignment step the variable and leave the stack as it was. -/
theorem stepTimes_ops (form : StepForm) {k : Int32}
    (h : ∀ d o, (form.ops slot k)[d]? = some o → lines[i + d]? = some (.op o)) :
    stepTimes w lines 4 (.running ⟨i, stack, locals⟩ s)
      = (bumped slot (form.step k) locals).map fun locals' ↦
          .running ⟨i + 4, stack, locals'⟩ s := by
  cases form with
  | add =>
    rw [stepTimes_succ (h 0 _ rfl) rfl, stepTimes_succ (h 1 _ rfl) rfl]
    exact stepTimes_arith (h 2 _ rfl) (h 3 _ rfl) rfl
  | addTo =>
    have heval : ∀ v, operate .add (.int k) v = operate .add v (.int k) := by
      intro v
      cases v with
      | int n => simp [operate, Int32.add_comm]
      | _ => rfl
    rw [stepTimes_succ (h 0 _ rfl) rfl, stepTimes_succ (h 1 _ rfl) rfl]
    exact stepTimes_arith (h 2 _ rfl) (h 3 _ rfl) (heval (locals slot))
  | sub =>
    have heval : ∀ v, operate .sub v (.int k) = operate .add v (.int (-k)) := by
      intro v
      cases v with
      | int n => simp [operate, Int32.sub_eq_add_neg]
      | _ => rfl
    rw [stepTimes_succ (h 0 _ rfl) rfl, stepTimes_succ (h 1 _ rfl) rfl]
    exact stepTimes_arith (h 2 _ rfl) (h 3 _ rfl) (heval (locals slot))

end Machine

/-! ## Emission without fusion -/

/-- No line of code is an increment. -/
def IsPlain (code : List Step) : Prop :=
  ∀ slot step, .op (.increment slot step) ∉ code.map Step.line

section IsPlain

variable {a b : List Step} {s : Step}

@[simp] theorem isPlain_nil : IsPlain [] := fun _ _ ↦ List.not_mem_nil

@[simp] theorem isPlain_append : IsPlain (a ++ b) ↔ IsPlain a ∧ IsPlain b := by
  simp only [IsPlain, List.map_append, List.mem_append, not_or]
  grind

@[simp] theorem isPlain_cons :
    IsPlain (s :: a) ↔ (∀ slot step, s.line ≠ .op (.increment slot step)) ∧ IsPlain a := by
  simp only [IsPlain, List.map_cons, List.mem_cons, not_or]
  grind

end IsPlain

namespace Emitter

variable {e : Emitter} {code : List Step} {n n' : Nat}

/-- The emitter without fusion. -/
def plain (e : Emitter) : Emitter := { e with fusion := false }

@[simp] theorem plain_slot (e : Emitter) (x : String) : e.plain.slot x = e.slot x := rfl

@[simp] theorem plain_owner (e : Emitter) (o : Operand) : e.plain.owner o = e.owner o := rfl

@[simp] theorem plain_load (e : Emitter) (o : Operand) : e.plain.load o = e.load o := by
  induction o with
  | element name index type ih => simp only [load, plain_slot, ih]
  | _ => rfl

@[simp] theorem plain_loads (e : Emitter) (os : List Operand) : e.plain.loads os = e.loads os := by
  induction os with
  | nil => rfl
  | cons o os ih => simp only [loads, plain_load, ih]

@[simp] theorem plain_invoke (e : Emitter) (c : Call) (isStatic : Bool) :
    e.plain.invoke c isStatic = e.invoke c isStatic := by
  simp only [invoke, plain_load, plain_loads, plain_owner]
  rfl

@[simp] theorem plain_call (e : Emitter) (c : Call) : e.plain.call c = e.call c := by
  simp only [call, plain_load, plain_invoke, plain_owner]
  rfl

@[simp] theorem plain_value (e : Emitter) (i : Instr) : e.plain.value i = e.value i := by
  cases i with
  | getField object field type =>
    simp only [value, plain_load, plain_owner]
    rfl
  | _ => simp only [value, plain_load, plain_call]

@[simp] theorem plain_branch (e : Emitter) (test : Instr) (label : String) :
    e.plain.branch test label = e.branch test label := by
  simp only [branch.eq_def, plain_load, plain_value]

@[simp] theorem plain_plainAssign (e : Emitter) (target : Operand) (value : Instr) :
    e.plain.plainAssign target value = e.plainAssign target value := by
  cases target <;> simp only [plainAssign, plain_slot, plain_load, plain_value]

/-- Without fusion, an assignment computes its value and stores it. -/
theorem plain_assign (e : Emitter) (target : Operand) (value : Instr) :
    e.plain.assign target value = e.plainAssign target value :=
  e.plain_plainAssign target value

/-- Fusion makes a difference for assignments only. -/
theorem plain_instr {i : Instr} (h : ∀ target type value, i ≠ .assign target type value) :
    e.plain.instr i = e.instr i := by
  cases i with
  | assign target type value => exact absurd rfl (h target type value)
  | ret type value =>
    cases value with
    | none => rfl
    | some value => simp only [instr, plain_load]
  | putField object field type value =>
    simp only [instr, plain_load, plain_owner]
    rfl
  | _ => simp only [instr, plain_call, plain_value, plain_branch]

/-! ## Code without increments -/

theorem isPlain_load {o : Operand} (h : e.load o = .ok code) : IsPlain code := by
  induction o generalizing code with
  | literal value type =>
    obtain rfl := Except.ok.inj h
    simp [Step.op]
  | var name type =>
    obtain ⟨slot, _, h⟩ := bind_eq_ok_iff.mp h
    obtain rfl := Except.ok.inj h
    simp [Step.op]
  | element name index type ih =>
    obtain ⟨slot, _, h⟩ := bind_eq_ok_iff.mp h
    obtain ⟨position, hposition, h⟩ := bind_eq_ok_iff.mp h
    obtain rfl := Except.ok.inj h
    simp [Step.op, ih hposition]
  | receiver className =>
    obtain rfl := Except.ok.inj h
    simp [Step.op]
  | classRef name => cases h

theorem isPlain_loads {os : List Operand} (h : e.loads os = .ok code) : IsPlain code := by
  induction os generalizing code with
  | nil =>
    obtain rfl := Except.ok.inj h
    exact isPlain_nil
  | cons o os ih =>
    obtain ⟨first, hfirst, h⟩ := bind_eq_ok_iff.mp h
    obtain ⟨rest, hrest, h⟩ := bind_eq_ok_iff.mp h
    obtain rfl := Except.ok.inj h
    exact isPlain_append.mpr ⟨isPlain_load hfirst, ih hrest⟩

theorem isPlain_invoke {call : Call} {isStatic : Bool} (h : e.invoke call isStatic = .ok code) :
    IsPlain code := by
  obtain ⟨caller, args, method, owner, hcaller, hargs, _, _, rfl⟩ := Emitter.invoke_eq_ok h
  have hplain : IsPlain caller := by
    cases isStatic with
    | true =>
      rw [show caller = [] from hcaller]
      exact isPlain_nil
    | false => exact isPlain_load hcaller
  simp [Step.op, hplain, isPlain_loads hargs]

theorem isPlain_call {call : Call} (h : e.call call = .ok code) : IsPlain code := by
  cases e.callCode_of_ok h with
  | newArray _ _ _ hsize => simp [Step.op, isPlain_load hsize]
  | newObject => simp [Step.op]
  | arrayLength _ hcaller | construct _ hcaller => simp [Step.op, isPlain_load hcaller]
  | named _ hcode => exact isPlain_invoke hcode

theorem isPlain_value {i : Instr} (h : e.value i n = .ok (code, n')) : IsPlain code := by
  cases i with
  | single o => exact isPlain_load (Emit.lift_eq_ok_iff.mp h).1
  | binary op left right type =>
    obtain ⟨x, hx, h⟩ := Emit.lift_bind_eq_ok_iff.mp h
    obtain ⟨y, hy, h⟩ := Emit.lift_bind_eq_ok_iff.mp h
    cases ha : arithOf op with
    | some a =>
      rw [ha] at h
      obtain ⟨rfl, rfl⟩ := Emit.pure_eq_ok_iff.mp h
      simp [Step.op, isPlain_load hx, isPlain_load hy]
    | none =>
      rw [ha] at h
      obtain ⟨test, n₁, htest, h⟩ := Emit.bind_eq_ok_iff.mp h
      obtain ⟨rfl, rfl⟩ := Emit.pure_eq_ok_iff.mp h
      obtain ⟨rfl, rfl⟩ := Prod.mk.inj (Except.ok.inj htest)
      simp [Step.op, Step.label, isPlain_load hx, isPlain_load hy]
  | not o type =>
    obtain ⟨x, hx, h⟩ := Emit.lift_bind_eq_ok_iff.mp h
    obtain ⟨rfl, rfl⟩ := Emit.pure_eq_ok_iff.mp h
    simp [Step.op, isPlain_load hx]
  | call call =>
    rw [Emitter.value] at h
    split at h
    · cases h
    · exact isPlain_call (Emit.lift_eq_ok_iff.mp h).1
  | getField object field type =>
    obtain ⟨x, hx, h⟩ := Emit.lift_bind_eq_ok_iff.mp h
    obtain ⟨owner, _, h⟩ := Emit.lift_bind_eq_ok_iff.mp h
    obtain ⟨rfl, rfl⟩ := Emit.pure_eq_ok_iff.mp h
    simp [Step.op, isPlain_load hx]
  | _ => cases h

theorem isPlain_plainAssign {target : Operand} {value : Instr}
    (h : e.plainAssign target value n = .ok (code, n')) : IsPlain code := by
  cases target with
  | var x t =>
    obtain ⟨slot, _, h⟩ := Emit.lift_bind_eq_ok_iff.mp h
    obtain ⟨valueCode, n₁, hvalue, h⟩ := Emit.bind_eq_ok_iff.mp h
    obtain ⟨rfl, rfl⟩ := Emit.pure_eq_ok_iff.mp h
    simp [Step.op, isPlain_value hvalue]
  | element x index t =>
    obtain ⟨slot, _, h⟩ := Emit.lift_bind_eq_ok_iff.mp h
    obtain ⟨position, hposition, h⟩ := Emit.lift_bind_eq_ok_iff.mp h
    obtain ⟨valueCode, n₁, hvalue, h⟩ := Emit.bind_eq_ok_iff.mp h
    obtain ⟨rfl, rfl⟩ := Emit.pure_eq_ok_iff.mp h
    simp [Step.op, isPlain_load hposition, isPlain_value hvalue]
  | _ => cases h

theorem isPlain_branch {test : Instr} {label : String}
    (h : e.branch test label n = .ok (code, n')) : IsPlain code := by
  rw [Emitter.branch.eq_def] at h
  split at h
  · obtain ⟨x, hx, h⟩ := Emit.lift_bind_eq_ok_iff.mp h
    obtain ⟨y, hy, h⟩ := Emit.lift_bind_eq_ok_iff.mp h
    obtain ⟨rfl, rfl⟩ := Emit.pure_eq_ok_iff.mp h
    simp [Step.op, isPlain_load hx, isPlain_load hy]
  · obtain ⟨x, hx, h⟩ := Emit.lift_bind_eq_ok_iff.mp h
    obtain ⟨rfl, rfl⟩ := Emit.pure_eq_ok_iff.mp h
    simp [Step.op, isPlain_load hx]
  · obtain ⟨valueCode, n₁, hvalue, h⟩ := Emit.bind_eq_ok_iff.mp h
    obtain ⟨rfl, rfl⟩ := Emit.pure_eq_ok_iff.mp h
    simp [Step.op, isPlain_value hvalue]

/-- Only assignments become increments. -/
theorem isPlain_instr {i : Instr} (h : e.instr i n = .ok (code, n'))
    (hassign : ∀ target type value, i ≠ .assign target type value) : IsPlain code := by
  cases i with
  | assign target type value => exact absurd rfl (hassign target type value)
  | branch test label => exact isPlain_branch h
  | call call =>
    obtain ⟨callCode, hcall, h⟩ := Emit.lift_bind_eq_ok_iff.mp h
    obtain ⟨rfl, rfl⟩ := Emit.pure_eq_ok_iff.mp h
    have hplain := isPlain_call hcall
    split <;> simp [Step.op, hplain]
  | putField object field type value =>
    obtain ⟨x, hx, h⟩ := Emit.lift_bind_eq_ok_iff.mp h
    obtain ⟨y, hy, h⟩ := Emit.lift_bind_eq_ok_iff.mp h
    obtain ⟨owner, _, h⟩ := Emit.lift_bind_eq_ok_iff.mp h
    obtain ⟨rfl, rfl⟩ := Emit.pure_eq_ok_iff.mp h
    simp [Step.op, isPlain_load hx, isPlain_load hy]
  | goto label =>
    obtain ⟨rfl, rfl⟩ := Emit.pure_eq_ok_iff.mp h
    simp [Step.op]
  | ret type value =>
    cases value with
    | none =>
      obtain ⟨rfl, rfl⟩ := Emit.pure_eq_ok_iff.mp h
      simp [Step.op]
    | some o =>
      obtain ⟨x, hx, h⟩ := Emit.lift_bind_eq_ok_iff.mp h
      obtain ⟨rfl, rfl⟩ := Emit.pure_eq_ok_iff.mp h
      simp [Step.op, isPlain_load hx]
  | _ =>
    obtain ⟨valueCode, n₁, hvalue, h⟩ := Emit.bind_eq_ok_iff.mp h
    obtain ⟨rfl, rfl⟩ := Emit.pure_eq_ok_iff.mp h
    simp [Step.op, isPlain_value hvalue]

/-! ## Increments -/

/-- An assignment is left alone, is an increment, or is refused because its literal is no
integer. -/
theorem increment?_forms (e : Emitter) (target : Operand) (value : Instr) :
    e.increment? target value = .ok none
    ∨ (∃ form x k type, target = .var x .int32
      ∧ value = StepForm.value form x (.literal k .int32) type
      ∧ e.increment? target value = do return some (← e.slot x, form.step k))
    ∨ ∃ form x k t type, t ≠ .int32 ∧ target = .var x .int32
      ∧ value = StepForm.value form x (.literal k t) type := by
  rw [increment?.eq_def]
  split
  · rename_i x op left right type
    split
    · rename_i k t negated hstep
      obtain ⟨form, hvalue, hform⟩ : ∃ form, Instr.binary op left right type
          = StepForm.value form x (.literal k t) type
          ∧ form.step k = if negated then -k else k := by
        rcases stepOf_cases hstep with
          ⟨rfl, rfl, rfl, rfl⟩ | ⟨rfl, rfl, rfl, rfl⟩ | ⟨rfl, rfl, rfl, rfl⟩
        · exact ⟨.add, rfl, rfl⟩
        · exact ⟨.addTo, rfl, rfl⟩
        · exact ⟨.sub, rfl, rfl⟩
      by_cases ht : t = .int32
      · subst ht
        rw [if_pos rfl]
        cases hfits : fittingStep k negated with
        | none => exact .inl rfl
        | some step =>
          obtain rfl := eq_of_fittingStep hfits
          exact .inr (.inl ⟨form, x, k, type, rfl, hvalue, by rw [hform]⟩)
      · exact .inr (.inr ⟨form, x, k, t, type, ht, rfl, hvalue⟩)
    · exact .inl rfl
  · exact .inl rfl

/-- A literal that is no integer is refused in every form. -/
theorem increment?_of_ne_int32 (form : StepForm) {x : String} {k : Int32} {t type : Ollir.Ty}
    (ht : t ≠ .int32) :
    e.increment? (.var x .int32) (form.value x (.literal k t) type)
      = .error (.incrementLiteral (.literal k t) x) := by
  cases form <;> simp [StepForm.value, increment?, stepOf, ht]

/-- The code without fusion of an assignment that steps a variable. -/
theorem plainAssign_form (form : StepForm) {x : String} {slot : Nat} {k : Int32} {type : Ollir.Ty}
    (hslot : e.slot x = .ok slot) :
    e.plainAssign (.var x .int32) (form.value x (.literal k .int32) type) n
      = .ok (form.code slot k, n) := by
  cases form <;> simp only [StepForm.value, plainAssign, value, load, hslot] <;> rfl

end Emitter

/-! ## Counts of operands -/

section Within

variable {a b a' b' : List Step}

theorem highest_append (count : Int) (a b : List Step) :
    Step.highest count (a ++ b)
      = max (Step.highest count a) (Step.highest (countAfter count a) b) := by
  induction a generalizing count with
  | nil =>
    have hcount := le_highest count b
    show Step.highest count b = max count (Step.highest count b)
    omega
  | cons s a ih =>
    have htail := ih (count + s.effect)
    have hafter : countAfter count (s :: a) = countAfter (count + s.effect) a := rfl
    rw [List.cons_append, Step.highest, Step.highest, htail, hafter]
    omega

/-- Code that can stand for other code where operands are counted: it leaves as many of them, and
never has more on the way. -/
def Within (a b : List Step) : Prop :=
  ∀ count, Step.highest count a ≤ Step.highest count b ∧ countAfter count a = countAfter count b

theorem Within.refl (a : List Step) : Within a a := fun _ ↦ ⟨Int.le_refl _, rfl⟩

theorem Within.append (ha : Within a a') (hb : Within b b') : Within (a ++ b) (a' ++ b') := by
  intro count
  obtain ⟨hhigh, hafter⟩ := ha count
  obtain ⟨hhigh', hafter'⟩ := hb (countAfter count a')
  refine ⟨?_, ?_⟩
  · rw [highest_append, highest_append, hafter]
    omega
  · rw [countAfter, List.foldl_append, countAfter, List.foldl_append]
    exact (congrArg (countAfter · b) hafter).trans hafter'

theorem Within.limit_le (h : Within a b) : Step.limit a ≤ Step.limit b :=
  Int.toNat_le_toNat (h 0).1

theorem within_code (form : StepForm) (slot : Nat) (k : Int32) :
    Within [.op (.increment slot (form.step k)) 0] (form.code slot k) := by
  intro count
  have hhigh : Step.highest count (form.code slot k)
      = max count (max (count + 1) (max (count + 1 + 1) (max (count + 1 + 1 + -1)
          (count + 1 + 1 + -1 + -1)))) := by
    cases form <;> rfl
  have hafter : countAfter count (form.code slot k) = count + 1 + 1 + -1 + -1 := by
    cases form <;> rfl
  have hincrement : Step.highest count [.op (.increment slot (form.step k)) 0]
      = max count (count + 0) := rfl
  refine ⟨by omega, ?_⟩
  rw [hafter]
  show count + 0 = _
  omega

end Within

/-! ## Lines with and without fusion -/

/-- The lines of labels and instructions with fusion, and the lines without: they are the same, but
for the increments, each of which stands for the operations of an assignment that steps a
variable. -/
inductive Unfused (vars : VarTable) : List Item → List Line → List Line → Prop where
  | nil : Unfused vars [] [] []
  | same {i : Item} {is : List Item} {lines fused plain : List Line}
    (hnone : ∀ slot step, .op (.increment slot step) ∉ lines) (h : Unfused vars is fused plain) :
    Unfused vars (i :: is) (lines ++ fused) (lines ++ plain)
  | increment {form : StepForm} {x : String} {k : Int32} {t type : Ollir.Ty} {b : Ollir.Binding}
    {is : List Item} {fused plain : List Line} (hb : vars.get? x = some b)
    (h : Unfused vars is fused plain) :
    Unfused vars (.instr (form.assign x (.literal k .int32) t type) :: is)
      (.op (.increment b.slot (form.step k)) :: fused)
      ((form.ops b.slot k).map .op ++ plain)

namespace Emitter

variable {e : Emitter} {code : List Step} {n n' : Nat}

/-- An instruction has the same code without fusion, or is an increment. -/
theorem instr_plain {i : Instr} (h : e.instr i n = .ok (code, n')) :
    (e.plain.instr i n = .ok (code, n') ∧ IsPlain code)
    ∨ ∃ form x k t type b, i = StepForm.assign form x (.literal k .int32) t type
      ∧ e.vars.get? x = some b ∧ code = [.op (.increment b.slot (form.step k)) 0]
      ∧ e.plain.instr i n = .ok (form.code b.slot k, n') := by
  by_cases hassign : ∃ target type value, i = .assign target type value
  · obtain ⟨target, t, value, rfl⟩ := hassign
    rw [show e.plain.instr (.assign target t value) = e.plainAssign target value from
      e.plain_assign target value]
    rcases assign_eq_ok h with h | ⟨slot, step, hfused, rfl, rfl⟩
    · exact .inl ⟨h, isPlain_plainAssign h⟩
    · rcases e.increment?_forms target value with
        hnone | ⟨form, x, k, type, rfl, rfl, hsome⟩ | ⟨form, x, k, t', type, ht, rfl, rfl⟩
      · rw [hnone] at hfused
        cases hfused
      · rw [hsome] at hfused
        obtain ⟨slot', hslot, hfused⟩ := bind_eq_ok_iff.mp hfused
        obtain ⟨rfl, rfl⟩ := Prod.mk.inj (Option.some.inj (Except.ok.inj hfused))
        obtain ⟨b, hb, rfl⟩ := slot_eq_ok hslot
        exact .inr ⟨form, x, k, t, type, b, rfl, hb, rfl, plainAssign_form form hslot⟩
      · rw [increment?_of_ne_int32 form ht] at hfused
        cases hfused
  · have hother : ∀ target type value, i ≠ .assign target type value := by grind
    rw [plain_instr hother]
    exact .inl ⟨h, isPlain_instr h hother⟩

/-- Emission with fusion is followed by emission without, which numbers the comparisons alike. -/
theorem items_plain {is : List Item} (h : e.items is n = .ok (code, n')) :
    ∃ code', e.plain.items is n = .ok (code', n') ∧ Within code code'
      ∧ Unfused e.vars is (code.map Step.line) (code'.map Step.line) := by
  induction is generalizing n code with
  | nil =>
    obtain ⟨rfl, rfl⟩ := Emit.pure_eq_ok_iff.mp h
    exact ⟨[], rfl, .refl [], .nil⟩
  | cons i is ih =>
    obtain ⟨first, n₁, hfirst, h⟩ := Emit.bind_eq_ok_iff.mp h
    obtain ⟨rest, n₂, hrest, h⟩ := Emit.bind_eq_ok_iff.mp h
    obtain ⟨rfl, rfl⟩ := Emit.pure_eq_ok_iff.mp h
    obtain ⟨rest', hrest', hwithin, hunfused⟩ := ih hrest
    have hitems : ∀ {first'}, e.plain.item i n = .ok (first', n₁) →
        e.plain.items (i :: is) n = .ok (first' ++ rest', n') := fun hfirst' ↦
      Emit.bind_eq_ok_iff.mpr ⟨_, n₁, hfirst', Emit.bind_eq_ok_iff.mpr ⟨rest', n', hrest', rfl⟩⟩
    cases i with
    | label name =>
      obtain ⟨rfl, rfl⟩ := Emit.pure_eq_ok_iff.mp hfirst
      have hlabel : Within [.label name] [.label name] := .refl _
      refine ⟨[.label name] ++ rest', hitems rfl, hlabel.append hwithin, ?_⟩
      have hnone : IsPlain [.label name] := by simp [Step.label]
      exact Unfused.same (i := .label name) hnone hunfused
    | instr i =>
      rcases instr_plain hfirst with
        ⟨hplain, hnone⟩ | ⟨form, x, k, t, type, b, rfl, hb, rfl, hplain⟩
      · refine ⟨first ++ rest', hitems hplain, (Within.refl _).append hwithin, ?_⟩
        rw [List.map_append, List.map_append]
        exact .same hnone hunfused
      · refine ⟨form.code b.slot k ++ rest', hitems hplain, ?_, ?_⟩
        · exact (within_code form b.slot k).append hwithin
        · rw [List.map_append, List.map_append, StepForm.map_line_code]
          exact .increment hb hunfused

theorem assign_of_none {target : Operand} {value : Instr}
    (h : e.increment? target value = .ok none) :
    e.assign target value = e.plainAssign target value := by
  rw [assign, h]
  cases e.fusion <;> rfl

/-- An assignment that is an increment can be emitted with and without fusion. -/
theorem exists_assign {target : Operand} {value : Instr} {slot : Nat} {step : Int32}
    (h : e.increment? target value = .ok (some (slot, step)))
    (hplain : e.plainAssign target value n = .ok (code, n)) :
    ∃ code', e.assign target value n = .ok (code', n) := by
  rw [assign, h]
  cases e.fusion with
  | false => exact ⟨code, hplain⟩
  | true => exact ⟨[.op (.increment slot step) 0], rfl⟩

/-- The assignments that fusion refuses: they step a variable by a literal that is no integer. -/
def StepsByNonInt (i : Instr) : Prop :=
  ∃ (form : StepForm) (x : String) (k : Int32) (t t' type : Ollir.Ty),
    t ≠ .int32 ∧ i = form.assign x (.literal k t) t' type

/-- An instruction that can be emitted without fusion can be emitted with it, unless it is
refused. -/
theorem exists_instr {i : Instr} (h : e.plain.instr i n = .ok (code, n'))
    (hsteps : ¬ StepsByNonInt i) : ∃ code', e.instr i n = .ok (code', n') := by
  by_cases hassign : ∃ target type value, i = .assign target type value
  · obtain ⟨target, t, value, rfl⟩ := hassign
    have hplain : e.plainAssign target value n = .ok (code, n') :=
      (congrFun (e.plain_assign target value) n).symm.trans h
    show ∃ code', e.assign target value n = .ok (code', n')
    rcases e.increment?_forms target value with
      hnone | ⟨form, x, k, type, rfl, rfl, hsome⟩ | ⟨form, x, k, t', type, ht, rfl, rfl⟩
    · exact ⟨code, (congrFun (assign_of_none hnone) n).trans hplain⟩
    · obtain ⟨slot, hslot, _⟩ := Emit.lift_bind_eq_ok_iff.mp hplain
      have hform : e.plainAssign (.var x .int32) (form.value x (.literal k .int32) type) n
          = .ok (form.code slot k, n) := plainAssign_form form hslot
      obtain ⟨rfl, rfl⟩ := Prod.mk.inj (Except.ok.inj (hform.symm.trans hplain))
      rw [hslot] at hsome
      exact exists_assign hsome hplain
    · exact absurd ⟨form, x, k, t', t, type, ht, rfl⟩ hsteps
  · have hother : ∀ target type value, i ≠ .assign target type value := by grind
    rw [plain_instr hother] at h
    exact ⟨code, h⟩

theorem exists_items {is : List Item} (h : e.plain.items is n = .ok (code, n'))
    (hsteps : ∀ i ∈ instrsOf is, ¬ StepsByNonInt i) :
    ∃ code', e.items is n = .ok (code', n') := by
  induction is generalizing n code with
  | nil => exact ⟨code, h⟩
  | cons i is ih =>
    obtain ⟨first, n₁, hfirst, h⟩ := Emit.bind_eq_ok_iff.mp h
    obtain ⟨rest, n₂, hrest, h⟩ := Emit.bind_eq_ok_iff.mp h
    obtain ⟨rfl, rfl⟩ := Emit.pure_eq_ok_iff.mp h
    obtain ⟨first', hfirst'⟩ : ∃ first', e.item i n = .ok (first', n₁) := by
      cases i with
      | label name => exact ⟨first, hfirst⟩
      | instr i => exact exists_instr hfirst (hsteps i List.mem_cons_self)
    obtain ⟨rest', hrest'⟩ := ih hrest fun j hj ↦ hsteps j (by
      cases i with
      | label name => exact hj
      | instr i => exact List.mem_cons_of_mem _ hj)
    exact ⟨first' ++ rest', Emit.bind_eq_ok_iff.mpr ⟨first', n₁, hfirst',
      Emit.bind_eq_ok_iff.mpr ⟨rest', n', hrest', rfl⟩⟩⟩

/-- With fusion, nothing is emitted for an instruction that is refused. -/
theorem not_stepsByNonInt (hfusion : e.fusion = true) {is : List Item}
    (h : e.items is n = .ok (code, n')) {i : Instr} (hi : i ∈ instrsOf is) :
    ¬ StepsByNonInt i := by
  induction is generalizing n code with
  | nil => cases hi
  | cons j is ih =>
    obtain ⟨first, n₁, hfirst, h⟩ := Emit.bind_eq_ok_iff.mp h
    obtain ⟨rest, n₂, hrest, h⟩ := Emit.bind_eq_ok_iff.mp h
    obtain ⟨rfl, rfl⟩ := Emit.pure_eq_ok_iff.mp h
    cases j with
    | label name => exact ih hrest hi
    | instr j =>
      rcases List.mem_cons.mp hi with rfl | hi
      · rintro ⟨form, x, k, t, t', type, ht, rfl⟩
        have hassign : e.assign (.var x .int32) (form.value x (.literal k t) type) n
            = .ok (first, n₁) := hfirst
        rw [assign, hfusion, if_pos rfl, increment?_of_ne_int32 form ht] at hassign
        cases hassign
      · exact ih hrest hi

end Emitter

/-! ## Classes -/

/-- The method emitted with fusion and the one without: they differ in their lines, of which the
first has fewer operands on the stack. -/
structure Unfuses (m : Ollir.Method) (fused plain : Method) : Prop where
  eq : plain = { fused with stackLimit := plain.stackLimit, lines := plain.lines }
  limit : fused.stackLimit ≤ plain.stackLimit
  lines : Unfused m.vars m.listing fused.lines plain.lines

section Classes

variable {unit : Ollir.Class} {ms : List Ollir.Method} {m : Ollir.Method} {n n' : Nat}

theorem emitMethod_plain {jm : Method} (h : emitMethod unit true m n = .ok (jm, n')) :
    ∃ jm', emitMethod unit false m n = .ok (jm', n') ∧ Unfuses m jm jm' := by
  obtain ⟨code, n₁, hcode, h⟩ := Emit.bind_eq_ok_iff.mp h
  obtain ⟨rfl, rfl⟩ := Emit.pure_eq_ok_iff.mp h
  obtain ⟨code', hcode', hwithin, hunfused⟩ := Emitter.items_plain hcode
  exact ⟨_, Emit.bind_eq_ok_iff.mpr ⟨code', n', hcode', rfl⟩, rfl, hwithin.limit_le, hunfused⟩

theorem emitMethods_plain {jms : List Method} (h : emitMethods unit true ms n = .ok (jms, n')) :
    ∃ jms', emitMethods unit false ms n = .ok (jms', n') ∧ jms'.length = jms.length
      ∧ ∀ (k : Nat) jm jm', jms[k]? = some jm → jms'[k]? = some jm' →
          ∃ m, ms[k]? = some m ∧ Unfuses m jm jm' := by
  induction ms generalizing n jms with
  | nil =>
    obtain ⟨rfl, rfl⟩ := Emit.pure_eq_ok_iff.mp h
    exact ⟨[], rfl, rfl, fun k jm jm' hjm ↦ by simp at hjm⟩
  | cons m ms ih =>
    obtain ⟨jm, n₁, hjm, h⟩ := Emit.bind_eq_ok_iff.mp h
    obtain ⟨jms, n₂, hjms, h⟩ := Emit.bind_eq_ok_iff.mp h
    obtain ⟨rfl, rfl⟩ := Emit.pure_eq_ok_iff.mp h
    obtain ⟨jm', hjm', hfirst⟩ := emitMethod_plain hjm
    obtain ⟨jms', hjms', hlength, hrest⟩ := ih hjms
    refine ⟨jm' :: jms', Emit.bind_eq_ok_iff.mpr ⟨jm', n₁, hjm',
      Emit.bind_eq_ok_iff.mpr ⟨jms', n', hjms', rfl⟩⟩, by simp [hlength], ?_⟩
    intro k fused plain hfused hplain
    cases k with
    | zero =>
      obtain rfl := Option.some.inj hfused
      obtain rfl := Option.some.inj hplain
      exact ⟨m, rfl, hfirst⟩
    | succ k => exact hrest k fused plain hfused hplain

theorem exists_emitMethods {jms : List Method} (h : emitMethods unit false ms n = .ok (jms, n'))
    (hsteps : ∀ m ∈ ms, ∀ i ∈ m.instrs, ¬ Emitter.StepsByNonInt i) :
    ∃ jms', emitMethods unit true ms n = .ok (jms', n') := by
  induction ms generalizing n jms with
  | nil => exact ⟨jms, h⟩
  | cons m ms ih =>
    obtain ⟨jm, n₁, hjm, h⟩ := Emit.bind_eq_ok_iff.mp h
    obtain ⟨jms, n₂, hjms, h⟩ := Emit.bind_eq_ok_iff.mp h
    obtain ⟨rfl, rfl⟩ := Emit.pure_eq_ok_iff.mp h
    obtain ⟨hm, hms⟩ := List.forall_mem_cons.mp hsteps
    obtain ⟨code, n₂, hcode, hjm⟩ := Emit.bind_eq_ok_iff.mp hjm
    obtain ⟨rfl, rfl⟩ := Emit.pure_eq_ok_iff.mp hjm
    obtain ⟨code', hcode'⟩ := Emitter.exists_items (e := ⟨unit, m.vars, true⟩) hcode
      (by rwa [Ollir.Method.instrsOf_listing])
    obtain ⟨jms', hjms'⟩ := ih hjms hms
    exact ⟨_, Emit.bind_eq_ok_iff.mpr ⟨_, n₁, Emit.bind_eq_ok_iff.mpr ⟨code', n₁, hcode', rfl⟩,
      Emit.bind_eq_ok_iff.mpr ⟨jms', n', hjms', rfl⟩⟩⟩

theorem emitClass_eq_ok_iff {fusion : Bool} {jc : Class} :
    emitClass fusion unit = .ok jc ↔ ∃ jms n',
      emitMethods unit fusion unit.methods 0 = .ok (jms, n')
      ∧ jc = { name := unit.name, superPath := unit.superPath,
               fields := unit.fields.map fun f ↦ ⟨f.access, f.name, .ofTy unit f.type⟩,
               methods := jms } := by
  constructor
  · intro h
    obtain ⟨methods, hmethods, h⟩ := bind_eq_ok_iff.mp h
    obtain ⟨⟨jms, n'⟩, hjms, hresult⟩ := bind_eq_ok_iff.mp hmethods
    obtain rfl := Except.ok.inj hresult
    exact ⟨jms, n', hjms, (Except.ok.inj h).symm⟩
  · rintro ⟨jms, n', hjms, rfl⟩
    exact bind_eq_ok_iff.mpr ⟨jms, bind_eq_ok_iff.mpr ⟨(jms, n'), hjms, rfl⟩, rfl⟩

/-- A class that is emitted with fusion is emitted without. -/
theorem emitClass_plain {jc : Class} (h : emitClass true unit = .ok jc) :
    ∃ jc', emitClass false unit = .ok jc' ∧ jc' = { jc with methods := jc'.methods }
      ∧ jc'.methods.length = jc.methods.length
      ∧ ∀ (k : Nat) jm jm', jc.methods[k]? = some jm → jc'.methods[k]? = some jm' →
          ∃ m, unit.methods[k]? = some m ∧ Unfuses m jm jm' := by
  obtain ⟨jms, n', hjms, rfl⟩ := emitClass_eq_ok_iff.mp h
  obtain ⟨jms', hjms', hlength, hunfuses⟩ := emitMethods_plain hjms
  exact ⟨_, emitClass_eq_ok_iff.mpr ⟨jms', n', hjms', rfl⟩, rfl, hlength, hunfuses⟩

/-- A class that is emitted without fusion is emitted with it, unless an assignment is refused. -/
theorem isOk_emitClass_fused :
    (emitClass true unit).isOk = true ↔ (emitClass false unit).isOk = true
      ∧ ∀ m ∈ unit.methods, ∀ i ∈ m.instrs, ¬ Emitter.StepsByNonInt i := by
  constructor
  · intro h
    obtain ⟨jc, hjc⟩ := exists_of_isOk h
    obtain ⟨jc', hjc', _⟩ := emitClass_plain hjc
    refine ⟨by rw [hjc']; rfl, fun m hm i hi ↦ ?_⟩
    obtain ⟨k, hk⟩ := List.getElem?_of_mem hm
    obtain ⟨jm, n, n', code, _, hcode, _⟩ := emitClass_getElem? hjc hk
    exact Emitter.not_stepsByNonInt rfl hcode (by rwa [Ollir.Method.instrsOf_listing])
  · rintro ⟨h, hsteps⟩
    obtain ⟨jc, hjc⟩ := exists_of_isOk h
    obtain ⟨jms, n', hjms, rfl⟩ := emitClass_eq_ok_iff.mp hjc
    obtain ⟨jms', hjms'⟩ := exists_emitMethods hjms hsteps
    rw [emitClass_eq_ok_iff.mpr ⟨jms', n', hjms', rfl⟩]
    rfl

end Classes

/-- **Increment fusion is transparent.**  A class that is emitted with fusion is emitted without,
with the same lines but for the increments, and with stack limits that are not smaller.  On the
machine, an increment and the operations it stands for do the same, and fail alike where the slot
holds no integer.  What is emitted without fusion is emitted with it, unless a variable is stepped
by a literal that is no integer. -/
theorem emitClass_transparent (unit : Ollir.Class) :
    (∀ jc, emitClass true unit = .ok jc → ∃ jc', emitClass false unit = .ok jc'
      ∧ jc' = { jc with methods := jc'.methods } ∧ jc'.methods.length = jc.methods.length
      ∧ ∀ (k : Nat) jm jm', jc.methods[k]? = some jm → jc'.methods[k]? = some jm' →
          ∃ m, unit.methods[k]? = some m ∧ Unfuses m jm jm')
    ∧ (∀ (form : StepForm) (slot i j : Nat) (k : Int32) (lines lines' : List Line),
        lines[i]? = some (.op (.increment slot (form.step k))) →
        (∀ d o, (form.ops slot k)[d]? = some o → lines'[j + d]? = some (.op o)) →
        ∀ w stack locals s,
          step w lines (.running ⟨i, stack, locals⟩ s)
            = (bumped slot (form.step k) locals).map
                (fun locals' ↦ .running ⟨i + 1, stack, locals'⟩ s)
          ∧ stepTimes w lines' 4 (.running ⟨j, stack, locals⟩ s)
            = (bumped slot (form.step k) locals).map
                (fun locals' ↦ .running ⟨j + 4, stack, locals'⟩ s))
    ∧ ((emitClass true unit).isOk = true ↔ (emitClass false unit).isOk = true
      ∧ ∀ m ∈ unit.methods, ∀ i ∈ m.instrs, ¬ Emitter.StepsByNonInt i) :=
  ⟨fun _ ↦ emitClass_plain,
    fun form _ _ _ _ _ _ hfused hops _ _ _ _ ↦ ⟨step_increment hfused, stepTimes_ops form hops⟩,
    isOk_emitClass_fused⟩

/-- The statement for `b := x < 3; x := x - 128; x := 5 + x; x := x - -128`, of which the last step
does not fit, and for a step by a truth value. -/
theorem emitClass_transparent_steps :
    let x : Operand := .var "x" .int32
    let b : Operand := .var "b" .boolean
    let m : Ollir.Method :=
      { name := "f", isStatic := true, params := [x], returns := .void,
        instrs := [.assign b .boolean (.binary .less x (.literal 3 .int32) .boolean),
          StepForm.sub.assign "x" (.literal 128 .int32) .int32 .int32,
          StepForm.addTo.assign "x" (.literal 5 .int32) .int32 .int32,
          StepForm.sub.assign "x" (.literal (-128) .int32) .int32 .int32],
        vars := ⟨[("x", ⟨.parameter, 0, .int32⟩), ("b", ⟨.local, 1, .boolean⟩)]⟩ }
    let refused : Ollir.Method :=
      { m with instrs := [StepForm.add.assign "x" (.literal 1 .boolean) .int32 .int32] }
    (∃ jc jc' jm jm', emitClass true { name := "A", methods := [m] } = .ok jc
      ∧ emitClass false { name := "A", methods := [m] } = .ok jc'
      ∧ jc.methods = [jm] ∧ jc'.methods = [jm'] ∧ Unfuses m jm jm'
      ∧ jm.lines.drop 9 = [.op (.increment 0 (-128)), .op (.increment 0 5),
        .op (.load .int 0), .op (.const (-128)), .op (.arith .sub), .op (.store .int 0)])
    ∧ (∀ w stack s, stepTimes w (List.map .op (StepForm.sub.ops 0 128)) 4
        (.running ⟨0, stack, fun _ ↦ .int (-2147483648)⟩ s)
      = some (.running ⟨4, stack, Function.update (fun _ ↦ .int (-2147483648)) 0
          (.int 2147483520)⟩ s))
    ∧ (emitClass false { name := "A", methods := [refused] }).isOk = true
    ∧ (emitClass true { name := "A", methods := [refused] }).isOk = false := by
  intro x b m refused
  refine ⟨?_, fun w stack s ↦ ?_, by decide +kernel, ?_⟩
  · have hlines : ((emitClass true { name := "A", methods := [m] }).toOption.map fun jc ↦
        jc.methods.map fun jm ↦ jm.lines.drop 9) = some [[.op (.increment 0 (-128)),
          .op (.increment 0 5), .op (.load .int 0), .op (.const (-128)), .op (.arith .sub),
          .op (.store .int 0)]] := by decide +kernel
    obtain ⟨jc, hjc⟩ := exists_of_isOk
      (show (emitClass true { name := "A", methods := [m] }).isOk = true by decide +kernel)
    obtain ⟨jc', hjc', _, hlength, hmethods⟩ := (emitClass_transparent _).1 jc hjc
    rw [hjc] at hlines
    obtain ⟨jm, hjm, hdrop⟩ := List.map_eq_singleton_iff.mp (Option.some.inj hlines)
    rw [hjm] at hlength
    obtain ⟨jm', hjm'⟩ := List.length_eq_one_iff.mp hlength
    obtain ⟨m', hm', hunfuses⟩ := hmethods 0 jm jm' (by rw [hjm]; rfl) (by rw [hjm']; rfl)
    obtain rfl := Option.some.inj hm'
    exact ⟨jc, jc', jm, jm', hjc, hjc', hjm, hjm', hunfuses, hdrop⟩
  · have hops : ∀ d o, (StepForm.sub.ops 0 128)[d]? = some o →
        (List.map Line.op (StepForm.sub.ops 0 128))[0 + d]? = some (.op o) := by
      intro d o h
      rw [Nat.zero_add, List.getElem?_map, h]
      rfl
    have hrun := ((emitClass_transparent { name := "A" }).2.1 .sub 0 0 0 128
      [.op (.increment 0 (-128))] _ rfl hops w stack (fun _ ↦ .int (-2147483648)) s).2
    exact hrun
  · refine Bool.eq_false_iff.mpr fun hok ↦ ?_
    have hsteps := ((emitClass_transparent _).2.2.mp hok).2 refused List.mem_cons_self
    exact hsteps _ List.mem_cons_self
      ⟨.add, "x", 1, .boolean, .int32, .int32, by decide, rfl⟩

end Jmm.Jasmin
