import Jmm.Ollir.Method
import Jmm.Proofs.Semantics.Eval

/-!
# Running OLLIR

The small-step meaning of a method of OLLIR.  A state is the index of the next instruction, the
variables and the shared state; a step runs one instruction.  Operands and values are computations
that leave the variables alone, and only an assignment to a variable changes one.

Types play no role: an instruction works on the values it finds.  `Instr.exec` is undefined where
these do not fit, where a class is used as a value, and for a jump to a label that is not placed.
-/

set_option autoImplicit false

namespace Jmm.Ollir

open Semantics

/-! ## Operands and values -/

/-- The value of an operand. -/
def Operand.eval (c : Context) (env : Env) : Operand → Eval Val
  | literal value _ => pure (.int value)
  | var name _ => pure (env name)
  | element name index _ => do
    let i ← index.eval c env
    arrayLoad (env name) i
  | receiver _ => pure c.self
  | classRef _ => Eval.undefined

/-- The values of operands, the first one first. -/
def Operand.evals (c : Context) (env : Env) : List Operand → Eval (List Val)
  | [] => pure []
  | o :: os => do
    let v ← o.eval c env
    let vs ← evals c env os
    return v :: vs

/-- What a method is called on.  A class is named, everything else is a value. -/
def Operand.target (c : Context) (env : Env) : Operand → Eval Target
  | classRef name => pure (.static (c.path name))
  | o => do return .object (← o.eval c env)

/-- The value a call of a method by name gives, once it is known what it is called on. -/
def Call.invoked (c : Context) (env : Env) (call : Call) (target : Eval Target) : Eval Val :=
  match call.method with
  | some method => do
    let t ← target
    let args ← Operand.evals c env call.args
    invoke c.world t method args
  | none => Eval.undefined

/-- The value a call gives.  An array is allocated only if there is a length: a class may have the
name under which arrays are allocated.  A call that is static by its form needs a class to be called
on. -/
def Call.eval (c : Context) (env : Env) (call : Call) : Eval Val :=
  match call.kind with
  | .new =>
    match call.caller, call.args with
    | .classRef name, [] => Semantics.newObject (c.path name)
    | _, [length] =>
      if call.isNewArray then do Semantics.newArray (← length.eval c env) else Eval.undefined
    | _, _ => Eval.undefined
  | .arrayLength => do arrayLength (← call.caller.eval c env)
  | .special => do invoke c.world (.object (← call.caller.eval c env)) constructorName []
  | .virtual => call.invoked c env (call.caller.target c env)
  | .static =>
    match call.caller with
    | .classRef name => call.invoked c env (pure (.static (c.path name)))
    | _ => Eval.undefined

/-- The value an instruction produces where it stands. -/
def Instr.value (c : Context) (env : Env) : Instr → Eval Val
  | single o => o.eval c env
  | binary op left right _ => do
    let x ← left.eval c env
    let y ← right.eval c env
    operate op x y
  | not o _ => do negate (← o.eval c env)
  | call k => k.eval c env
  | getField object field _ => do Semantics.getField (← object.eval c env) field
  | _ => Eval.undefined

/-! ## Instructions -/

/-- Where a method goes after an instruction. -/
inductive Next where
  | goto (pc : Nat) (env : Env)
  | returned (v : Option Val)

/-- The way to a label. -/
def Method.jump (m : Method) (label : String) (env : Env) : Eval Next :=
  match m.labelTarget? label with
  | some pc => pure (.goto pc env)
  | none => Eval.undefined

/-- The effect of the instruction at an index of a method.  The index of an element that is assigned
to is computed before the value. -/
def Instr.exec (c : Context) (m : Method) (pc : Nat) (env : Env) : Instr → Eval Next
  | assign (.var x _) _ value => do
    let v ← value.value c env
    return .goto (pc + 1) (env.set x v)
  | assign (.element x index _) _ value => do
    let i ← index.eval c env
    let v ← value.value c env
    arrayStore (env x) i v
    return .goto (pc + 1) env
  | assign _ _ _ => Eval.undefined
  | putField object field _ value => do
    let o ← object.eval c env
    let v ← value.eval c env
    Semantics.putField o field v
    return .goto (pc + 1) env
  | branch test label => do
    if ← truth (← test.value c env) then m.jump label env else return .goto (pc + 1) env
  | goto label => m.jump label env
  | ret _ none => return .returned none
  | ret _ (some o) => do return .returned (some (← o.eval c env))
  | i => do
    let _ ← i.value c env
    return .goto (pc + 1) env

/-! ## Runs -/

/-- A state of a method that runs or has ended. -/
inductive State where
  | running (pc : Nat) (env : Env) (s : Shared)
  | returned (v : Option Val) (env : Env) (s : Shared)
  | raised (x : Exn) (env : Env) (s : Shared)

/-- The variables in a state. -/
def State.env : State → Env
  | running _ env _ => env
  | returned _ env _ => env
  | raised _ env _ => env

/-- The state after an instruction that ended in the given way. -/
def State.after (env : Env) : Outcome Next → Option State
  | .ok (.goto pc env') s => some (.running pc env' s)
  | .ok (.returned v) s => some (.returned v env s)
  | .raised x s => some (.raised x env s)
  | .undefined => none

/-- The state after one step.  A method that has ended takes none. -/
def Method.step (c : Context) (m : Method) : State → Option State
  | .running pc env s =>
    match m.instrs[pc]? with
    | some i => State.after env (i.exec c m pc env s)
    | none => none
  | _ => none

/-- One state leads to another in any number of steps. -/
abbrev Method.Steps (c : Context) (m : Method) : State → State → Prop :=
  Relation.ReflTransGen fun st st' ↦ m.step c st = some st'

variable {c : Context} {m : Method}

theorem Method.step_running {pc : Nat} {i : Instr} (h : m.instrs[pc]? = some i) (env : Env)
    (s : Shared) : m.step c (.running pc env s) = State.after env (i.exec c m pc env s) := by
  rw [step, h]

theorem State.after_eq_running {env env' : Env} {r : Outcome Next} {pc : Nat} {s : Shared}
    (h : State.after env r = some (.running pc env' s)) : r = .ok (.goto pc env') s := by
  match r with
  | .ok (.goto _ _) _ =>
    cases h
    rfl
  | .ok (.returned _) _ | .raised _ _ | .undefined => exact nomatch h

/-- A method that goes on has executed an instruction. -/
theorem Method.step_eq_running {st : State} {pc' : Nat} {env' : Env} {s' : Shared}
    (h : m.step c st = some (.running pc' env' s')) :
    ∃ pc env s i, st = .running pc env s ∧ m.instrs[pc]? = some i
      ∧ i.exec c m pc env s = .ok (.goto pc' env') s' := by
  match st with
  | .returned _ _ _ | .raised _ _ _ => exact nomatch h
  | .running pc env s =>
    cases hi : m.instrs[pc]? with
    | none =>
      rw [step, hi] at h
      exact nomatch h
    | some i =>
      rw [step_running hi] at h
      exact ⟨pc, env, s, i, rfl, hi, State.after_eq_running h⟩

end Jmm.Ollir
