import Jmm.Jasmin.Assembly
import Jmm.Proofs.Semantics.Eval

/-!
# Running assembly

The small-step meaning of the lines of a method of assembly, on a machine without types: an operand
stack, the last pushed value first, locals by slot, and the shared state.  The letters that
mnemonics start with play no role, nor do the kinds of array elements; a descriptor only says how
many arguments a call takes off the stack and whether it leaves a result there.

A label is a line that does nothing, and a jump goes to the first line with its label.
-/

set_option autoImplicit false

namespace Jmm.Jasmin

open Semantics

/-- Where a method stands: the next line, the operand stack and the locals. -/
structure Frame where
  line : Nat
  stack : List Val
  locals : Nat → Val

/-- Where a method goes after an operation. -/
inductive Next where
  | goto (f : Frame)
  | returned (v : Option Val)

/-- The line of a label. -/
def labelLine? (lines : List Line) (label : String) : Option Nat :=
  lines.findIdx? fun l ↦ l == .label label

/-- The way to a label. -/
def jump (lines : List Line) (label : String) (stack : List Val) (locals : Nat → Val) : Eval Next :=
  match labelLine? lines label with
  | some line => pure (.goto ⟨line, stack, locals⟩)
  | none => Eval.undefined

/-- An operation on two integers. -/
def Arith.eval : Arith → Val → Val → Eval Val
  | add => operate .add
  | sub => operate .sub
  | mul => operate .mul
  | div => operate .div
  | and => operate .and
  | or => operate .or
  | xor => fun
    | .int a, .int b => pure (.int (a ^^^ b))
    | _, _ => Eval.undefined

/-- The condition of a jump, and the operands below those it takes. -/
def Test.eval : Test → List Val → Eval (Bool × List Val)
  | less, .int b :: .int a :: rest => pure (decide (a < b), rest)
  | zero, .int a :: rest => pure (decide (a = 0), rest)
  | nonzero, .int a :: rest => pure (decide (a ≠ 0), rest)
  | _, _ => Eval.undefined

/-- What a method is called on, and the operands below it. -/
def Invocation.target (owner : String) : Invocation → List Val → Eval (Target × List Val)
  | static, stack => pure (.static owner, stack)
  | _, object :: rest => pure (.object object, rest)
  | _, [] => Eval.undefined

/-- The stack after a call that gave a value. -/
def MethodDescriptor.pushResult (d : MethodDescriptor) (v : Val) (stack : List Val) : List Val :=
  if d.result = .void then stack else v :: stack

/-- The effect of the operation at a line. -/
def Op.exec (w : World) (lines : List Line) (f : Frame) : Op → Eval Next
  | const k => pure (.goto ⟨f.line + 1, .int k :: f.stack, f.locals⟩)
  | load _ slot => pure (.goto ⟨f.line + 1, f.locals slot :: f.stack, f.locals⟩)
  | store _ slot =>
    match f.stack with
    | v :: rest => pure (.goto ⟨f.line + 1, rest, Function.update f.locals slot v⟩)
    | _ => Eval.undefined
  | arrayLoad _ =>
    match f.stack with
    | i :: a :: rest => do return .goto ⟨f.line + 1, (← Semantics.arrayLoad a i) :: rest, f.locals⟩
    | _ => Eval.undefined
  | arrayStore _ =>
    match f.stack with
    | v :: i :: a :: rest => do
      Semantics.arrayStore a i v
      return .goto ⟨f.line + 1, rest, f.locals⟩
    | _ => Eval.undefined
  | increment slot step =>
    match f.locals slot with
    | .int n =>
      pure (.goto ⟨f.line + 1, f.stack, Function.update f.locals slot (.int (n + step))⟩)
    | _ => Eval.undefined
  | arith op =>
    match f.stack with
    | b :: a :: rest => do return .goto ⟨f.line + 1, (← op.eval a b) :: rest, f.locals⟩
    | _ => Eval.undefined
  | jumpIf test label => do
    let (holds, rest) ← test.eval f.stack
    if holds then jump lines label rest f.locals else return .goto ⟨f.line + 1, rest, f.locals⟩
  | goto label => jump lines label f.stack f.locals
  | new path => do return .goto ⟨f.line + 1, (← newObject path) :: f.stack, f.locals⟩
  | newIntArray =>
    match f.stack with
    | n :: rest => do return .goto ⟨f.line + 1, (← newArray n) :: rest, f.locals⟩
    | _ => Eval.undefined
  | arrayLength =>
    match f.stack with
    | a :: rest => do return .goto ⟨f.line + 1, (← Semantics.arrayLength a) :: rest, f.locals⟩
    | _ => Eval.undefined
  | invoke how owner method d =>
    if f.stack.length < d.params.length then Eval.undefined
    else do
      let (target, rest) ← how.target owner (f.stack.drop d.params.length)
      let v ← Semantics.invoke w target method (f.stack.take d.params.length).reverse
      return .goto ⟨f.line + 1, d.pushResult v rest, f.locals⟩
  | getField _ field _ =>
    match f.stack with
    | object :: rest => do
      return .goto ⟨f.line + 1, (← Semantics.getField object field) :: rest, f.locals⟩
    | _ => Eval.undefined
  | putField _ field _ =>
    match f.stack with
    | v :: object :: rest => do
      Semantics.putField object field v
      return .goto ⟨f.line + 1, rest, f.locals⟩
    | _ => Eval.undefined
  | pop =>
    match f.stack with
    | _ :: rest => pure (.goto ⟨f.line + 1, rest, f.locals⟩)
    | _ => Eval.undefined
  | ret .void => pure (.returned none)
  | ret _ =>
    match f.stack with
    | v :: _ => pure (.returned (some v))
    | _ => Eval.undefined

/-! ## Runs -/

/-- A state of a method that runs or has ended. -/
inductive State where
  | running (f : Frame) (s : Shared)
  | returned (v : Option Val) (s : Shared)
  | raised (x : Exn) (s : Shared)

/-- The state after an operation that ended in the given way. -/
def State.after : Outcome Next → Option State
  | .ok (.goto f) s => some (.running f s)
  | .ok (.returned v) s => some (.returned v s)
  | .raised x s => some (.raised x s)
  | .undefined => none

/-- The state after one line.  A method that has ended takes no step. -/
def step (w : World) (lines : List Line) : State → Option State
  | .running f s =>
    match lines[f.line]? with
    | some (.label _) => some (.running ⟨f.line + 1, f.stack, f.locals⟩ s)
    | some (.op o) => State.after (o.exec w lines f s)
    | none => none
  | _ => none

/-- One state leads to another in any number of steps. -/
abbrev Steps (w : World) (lines : List Line) : State → State → Prop :=
  Relation.ReflTransGen fun st st' ↦ step w lines st = some st'

theorem State.after_eq_running {r : Outcome Next} {f : Frame} {s : Shared}
    (h : State.after r = some (.running f s)) : r = .ok (.goto f) s := by
  match r with
  | .ok (.goto _) _ =>
    cases h
    rfl
  | .ok (.returned _) _ | .raised _ _ | .undefined => exact nomatch h

/-- A machine that goes on has passed a label or executed an operation. -/
theorem step_eq_running {w : World} {lines : List Line} {st : State} {f' : Frame} {s' : Shared}
    (h : step w lines st = some (.running f' s')) :
    ∃ f s, st = .running f s
      ∧ ((∃ x, lines[f.line]? = some (.label x) ∧ f' = ⟨f.line + 1, f.stack, f.locals⟩)
        ∨ ∃ o, lines[f.line]? = some (.op o) ∧ o.exec w lines f s = .ok (.goto f') s') := by
  match st with
  | .returned _ _ | .raised _ _ => exact nomatch h
  | .running f s =>
    refine ⟨f, s, rfl, ?_⟩
    rw [step] at h
    split at h
    · rename_i x hline
      cases h
      exact .inl ⟨x, hline, rfl⟩
    · rename_i o hline
      exact .inr ⟨o, hline, State.after_eq_running h⟩
    · exact nomatch h

end Jmm.Jasmin
