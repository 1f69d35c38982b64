import Jmm.Jasmin.Assembly
import Jmm.Ollir.Slots

/-!
# Emission

The assembly of an OLLIR class whose methods have variable tables.  Every instruction becomes a few
`Step`s: lines of assembly, each with the change of the count of operands on the stack that it
stands for in a straight run through the code.  The largest count is the stack limit of the method.

A comparison that has to leave a value takes two labels of its own, numbered through the whole
class; only one of its two constants reaches the end, which the count is corrected for.

Code that cannot be emitted is a `Fault`.  With `fusion` an assignment `x := x + k` becomes one
increment where the step fits.
-/

set_option autoImplicit false

namespace Jmm.Jasmin

open Ollir (Operand Instr Call VarTable)

/-- The reasons why code cannot be emitted. -/
inductive Fault where
  | fieldAsLocal (name : String)
  | unboundVariable (name : String)
  | notAssignable (target : Operand)
  | incrementLiteral (literal : Operand) (name : String)
  | voidValue (call : Call)
  | noValue (instr : Instr)
  | arrayLengthArgument
  | notInstantiable (caller : Operand)
  | noMethodName (call : Call)
  | classAsValue (name : String)
  | noMembers (operand : Operand)
deriving DecidableEq, Repr, Inhabited

/-- A fault in words. -/
def Fault.message : Fault → String
  | fieldAsLocal name => "field '" ++ name ++ "' used as a local variable"
  | unboundVariable name => "no variable table entry for '" ++ name ++ "'"
  | notAssignable target => "cannot assign to '" ++ target.text ++ "'"
  | incrementLiteral literal name =>
    "non-integer literal '" ++ literal.text ++ "' in increment of '" ++ name ++ "'"
  | voidValue call => "void call '" ++ call.text ++ "' used as a value"
  | noValue instr => "'" ++ instr.text ++ "' does not produce a value"
  | arrayLengthArgument => "array allocation needs one size"
  | notInstantiable caller => "cannot instantiate '" ++ caller.text ++ "'"
  | noMethodName call => "call '" ++ call.text ++ "' names no method"
  | classAsValue name => "class reference '" ++ name ++ "' cannot be loaded"
  | noMembers operand =>
    "'" ++ operand.text ++ "' of type " ++ operand.type.text ++ " has no members"

/-- A line, and the change of the count of operands on the stack at it. -/
structure Step where
  line : Line
  effect : Int
deriving DecidableEq, Repr, Inhabited

namespace Step

/-- An operation with its effect. -/
def op (o : Op) (effect : Int) : Step := ⟨.op o, effect⟩

/-- A label, at which nothing changes. -/
def label (name : String) : Step := ⟨.label name, 0⟩

/-- The largest count of operands on the way through the steps, from a count on. -/
def highest : Int → List Step → Int
  | count, [] => count
  | count, s :: ss => max count (highest (count + s.effect) ss)

/-- The stack limit of the steps, run from an empty stack. -/
def limit (steps : List Step) : Nat := (highest 0 steps).toNat

end Step

/-- Where code is emitted: the class, the variables of the method, and whether increments are
fused. -/
structure Emitter where
  unit : Ollir.Class
  vars : VarTable
  fusion : Bool

/-- A computation that draws numbers for the labels of comparisons. -/
abbrev Emit := StateT Nat (Except Fault)

/-- The code of a comparison of the two integers on the stack, which leaves one or zero. -/
def comparison : Emit (List Step) := do
  let number ← get
  set (number + 1)
  let trueLabel := "cmp_true_" ++ toString number
  let endLabel := "cmp_end_" ++ toString number
  return [.op (.jumpIf .less trueLabel) (-2), .op (.const 0) 1, .op (.goto endLabel) 0,
    ⟨.label trueLabel, -1⟩, .op (.const 1) 1, .label endLabel]

/-- The operation on two integers for an operator, none for a comparison. -/
def arithOf : BinOp → Option Arith
  | .add => some .add
  | .sub => some .sub
  | .mul => some .mul
  | .div => some .div
  | .and => some .and
  | .or => some .or
  | .less => none

namespace Emitter

/-- The slot of a variable. -/
def slot (e : Emitter) (name : String) : Except Fault Nat :=
  match e.vars.get? name with
  | some b => if b.scope = .field then .error (.fieldAsLocal name) else .ok b.slot
  | none => .error (.unboundVariable name)

/-- The path of the class whose members are reached through an operand. -/
def owner (e : Emitter) (o : Operand) : Except Fault String :=
  match o.type with
  | .named className => .ok (e.unit.classPath className)
  | _ => .error (.noMembers o)

/-- The code that pushes an operand. -/
def load (e : Emitter) : Operand → Except Fault (List Step)
  | .literal value _ => .ok [.op (.const value) 1]
  | .var name type => do
    let slot ← e.slot name
    return [.op (.load (.ofTy type) slot) 1]
  | .element name index type => do
    let slot ← e.slot name
    let position ← e.load index
    return .op (.load .reference slot) 1 :: position ++ [.op (.arrayLoad (.ofTy type)) (-1)]
  | .receiver _ => .ok [.op (.load .reference 0) 1]
  | .classRef name => .error (.classAsValue name)

/-- The code that pushes operands, the first one first. -/
def loads (e : Emitter) : List Operand → Except Fault (List Step)
  | [] => .ok []
  | o :: os => do
    let first ← e.load o
    let rest ← e.loads os
    return first ++ rest

/-- The code of a call of a method by name. -/
def invoke (e : Emitter) (c : Call) (isStatic : Bool) : Except Fault (List Step) := do
  let caller ← if isStatic then pure [] else e.load c.caller
  let args ← e.loads c.args
  match c.method with
  | none => .error (.noMethodName c)
  | some method => do
    let owner ← e.owner c.caller
    let descriptor := MethodDescriptor.ofTys e.unit (c.args.map Operand.type) c.returns
    let how : Invocation := if isStatic then .static else .virtual
    let popped : Int := c.args.length + (if isStatic then 0 else 1)
    let pushed : Int := if c.returns = .void then 0 else 1
    return caller ++ args ++ [.op (.invoke how owner method descriptor) (pushed - popped)]

/-- The code of a call, which leaves its result, if any, on the stack. -/
def call (e : Emitter) (c : Call) : Except Fault (List Step) :=
  match c.kind with
  | .new =>
    if c.isNewArray then
      match c.args with
      | [length] => do return (← e.load length) ++ [.op .newIntArray 0]
      | _ => .error .arrayLengthArgument
    else
      match c.caller with
      | .classRef name => .ok [.op (.new (e.unit.classPath name)) 1]
      | caller => .error (.notInstantiable caller)
  | .arrayLength => do return (← e.load c.caller) ++ [.op .arrayLength 0]
  | .special => do
    let object ← e.load c.caller
    let owner ← e.owner c.caller
    return object ++ [.op (.invoke .special owner "<init>" ⟨[], .void⟩) (-1)]
  | .virtual =>
    e.invoke c (match c.caller with
      | .classRef _ => true
      | _ => false)
  | .static => e.invoke c true

/-- The code of an instruction that leaves one value on the stack. -/
def value (e : Emitter) : Instr → Emit (List Step)
  | .single o => e.load o
  | .binary op left right _ => do
    let x ← e.load left
    let y ← e.load right
    match arithOf op with
    | some a => return x ++ y ++ [.op (.arith a) (-1)]
    | none => return x ++ y ++ (← comparison)
  | .not o _ => do return (← e.load o) ++ [.op (.const 1) 1, .op (.arith .xor) (-1)]
  | .call c => if c.returns = .void then throw (.voidValue c) else e.call c
  | .getField object field type => do
    let code ← e.load object
    let owner ← e.owner object
    return code ++ [.op (.getField owner field (.ofTy e.unit type)) 0]
  | i => throw (.noValue i)

/-- The literal by which an assignment to the variable changes it, and whether it is taken away. -/
def stepOf (name : String) (op : BinOp) (left right : Operand) : Option (Operand × Bool) :=
  let same (o : Operand) : Bool := o == .var name .int32
  match op with
  | .add =>
    if same left then some (right, false) else if same right then some (left, false) else none
  | .sub => if same left then some (right, true) else none
  | _ => none

/-- A literal, negated if it is taken away, where the result is a step an increment can make. -/
def fittingStep (value : Int32) (negated : Bool) : Option Int32 :=
  let n := if negated then -value.toInt else value.toInt
  if -128 ≤ n ∧ n ≤ 127 then some (Int32.ofInt n) else none

/-- The slot and step of an assignment that is an increment. -/
def increment? (e : Emitter) (target : Operand) (value : Instr) :
    Except Fault (Option (Nat × Int32)) :=
  match target, value with
  | .var name .int32, .binary op left right _ =>
    match stepOf name op left right with
    | some (.literal k type, negated) =>
      if type = .int32 then
        match fittingStep k negated with
        | some step => do return some (← e.slot name, step)
        | none => .ok none
      else .error (.incrementLiteral (.literal k type) name)
    | _ => .ok none
  | _, _ => .ok none

/-- The code of an assignment that computes its value and stores it. -/
def plainAssign (e : Emitter) (target : Operand) (value : Instr) : Emit (List Step) :=
  match target with
  | .var name type => do
    let slot ← e.slot name
    return (← e.value value) ++ [.op (.store (.ofTy type) slot) (-1)]
  | .element name index type => do
    let slot ← e.slot name
    let position ← e.load index
    let code ← e.value value
    return .op (.load .reference slot) 1 :: position ++ code
      ++ [.op (.arrayStore (.ofTy type)) (-3)]
  | target => throw (.notAssignable target)

/-- The code of an assignment. -/
def assign (e : Emitter) (target : Operand) (value : Instr) : Emit (List Step) := do
  match (← if e.fusion then e.increment? target value else pure none) with
  | some (slot, step) => return [.op (.increment slot step) 0]
  | none => e.plainAssign target value

/-- The code of a jump to a label if a test holds. -/
def branch (e : Emitter) (test : Instr) (label : String) : Emit (List Step) :=
  match test with
  | .binary .less left right _ => do
    let x ← e.load left
    let y ← e.load right
    return x ++ y ++ [.op (.jumpIf .less label) (-2)]
  | .not o _ => do return (← e.load o) ++ [.op (.jumpIf .zero label) (-1)]
  | test => do return (← e.value test) ++ [.op (.jumpIf .nonzero label) (-1)]

/-- The code of an instruction, which leaves the stack as it was. -/
def instr (e : Emitter) : Instr → Emit (List Step)
  | .assign target _ value => e.assign target value
  | .call c => do
    let code ← e.call c
    return if c.returns = .void then code else code ++ [.op .pop (-1)]
  | .putField object field type value => do
    let x ← e.load object
    let y ← e.load value
    let owner ← e.owner object
    return x ++ y ++ [.op (.putField owner field (.ofTy e.unit type)) (-2)]
  | .branch test label => e.branch test label
  | .goto label => return [.op (.goto label) 0]
  | .ret type (some value) => do return (← e.load value) ++ [.op (.ret (.ofTy type)) (-1)]
  | .ret _ none => return [.op (.ret .void) 0]
  | i => do return (← e.value i) ++ [.op .pop (-1)]

/-- The code of a label or instruction. -/
def item (e : Emitter) : Ollir.Item → Emit (List Step)
  | .label name => return [.label name]
  | .instr i => e.instr i

/-- The code of labels and instructions, one after the other. -/
def items (e : Emitter) : List Ollir.Item → Emit (List Step)
  | [] => return []
  | i :: is => do
    let first ← e.item i
    let rest ← e.items is
    return first ++ rest

end Emitter

/-- The assembly of a method of a class. -/
def emitMethod (unit : Ollir.Class) (fusion : Bool) (m : Ollir.Method) : Emit Method := do
  let steps ← Emitter.items ⟨unit, m.vars, fusion⟩ m.listing
  return { name := m.name, isPublic := m.isPublic, isStatic := m.isStatic,
           descriptor := .ofTys unit (m.params.map Operand.type) m.returns,
           stackLimit := Step.limit steps,
           localsLimit := max m.vars.frameSize (if m.isStatic then 0 else 1),
           lines := steps.map Step.line }

/-- The assembly of methods of a class. -/
def emitMethods (unit : Ollir.Class) (fusion : Bool) : List Ollir.Method → Emit (List Method)
  | [] => return []
  | m :: ms => do
    let first ← emitMethod unit fusion m
    let rest ← emitMethods unit fusion ms
    return first :: rest

/-- The assembly of a class, whose methods have variable tables. -/
def emitClass (fusion : Bool) (unit : Ollir.Class) : Except Fault Class := do
  let methods ← (emitMethods unit fusion unit.methods).run' 0
  return { name := unit.name, superPath := unit.superPath,
           fields := unit.fields.map fun f ↦ ⟨f.access, f.name, .ofTy unit f.type⟩, methods }

end Jmm.Jasmin
