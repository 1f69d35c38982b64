import Jmm.Program
import Mathlib.Logic.Function.Basic
import Mathlib.Logic.Relation

/-!
# What running code can do

Programs, OLLIR and assembly are given their meaning over one set of primitive effects, so that the
three can be compared by comparing states.  This file holds those effects.

* `Val` is a value.  Values carry no type: a truth value is the integer one or zero, an array may
  hold anything, and a variable may hold anything.
* `Shared` is the part of a state that is not local to a method: the heap of arrays and fields, and
  the `trace` of everything that was allocated, read, written or called so far.
* `World` answers calls.  A call may change the heap in any way and give any value or throw; the
  answer may depend on the whole trace, so nothing ties one answer to another.
* `Eval` is a computation over `Shared`.  It gives a value, raises an exception, or is undefined:
  the last is the case for an operation on values it does not apply to, such as a sum of
  references, and never for an exception of the machine.
-/

set_option autoImplicit false

namespace Jmm.Semantics

/-! ## Values, events and states -/

/-- A value. -/
inductive Val where
  | int (n : Int32)
  /-- An object or array, by its address. -/
  | ref (address : Nat)
  | null
deriving DecidableEq, Repr, Inhabited

/-- A truth value. -/
def Val.ofBool (b : Bool) : Val := .int (if b then 1 else 0)

/-- The exceptions of the machine, and those that come out of calls. -/
inductive Exn where
  | divisionByZero
  | indexOutOfBounds
  | negativeArraySize
  | nullReference
  | thrown (v : Val)
deriving DecidableEq, Repr, Inhabited

/-- What a method is called on: an object, or a class. -/
inductive Target where
  | object (v : Val)
  | static (path : String)
deriving DecidableEq, Repr, Inhabited

/-- Something that others can observe. -/
inductive Event where
  | call (target : Target) (method : String) (args : List Val)
  | newArray (length : Int32)
  | newObject (path : String)
  | arrayLoad (array position : Nat)
  | arrayStore (array position : Nat) (value : Val)
  | arrayLength (array : Nat)
  | getField (object : Nat) (field : String)
  | putField (object : Nat) (field : String) (value : Val)
deriving DecidableEq, Repr, Inhabited

/-- The arrays and objects there are.  Addresses from `next` on are free. -/
structure Heap where
  next : Nat
  arrays : Nat → Option (List Val)
  fields : Nat → String → Val

instance : Inhabited Heap := ⟨⟨0, fun _ ↦ none, fun _ _ ↦ .null⟩⟩

/-- The heap with other elements in an array. -/
def Heap.setArray (h : Heap) (a : Nat) (vs : List Val) : Heap :=
  { h with arrays := Function.update h.arrays a (some vs) }

/-- The heap with other fields in an object. -/
def Heap.setFields (h : Heap) (a : Nat) (fs : String → Val) : Heap :=
  { h with fields := Function.update h.fields a fs }

/-- The part of a state that methods share. -/
structure Shared where
  heap : Heap
  /-- Everything that happened so far, the latest event last. -/
  trace : List Event
deriving Inhabited

/-- The answers to calls: the value or exception a call gives and the heap after it, from the trace,
which ends in the call, and the heap before it. -/
abbrev World := List Event → Heap → Except Exn Val × Heap

/-- The values of the variables of a method. -/
abbrev Env := String → Val

/-- The variables after one of them is set. -/
def Env.set (env : Env) (x : String) (v : Val) : Env := fun y ↦ if y = x then v else env y

@[simp] theorem Env.set_same (env : Env) (x : String) (v : Val) : env.set x v x = v := if_pos rfl

theorem Env.set_of_ne (env : Env) {x y : String} (v : Val) (h : y ≠ x) : env.set x v y = env y :=
  if_neg h

/-- What does not change while a method runs: the answers to calls, the paths of classes, and the
receiver. -/
structure Context where
  world : World
  path : String → String
  self : Val

/-! ## Computations -/

/-- How a computation ends. -/
inductive Outcome (α : Type) where
  | ok (a : α) (s : Shared)
  | raised (x : Exn) (s : Shared)
  | undefined

/-- A computation over the shared state. -/
def Eval (α : Type) : Type := Shared → Outcome α

namespace Eval

variable {α β : Type}

instance : Monad Eval where
  pure a s := .ok a s
  bind x f s :=
    match x s with
    | .ok a s' => f a s'
    | .raised e s' => .raised e s'
    | .undefined => .undefined

@[simp] theorem pure_apply (a : α) (s : Shared) : (pure a : Eval α) s = .ok a s := rfl

theorem bind_apply (x : Eval α) (f : α → Eval β) (s : Shared) :
    (x >>= f) s
      = match x s with
        | .ok a s' => f a s'
        | .raised e s' => .raised e s'
        | .undefined => .undefined := rfl

theorem bind_of_ok {x : Eval α} {s s' : Shared} {a : α} (h : x s = .ok a s') (f : α → Eval β) :
    (x >>= f) s = f a s' := by
  rw [bind_apply, h]

theorem bind_of_raised {x : Eval α} {s s' : Shared} {e : Exn} (h : x s = .raised e s')
    (f : α → Eval β) : (x >>= f) s = .raised e s' := by
  rw [bind_apply, h]

theorem bind_of_undefined {x : Eval α} {s : Shared} (h : x s = .undefined) (f : α → Eval β) :
    (x >>= f) s = .undefined := by
  rw [bind_apply, h]

/-- A value comes out of both parts of a computation, one after the other. -/
theorem bind_eq_ok {x : Eval α} {f : α → Eval β} {s s' : Shared} {b : β}
    (h : (x >>= f) s = .ok b s') : ∃ a s₁, x s = .ok a s₁ ∧ f a s₁ = .ok b s' := by
  rw [bind_apply] at h
  cases hx : x s with
  | ok a s₁ =>
    rw [hx] at h
    exact ⟨a, s₁, rfl, h⟩
  | raised e s₁ =>
    rw [hx] at h
    exact nomatch h
  | undefined =>
    rw [hx] at h
    exact nomatch h

theorem bind_pure_apply (x : Eval α) (s : Shared) : (x >>= pure) s = x s := by
  rw [bind_apply]
  cases x s <;> rfl

instance : LawfulMonad Eval :=
  LawfulMonad.mk' Eval (fun x ↦ funext fun s ↦ bind_pure_apply x s) (fun _ _ ↦ rfl)
    (fun x f g ↦ by
      funext s
      rw [bind_apply, bind_apply, bind_apply]
      cases x s <;> rfl)

/-- No meaning at all. -/
def undefined : Eval α := fun _ ↦ .undefined

@[simp] theorem undefined_apply (s : Shared) : (undefined : Eval α) s = .undefined := rfl

@[simp] theorem undefined_bind (f : α → Eval β) : (undefined : Eval α) >>= f = undefined := rfl

theorem undefined_ne_pure (a : α) : (undefined : Eval α) ≠ pure a :=
  fun h ↦ nomatch congrFun h default

/-- The end of a computation by an exception. -/
def raise (x : Exn) : Eval α := fun s ↦ .raised x s

/-- An event at the end of the trace. -/
def record (e : Event) : Eval Unit := fun s ↦ .ok () ⟨s.heap, s.trace ++ [e]⟩

/-- The heap as it is. -/
def heap : Eval Heap := fun s ↦ .ok s.heap s

/-- A new heap. -/
def setHeap (h : Heap) : Eval Unit := fun s ↦ .ok () ⟨h, s.trace⟩

end Eval

/-! ## Primitive effects -/

open Eval

/-- The free address, at which `place` puts something. -/
def allocate (place : Heap → Nat → Heap) : Eval Val := do
  let h ← heap
  setHeap { place h h.next with next := h.next + 1 }
  return .ref h.next

/-- A new array of zeros. -/
def newArray : Val → Eval Val
  | .int n => do
    record (.newArray n)
    if n < 0 then raise .negativeArraySize
    else allocate fun h a ↦ h.setArray a (List.replicate n.toInt.toNat (.int 0))
  | _ => undefined

/-- A new object of the class of a path.  What its fields hold before it is constructed is left
open: it is what the heap happens to have at the address. -/
def newObject (path : String) : Eval Val := do
  record (.newObject path)
  allocate fun h _ ↦ h

/-- The address of an object or array, which must not be null. -/
def address : Val → Eval Nat
  | .ref a => pure a
  | .null => raise .nullReference
  | .int _ => undefined

/-- The elements of the array at an address. -/
def elements (a : Nat) : Eval (List Val) := do
  match (← heap).arrays a with
  | some vs => pure vs
  | none => undefined

/-- A value as a position in a list of the given length. -/
def position (length : Nat) : Val → Eval Nat
  | .int n =>
    if 0 ≤ n.toInt ∧ n.toInt < length then pure n.toInt.toNat else raise .indexOutOfBounds
  | _ => undefined

/-- An element of an array. -/
def arrayLoad (array index : Val) : Eval Val := do
  let a ← address array
  let vs ← elements a
  let i ← position vs.length index
  record (.arrayLoad a i)
  return vs.getD i .null

/-- The change of an element of an array. -/
def arrayStore (array index value : Val) : Eval Unit := do
  let a ← address array
  let vs ← elements a
  let i ← position vs.length index
  record (.arrayStore a i value)
  setHeap ((← heap).setArray a (vs.set i value))

/-- The length of an array. -/
def arrayLength (array : Val) : Eval Val := do
  let a ← address array
  let vs ← elements a
  record (.arrayLength a)
  return .int (Int32.ofNat vs.length)

/-- A field of an object. -/
def getField (object : Val) (field : String) : Eval Val := do
  let a ← address object
  record (.getField a field)
  return (← heap).fields a field

/-- The change of a field of an object. -/
def putField (object : Val) (field : String) (value : Val) : Eval Unit := do
  let a ← address object
  record (.putField a field value)
  let h ← heap
  setHeap (h.setFields a (Function.update (h.fields a) field value))

/-- A call, answered by the world. -/
def invoke (w : World) (target : Target) (method : String) (args : List Val) : Eval Val := do
  record (.call target method args)
  fun s ↦
    match w s.trace s.heap with
    | (.ok v, h) => .ok v ⟨h, s.trace⟩
    | (.error x, h) => .raised x ⟨h, s.trace⟩

/-- The name of constructors. -/
def constructorName : String := "<init>"

/-- A value as a truth value. -/
def truth : Val → Eval Bool
  | .int n => if n = 0 then pure false else if n = 1 then pure true else undefined
  | _ => undefined

/-- The other truth value. -/
def negate (v : Val) : Eval Val := do return .ofBool (!(← truth v))

/-- An operation on two integers.  Sums, differences and products wrap around, a quotient is rounded
towards zero, and `&&` and `||` work bit by bit. -/
def operate (op : BinOp) : Val → Val → Eval Val
  | .int a, .int b =>
    match op with
    | .add => pure (.int (a + b))
    | .sub => pure (.int (a - b))
    | .mul => pure (.int (a * b))
    | .div => if b = 0 then raise .divisionByZero else pure (.int (a / b))
    | .less => pure (.ofBool (a < b))
    | .and => pure (.int (a &&& b))
    | .or => pure (.int (a ||| b))
  | _, _ => undefined

@[simp] theorem truth_ofBool (b : Bool) : truth (.ofBool b) = pure b := by cases b <;> rfl

/-- A value that is no truth value has no meaning as one. -/
theorem eq_ofBool_or_undefined (v : Val) : (∃ b, v = .ofBool b) ∨ truth v = undefined := by
  cases v with
  | int n =>
    by_cases hzero : n = 0
    · exact .inl ⟨false, hzero ▸ rfl⟩
    · by_cases hone : n = 1
      · exact .inl ⟨true, hone ▸ rfl⟩
      · exact .inr (by rw [truth, if_neg hzero, if_neg hone])
  | _ => exact .inr rfl

end Jmm.Semantics
