import Jmm.Jasmin.Descriptor

/-!
# Operations of the machine

The operations that assembly is made of, chosen by what they do; their text picks the mnemonic.
Constants and the first four slots have short forms.  A line of assembly is an operation or a
label.
-/

set_option autoImplicit false

namespace Jmm.Jasmin

/-- The two families of loads and stores. -/
inductive Family where
  | int
  | reference
deriving DecidableEq, Repr, Inhabited

/-- The family for values of a type. -/
def Family.ofTy (t : Ollir.Ty) : Family := if t.isReference then .reference else .int

/-- The letter mnemonics of a family start with. -/
def Family.letter : Family → String
  | int => "i"
  | reference => "a"

/-- The kinds of array elements that have operations of their own. -/
inductive ElementKind where
  | int
  | boolean
  | reference
deriving DecidableEq, Repr, Inhabited

/-- The kind of elements of a type. -/
def ElementKind.ofTy (t : Ollir.Ty) : ElementKind :=
  if t = .boolean then .boolean else if t.isReference then .reference else .int

/-- The letter mnemonics of a kind of elements start with. -/
def ElementKind.letter : ElementKind → String
  | int => "i"
  | boolean => "b"
  | reference => "a"

/-- The kinds of return. -/
inductive ReturnKind where
  | void
  | int
  | reference
deriving DecidableEq, Repr, Inhabited

/-- The kind of return for values of a type. -/
def ReturnKind.ofTy (t : Ollir.Ty) : ReturnKind :=
  if t = .void then .void else if t.isReference then .reference else .int

/-- The mnemonic of a kind of return. -/
def ReturnKind.mnemonic : ReturnKind → String
  | void => "return"
  | int => "ireturn"
  | reference => "areturn"

/-- The operations on two integers. -/
inductive Arith where
  | add
  | sub
  | mul
  | div
  | and
  | or
  | xor
deriving DecidableEq, Repr, Inhabited

/-- The mnemonic of an operation on two integers. -/
def Arith.mnemonic : Arith → String
  | add => "iadd"
  | sub => "isub"
  | mul => "imul"
  | div => "idiv"
  | and => "iand"
  | or => "ior"
  | xor => "ixor"

/-- The conditions of a jump: the first of two integers is less than the second, an integer is
zero, an integer is not zero. -/
inductive Test where
  | less
  | zero
  | nonzero
deriving DecidableEq, Repr, Inhabited

/-- The mnemonic of a jump on a condition. -/
def Test.mnemonic : Test → String
  | less => "if_icmplt"
  | zero => "ifeq"
  | nonzero => "ifne"

/-- The ways to call a method. -/
inductive Invocation where
  | virtual
  | static
  | special
deriving DecidableEq, Repr, Inhabited

/-- The mnemonic of a way to call a method. -/
def Invocation.mnemonic : Invocation → String
  | virtual => "invokevirtual"
  | static => "invokestatic"
  | special => "invokespecial"

/-- An operation. -/
inductive Op where
  | const (value : Int32)
  | load (family : Family) (slot : Nat)
  | store (family : Family) (slot : Nat)
  | arrayLoad (kind : ElementKind)
  | arrayStore (kind : ElementKind)
  /-- Add a step to the integer in a slot. -/
  | increment (slot : Nat) (step : Int32)
  | arith (op : Arith)
  | jumpIf (test : Test) (label : String)
  | goto (label : String)
  | new (path : String)
  | newIntArray
  | arrayLength
  | invoke (how : Invocation) (owner method : String) (descriptor : MethodDescriptor)
  | getField (owner field : String) (descriptor : Descriptor)
  | putField (owner field : String) (descriptor : Descriptor)
  | pop
  | ret (kind : ReturnKind)
deriving DecidableEq, Repr, Inhabited

namespace Op

/-- The shortest operation that pushes a constant, by the range its value is in. -/
def constText (value : Int32) : String :=
  let n := value.toInt
  if n = -1 then "iconst_m1"
  else if 0 ≤ n ∧ n ≤ 5 then "iconst_" ++ toString n
  else if -128 ≤ n ∧ n ≤ 127 then "bipush " ++ toString n
  else if -32768 ≤ n ∧ n ≤ 32767 then "sipush " ++ toString n
  else "ldc " ++ toString n

/-- A mnemonic with a slot, which is part of the mnemonic for the first four slots. -/
def slotText (mnemonic : String) (slot : Nat) : String :=
  if slot < 4 then mnemonic ++ "_" ++ toString slot else mnemonic ++ " " ++ toString slot

/-- An operation as text. -/
def text : Op → String
  | const value => constText value
  | load family slot => slotText (family.letter ++ "load") slot
  | store family slot => slotText (family.letter ++ "store") slot
  | arrayLoad kind => kind.letter ++ "aload"
  | arrayStore kind => kind.letter ++ "astore"
  | increment slot step => "iinc " ++ toString slot ++ " " ++ Text.int32Text step
  | arith op => op.mnemonic
  | jumpIf test label => test.mnemonic ++ " " ++ label
  | goto label => "goto " ++ label
  | new path => "new " ++ path
  | newIntArray => "newarray int"
  | arrayLength => "arraylength"
  | invoke how owner method d => how.mnemonic ++ " " ++ owner ++ "/" ++ method ++ d.text
  | getField owner field d => "getfield " ++ owner ++ "/" ++ field ++ " " ++ d.text
  | putField owner field d => "putfield " ++ owner ++ "/" ++ field ++ " " ++ d.text
  | pop => "pop"
  | ret kind => kind.mnemonic

end Op

/-- A line of assembly. -/
inductive Line where
  | label (name : String)
  | op (o : Op)
deriving DecidableEq, Repr, Inhabited

/-- A line as text; operations are indented by three blanks. -/
def Line.text : Line → String
  | label name => name ++ ":\n"
  | op o => "   " ++ o.text ++ "\n"

end Jmm.Jasmin
