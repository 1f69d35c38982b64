import Jmm.Ollir.Operand

/-!
# Instructions of OLLIR

An instruction works on operands.  The right-hand side of an assignment and the test of a branch
are instructions of their own, which produce a value where they stand.
-/

set_option autoImplicit false

namespace Jmm.Ollir

/-- The forms of a call. -/
inductive CallKind where
  | virtual
  | static
  | special
  | new
  | arrayLength
deriving DecidableEq, Repr, Inhabited

/-- The keyword of a form of call. -/
def CallKind.keyword : CallKind → String
  | virtual => "invokevirtual"
  | static => "invokestatic"
  | special => "invokespecial"
  | new => "new"
  | arrayLength => "arraylength"

/-- A call, or an instruction written like one.  An array is allocated by `new` on the class named
`array`, with the length as the one argument. -/
structure Call where
  kind : CallKind
  caller : Operand
  method : Option String := none
  args : List Operand := []
  returns : Ty
deriving DecidableEq, Repr, Inhabited

namespace Call

/-- The name under which arrays are allocated. -/
def arrayClass : String := "array"

/-- The allocation of an array of the given type and length. -/
def newArray (length : Operand) (type : Ty) : Call :=
  { kind := .new, caller := .classRef arrayClass, args := [length], returns := type }

/-- The allocation of an object. -/
def newObject (className : String) : Call :=
  { kind := .new, caller := .classRef className, returns := .named className }

/-- The construction of an allocated object. -/
def construct (object : Operand) : Call :=
  { kind := .special, caller := object, method := some "<init>", returns := .void }

/-- The length of an array. -/
def lengthOf (array : Operand) : Call :=
  { kind := .arrayLength, caller := array, returns := .int32 }

/-- Whether the call allocates an array. -/
def isNewArray (c : Call) : Bool := c.kind == .new && c.caller == .classRef arrayClass

/-- The method name between quotes, where the form of the call has one. -/
def methodText (c : Call) : List String :=
  match c.kind, c.method with
  | .new, _ => []
  | .arrayLength, _ => []
  | _, some method => ["\"" ++ method ++ "\""]
  | _, none => []

/-- The arguments, where the form of the call has them. -/
def argTexts (c : Call) : List String :=
  match c.kind with
  | .arrayLength => []
  | _ => c.args.map Operand.text

/-- A call as text. -/
def text (c : Call) : String :=
  c.kind.keyword ++ "(" ++ ", ".intercalate (c.caller.text :: (c.methodText ++ c.argTexts)) ++ ")."
    ++ c.returns.text

end Call

/-- An instruction. -/
inductive Instr where
  | assign (target : Operand) (type : Ty) (value : Instr)
  /-- An operand as a value. -/
  | single (operand : Operand)
  | binary (op : BinOp) (left right : Operand) (type : Ty)
  | not (operand : Operand) (type : Ty)
  | call (c : Call)
  | getField (object : Operand) (field : String) (type : Ty)
  | putField (object : Operand) (field : String) (type : Ty) (value : Operand)
  | branch (test : Instr) (label : String)
  | goto (label : String)
  | ret (type : Ty) (value : Option Operand)
deriving DecidableEq, Repr, Inhabited

namespace Instr

/-- The type of the value an instruction produces, `void` if it produces none. -/
def resultType : Instr → Ty
  | assign _ t _ => t
  | single operand => operand.type
  | binary _ _ _ t => t
  | not _ t => t
  | call c => c.returns
  | getField _ _ t => t
  | putField .. => .void
  | branch .. => .void
  | goto _ => .void
  | ret .. => .void

/-- The operand of an instruction that is nothing else. -/
def operand? : Instr → Option Operand
  | single operand => some operand
  | _ => none

/-- Whether an instruction is a call. -/
def isCall : Instr → Bool
  | call _ => true
  | _ => false

/-- An instruction as text. -/
def text : Instr → String
  | assign target t value => target.text ++ " :=." ++ t.text ++ " " ++ value.text
  | single operand => operand.text
  | binary op left right t => left.text ++ " " ++ op.symbol ++ "." ++ t.text ++ " " ++ right.text
  | not operand t => "!." ++ t.text ++ " " ++ operand.text
  | call c => c.text
  | getField object field t =>
    "getfield(" ++ object.text ++ ", " ++ field ++ "." ++ t.text ++ ")." ++ t.text
  | putField object field t value =>
    "putfield(" ++ object.text ++ ", " ++ field ++ "." ++ t.text ++ ", " ++ value.text ++ ").V"
  | branch test label => "if (" ++ test.text ++ ") goto " ++ label
  | goto label => "goto " ++ label
  | ret t (some value) => "ret." ++ t.text ++ " " ++ value.text
  | ret t none => "ret." ++ t.text

end Instr
end Jmm.Ollir
