import Jmm.Ollir.Class
import Jmm.Ollir.Names
import Jmm.Typing.Analysis

/-!
# Lowering

The OLLIR code of the methods of a class.  An expression lowers to code that has to run first and
an instruction that then gives its value; what the instruction may be depends on the `Use` that is
made of the value.  Operations stay as they are where an instruction may stand, in a condition or
on the right of an assignment, and are stored in a temporary everywhere else.

* `Lowerer.expr` lowers expressions, `Lowerer.stmt` statements, `Lowerer.method` methods and
  `Analysis.lower` the class.
* `&&` and `||` become branches, so that the right operand runs only if it is needed.
* In a conditional the branch that is skipped on success comes first; the condition of a loop is
  computed once, before the loop, and tested again at the end of the body.
* The arguments of a call to a method whose one parameter is a vararg are packed into an array.
-/

set_option autoImplicit false

namespace Jmm.Ollir

/-- The use made of the value of an expression. -/
inductive Use where
  /-- Operand of another expression, argument or returned value. -/
  | operand
  /-- Operand of a type that is known from where it goes. -/
  | expected (type : Ty)
  /-- Condition of a conditional or loop. -/
  | condition
  /-- None: the expression is a statement. -/
  | statement
  /-- Right-hand side of an assignment to a target of the type. -/
  | assign (type : Ty)
deriving DecidableEq, Repr, Inhabited

namespace Use

/-- Whether an operation may stay as it is. -/
def isInline : Use → Bool
  | condition => true
  | assign _ => true
  | _ => false

/-- The use made of an expression inside parentheses, which is never inline. -/
def inParens : Use → Use
  | assign type => expected type
  | expected type => expected type
  | condition => expected .boolean
  | operand => operand
  | statement => statement

/-- The type a call without a type of its own takes from the use of its value. -/
def callType : Use → Ty
  | assign type => type
  | expected type => type
  | condition => .boolean
  | operand => .int32
  | statement => .void

end Use

/-- A lowered expression: code that has to run first, and the value. -/
structure Lowered where
  code : List Item
  value : Instr
deriving DecidableEq, Repr, Inhabited

/-- An operand that needs no code. -/
def Lowered.ofOperand (o : Operand) : Lowered := ⟨[], .single o⟩

/-- An assignment to a variable. -/
def assignVar (name : String) (type : Ty) (value : Instr) : Item :=
  .instr (.assign (.var name type) type value)

/-! ## Values as operands -/

/-- A value as an operand, and the code that stores it in a temporary if it is none yet. -/
def materialize : Instr → Draw (List Item × Operand)
  | .single o => pure ([], o)
  | value => do
    let temp ← draw .temp
    let type := value.resultType
    return ([assignVar temp type value], .var temp type)

/-- The value of a lowered expression as an operand, and all code before it. -/
def asOperand (e : Draw Lowered) : Draw (List Item × Operand) := do
  let e ← e
  let (code, o) ← materialize e.value
  return (e.code ++ code, o)

/-- The value of a lowered expression as a variable, and all code before it. -/
def asVar (e : Draw Lowered) : Draw (List Item × String × Ty) := do
  let (code, o) ← asOperand e
  match o with
  | .var name type => return (code, name, type)
  | o => do
    let temp ← draw .temp
    return (code ++ [assignVar temp o.type (.single o)], temp, o.type)

/-- An instruction stored in a temporary, as a lowered expression. -/
def stored (code : List Item) (value : Instr) : Draw Lowered := do
  let (more, o) ← materialize value
  return ⟨code ++ more, .single o⟩

/-- The two operands of `&&`, or of `||` if `isOr` is set, put together by branches. -/
def shortCircuit (left right : Lowered) (type : Ty) (isOr : Bool) : Draw Lowered := do
  let trueLabel ← draw .trueLabel
  let endLabel ← draw .endLabel
  let result ← draw .temp
  let set (value : Instr) : Item := assignVar result type value
  let decided : List Item := [set (.single (Operand.bool isOr))]
  let undecided : List Item := right.code ++ [set right.value]
  let (onFalse, onTrue) := if isOr then (undecided, decided) else (decided, undecided)
  return ⟨left.code ++ [.instr (.branch left.value trueLabel)] ++ onFalse
    ++ [.instr (.goto endLabel), .label trueLabel] ++ onTrue ++ [.label endLabel],
    .single (.var result type)⟩

/-- A new array of the given length and element type, filled by the code that `fill` gives for the
variable the array is in. -/
def packed (length : Nat) (element : Ty) (fill : String → Draw (List Item)) : Draw Lowered := do
  let type := Ty.array element
  let temp ← draw .temp
  let allocation :=
    assignVar temp type (.call (Call.newArray (Operand.int (Int32.ofNat length)) type))
  if length = 0 then return ⟨[allocation], .single (.var temp type)⟩
  else do
    let name ← draw .varargsArray
    let stores ← fill name
    return ⟨[allocation, assignVar name type (.single (.var temp type))] ++ stores,
      .single (.var name type)⟩

/-! ## Expressions -/

/-- A method whose body is lowered. -/
structure Lowerer where
  table : SymbolTable
  scopes : Scopes
  decl : MethodDecl

namespace Lowerer

/-- The place from which names in the body are seen. -/
def site (l : Lowerer) : Site := ⟨l.table, l.scopes, l.decl.name⟩

/-- The OLLIR type of an expression. -/
def typeOf (l : Lowerer) (e : Expr) : Ty := Ty.ofBinding (l.site.typeOf e) (l.site.isVarargIdent e)

/-- The receiver of the method. -/
def receiver (l : Lowerer) : Operand := .receiver l.table.className

/-- A name used as a value: an import stands for its class, a field is read. -/
def ident (l : Lowerer) (name : String) : Draw Lowered :=
  if l.table.isImport name then pure (.ofOperand (.classRef name))
  else
    let type := Ty.ofBinding (l.site.identType name) (l.scopes.isVararg name l.decl.name)
    if l.scopes.isField name l.decl.name then stored [] (.getField l.receiver name type)
    else pure (.ofOperand (.var name type))

/-- The types of the parameters of a method called on a receiver, each with whether it is a vararg;
none unless the receiver has the type of the class. -/
def formals (l : Lowerer) (receiver : Expr) (method : String) : List (Ty × Bool) :=
  if l.site.typeOf receiver = .named l.table.className then
    match l.table.method? method with
    | some s => s.params.map fun p ↦ (Ty.ofBinding p.type p.isVararg, p.isVararg)
    | none => []
  else []

/-- The element type of the array that arguments are packed into: there is one if the only
parameter is a vararg, unless the only argument is an array itself. -/
def packedType? (l : Lowerer) (formals : List (Ty × Bool)) (args : List Expr) : Option Ty :=
  match formals with
  | [(type, true)] =>
    match args with
    | [only] => if (l.typeOf only).isArray then none else some type.elementOrInt
    | _ => some type.elementOrInt
  | _ => none

/-- The use made of the argument at a position: its type is known if it has a parameter, where a
trailing vararg takes all arguments from its place on. -/
def argUse (formals : List (Ty × Bool)) (position : Nat) : Use :=
  match formals[position]?.or (formals.getLast?.filter Prod.snd) with
  | some (type, true) => .expected (type.element?.getD type)
  | some (type, false) => .expected type
  | none => .operand

/-- The type of the result of a call, taken from the use of its value if the call itself has
none. -/
def callType (l : Lowerer) (e : Expr) (use : Use) : Ty :=
  let type := l.typeOf e
  if type = .void then use.callType else type

/-- A call with its operands, for a use. -/
def finishCall (l : Lowerer) (e : Expr) (onImport : Bool) (code : List Item) (caller : Operand)
    (method : String) (args : List Operand) (use : Use) : Draw Lowered :=
  let call : Call :=
    { kind := .virtual, caller, method := some method, args, returns := l.callType e use }
  if use = .statement then
    let call := if onImport then { call with kind := .static, returns := .void } else call
    pure ⟨code, .call call⟩
  else stored code (.call call)

mutual

/-- An expression lowered for a use. -/
def expr (l : Lowerer) : Expr → Use → Draw Lowered
  | .int value _, _ => pure (.ofOperand (Operand.int value))
  | .bool value _, _ => pure (.ofOperand (Operand.bool value))
  | .ident name _, _ => l.ident name
  | .self _, _ => pure (.ofOperand l.receiver)
  | .paren inner _, use => l.expr inner use.inParens
  | .arrayLit elements _, _ =>
    packed elements.length .int32 fun name ↦ l.stores name .int32 0 elements
  | .not operand _, _ => do
    let (code, o) ← asOperand (l.expr operand .operand)
    return ⟨code, .not o .boolean⟩
  | .index array position _, use => do
    let (arrayCode, name, type) ← asVar (l.expr array .operand)
    let (positionCode, index) ← asOperand (l.expr position .operand)
    let code := arrayCode ++ positionCode
    let element := Operand.element name index type.elementOrInt
    match use with
    | .assign _ => return ⟨code, .single element⟩
    | _ => do
      let temp ← draw .temp
      return ⟨code ++ [assignVar temp element.type (.single element)],
        .single (.var temp element.type)⟩
  | .binary op left right span, use => do
    let a ← l.expr left .operand
    let b ← l.expr right .operand
    let type := l.typeOf (.binary op left right span)
    match op with
    | .and => shortCircuit a b type false
    | .or => shortCircuit a b type true
    | op => do
      let (leftCode, x) ← materialize a.value
      let (rightCode, y) ← materialize b.value
      let code := a.code ++ leftCode ++ b.code ++ rightCode
      let operation := Instr.binary op x y type
      if !left.isBinary && !right.isBinary && use.isInline then return ⟨code, operation⟩
      else stored code operation
  | .call receiver method args span, use => do
    let (callerCode, caller) ← asOperand (l.expr receiver .operand)
    let formals := l.formals receiver method
    let (argCode, operands) ←
      match l.packedType? formals args with
      | some element => do
        let (code, o) ←
          asOperand (packed args.length element fun name ↦ l.stores name element 0 args)
        pure (code, [o])
      | none => l.args formals 0 args
    l.finishCall (.call receiver method args span) (l.site.namesImport receiver)
      (callerCode ++ argCode) caller method operands use
  | .newArray _ size _, _ => do
    let (code, o) ← asOperand (l.expr size .operand)
    return ⟨code, .call (Call.newArray o Ty.intArray)⟩
  | .newObject className _, _ => do
    let (code, object) ← materialize (.call (Call.newObject className))
    return ⟨code ++ [.instr (.call (Call.construct object))], .single object⟩
  | .length array _, _ => do
    let (code, name, type) ← asVar (l.expr array .operand)
    stored code (.call (Call.lengthOf (.var name type)))

/-- The code that stores expressions in an array of the given element type, from a position on. -/
def stores (l : Lowerer) (array : String) (element : Ty) : Nat → List Expr → Draw (List Item)
  | _, [] => pure []
  | position, e :: es => do
    let (code, o) ← asOperand (l.expr e (.expected element))
    let target := Operand.element array (Operand.int (Int32.ofNat position)) element
    let rest ← l.stores array element (position + 1) es
    return code ++ .instr (.assign target element (.single o)) :: rest

/-- The arguments of a call from a position on, and the code before them. -/
def args (l : Lowerer) (formals : List (Ty × Bool)) :
    Nat → List Expr → Draw (List Item × List Operand)
  | _, [] => pure ([], [])
  | position, e :: es => do
    let (code, o) ← asOperand (l.expr e (argUse formals position))
    let (rest, os) ← l.args formals (position + 1) es
    return (code ++ rest, o :: os)

end

/-! ## Statements -/

/-- An assignment. -/
def assign (l : Lowerer) (target value : Expr) : Draw (List Item) :=
  match target with
  | .ident name _ =>
    let type := l.typeOf target
    if l.scopes.isField name l.decl.name then do
      let (code, o) ← asOperand (l.expr value (.expected type))
      return code ++ [.instr (.putField l.receiver name type o)]
    else do
      let v ← l.expr value (.assign type)
      return v.code ++ [assignVar name type v.value]
  | .index array position _ => do
    let (arrayCode, name, arrayType) ← asVar (l.expr array .operand)
    let (positionCode, index) ← asOperand (l.expr position .operand)
    let type := arrayType.elementOrInt
    let v ← l.expr value (.assign type)
    return arrayCode ++ positionCode ++ v.code
      ++ [.instr (.assign (.element name index type) type v.value)]
  | _ => do
    let v ← l.expr value .operand
    return v.code

/-- An expression as a statement: of its value only a call is kept. -/
def exprStmt (l : Lowerer) (e : Expr) : Draw (List Item) := do
  let v ← l.expr e .statement
  return if v.value.isCall then v.code ++ [.instr v.value] else v.code

/-- The declared return type. -/
def returnType (l : Lowerer) : Ty := Ty.ofTy (Jmm.Ty.ofTypeName l.decl.returns)

/-- A return statement. -/
def ret (l : Lowerer) : Option Expr → Draw (List Item)
  | none => pure [.instr (.ret l.returnType none)]
  | some e => do
    let (code, o) ← asOperand (l.expr e .operand)
    return code ++ [.instr (.ret l.returnType (some o))]

mutual

/-- A statement. -/
def stmt (l : Lowerer) : Stmt → Draw (List Item)
  | .assign target value _ => l.assign target value
  | .expr e _ => l.exprStmt e
  | .ret value _ => l.ret value
  | .cond test thenBranch elseBranch _ => do
    let bodyLabel ← draw .ifBody
    let endLabel ← draw .endIf
    let c ← l.expr test .condition
    let onFalse ← l.stmts elseBranch
    let onTrue ← l.stmts thenBranch
    return c.code ++ [.instr (.branch c.value bodyLabel)] ++ onFalse
      ++ [.instr (.goto endLabel), .label bodyLabel] ++ onTrue ++ [.label endLabel]
  | .loop test body _ => do
    let c ← l.expr test .condition
    let bodyLabel ← draw .whileBody
    let endLabel ← draw .endWhile
    let code ← l.stmts body
    return c.code
      ++ [.instr (.branch c.value bodyLabel), .instr (.goto endLabel), .label bodyLabel] ++ code
      ++ [.instr (.branch c.value bodyLabel), .label endLabel]

/-- Statements one after the other. -/
def stmts (l : Lowerer) : List Stmt → Draw (List Item)
  | [] => pure []
  | s :: ss => do
    let code ← l.stmt s
    let rest ← l.stmts ss
    return code ++ rest

end

/-! ## Methods and classes -/

/-- The parameters of the method as operands. -/
def params (l : Lowerer) : List Operand :=
  match l.table.method? l.decl.name with
  | some s => s.params.map fun p ↦ .var p.name (Ty.ofBinding p.type p.isVararg)
  | none => []

/-- The method, with a return at its end unless one stands at the top level of its body. -/
def method (l : Lowerer) : Draw Method := do
  let code ← l.stmts l.decl.body
  let start : Method :=
    { name := l.decl.name, isPublic := l.decl.isPublic, isStatic := l.decl.isStatic,
      params := l.params, returns := l.returnType }
  let m := start.extend code
  return if l.decl.hasReturn then m else m.push (.ret .void none)

end Lowerer

/-- The methods of a class, lowered one after the other. -/
def lowerMethods (a : Analysis) : List MethodDecl → Draw (List Method)
  | [] => pure []
  | m :: ms => do
    let first ← Lowerer.method ⟨a.table, a.scopes, m⟩
    let rest ← lowerMethods a ms
    return first :: rest

/-- The fields of a class.  A name that is declared again repeats its first declaration. -/
def fieldsOf (t : SymbolTable) (c : ClassDecl) : List Field :=
  c.fields.filterMap fun d ↦
    (t.field? d.name).map fun f ↦ ⟨f.name, Ty.ofTy f.type, t.isPrivateField f.name⟩

/-- A class lowered by its analysis. -/
def lowerClass (a : Analysis) (c : ClassDecl) : Draw Class := do
  let methods ← lowerMethods a c.methods
  return { name := a.table.className, imports := a.table.imports,
           superclass := a.table.superclass, fields := fieldsOf a.table c, methods }

end Jmm.Ollir
