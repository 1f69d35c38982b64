import Jmm.Typing.Scopes

/-!
# Type inference

`Site.typeOf` gives every expression a type, seen from inside one method; an expression that makes
no sense has the type `Ty.error`.  Import names come before variables: a name that is both means
the import.
-/

set_option autoImplicit false

namespace Jmm

/-- A place inside a method, from which names are seen. -/
structure Site where
  table : SymbolTable
  scopes : Scopes
  /-- The name of the method. -/
  method : String
deriving DecidableEq, Repr, Inhabited

namespace Site

/-- The type of a name. -/
def identType (s : Site) (name : String) : Ty :=
  if s.table.isImport name then .imported
  else
    match s.scopes.lookup name s.method with
    | some e => e.type
    | none => .error

/-- Whether an expression is a bare name of a vararg parameter. -/
def isVarargIdent (s : Site) (e : Expr) : Bool :=
  match e.identifier? with
  | some name => s.scopes.isVararg name s.method
  | none => false

/-- Whether an expression is a bare name of an import. -/
def namesImport (s : Site) (e : Expr) : Bool :=
  match e.identifier? with
  | some name => s.table.isImport name
  | none => false

/-- The return type of the method. -/
def returnType (s : Site) : Ty := (s.table.returnType? s.method).getD .error

/-- The type of an operation on operands of the given types. -/
def binaryType (op : BinOp) (left right : Ty) : Ty :=
  let same := left = right ∧ left.isArray = false
  match op with
  | .and | .or => if same ∧ left = .boolean then left else .error
  | .less => if same ∧ left ≠ .boolean then .boolean else .error
  | _ => if same ∧ left ≠ .boolean then left else .error

/-- The type of a call, given the type of its receiver and whether the receiver names an import. -/
def callType (s : Site) (receiver : Ty) (onImport : Bool) (method : String) : Ty :=
  match receiver with
  | .named name =>
    if s.table.isImport name then s.returnType
    else if onImport then .void
    else if name = s.table.className then (s.table.returnType? method).getD .error
    else .error
  | _ => if onImport then .void else .error

/-- The type of an expression. -/
def typeOf (s : Site) : Expr → Ty
  | .int _ _ => .int
  | .bool _ _ => .boolean
  | .ident name _ => s.identType name
  | .self _ => .named s.table.className
  | .paren inner _ => s.typeOf inner
  | .arrayLit elements _ => if elements.all Expr.isIntLiteral then .arrayInit else .error
  | .not operand _ => if s.typeOf operand = .boolean then .boolean else .error
  | .index array position _ =>
    if s.typeOf position = .int then
      match (s.typeOf array).element? with
      | some element => element
      | none => if s.isVarargIdent array then s.typeOf array else .error
    else .error
  | .binary op left right _ => binaryType op (s.typeOf left) (s.typeOf right)
  | .call receiver method _ _ =>
    s.callType (s.typeOf receiver) (s.namesImport receiver) method
  | .newArray _ _ _ => .newArray
  | .newObject className _ => .named className
  | .length _ _ => .int

end Site
end Jmm
