import Jmm.Node
import Jmm.Program

/-!
# Programs from nodes

The conversion of a tree of nodes into a program.  It stops at the first node that does not have
the shape its place asks for, and the `Malformed` report names that node and what is wrong with it.
Parts are converted in a fixed order, which decides the report when several nodes are malformed:
children from left to right, except that the arguments of a call come before its receiver, and the
name of a class or method comes after all of its children.

Blocks nested in blocks are flattened: only the statements in them count.
-/

set_option autoImplicit false

namespace Jmm

/-- What can be wrong with a node. -/
inductive Defect where
  | missingAttribute (name : String)
  | missingChild (position : Nat)
  | notProgram
  | unexpectedTopLevel
  | emptyImport
  | unexpectedMember
  | notType
  | unknownStatement
  | unknownExpression
  | notInteger (text : String)
  | missingBoolean
  | notBoolean (text : String)
  | unknownOperator (symbol : String)
  | missingSize
deriving DecidableEq, Repr, Inhabited

/-- A defect in words. -/
def Defect.message : Defect → String
  | missingAttribute name => "missing attribute '" ++ name ++ "'"
  | missingChild position => "expected a child at position " ++ toString position
  | notProgram => "expected a Program root"
  | unexpectedTopLevel => "unexpected top-level node"
  | emptyImport => "empty import path"
  | unexpectedMember => "unexpected class member"
  | notType => "expected a type node"
  | unknownStatement => "unknown statement kind"
  | unknownExpression => "unknown expression kind"
  | notInteger text => "'" ++ text ++ "' is not a 32-bit integer"
  | missingBoolean => "missing boolean value"
  | notBoolean text => "'" ++ text ++ "' is not a boolean"
  | unknownOperator symbol => "unknown operator '" ++ symbol ++ "'"
  | missingSize => "missing array size"

/-- A node that does not have the shape its place asks for. -/
structure Malformed where
  kind : String
  span : Span
  defect : Defect
deriving DecidableEq, Repr, Inhabited

/-- A malformed node in words. -/
def Malformed.message (m : Malformed) : String :=
  "Malformed '" ++ m.kind ++ "' node at " ++ m.span.text ++ ": " ++ m.defect.message

namespace Node

/-- The report of a defect of this node. -/
def malformed (n : Node) (d : Defect) : Malformed := ⟨n.kind, n.span, d⟩

/-- An attribute as text that has to be there. -/
def attr (n : Node) (name : String) : Except Malformed String :=
  match n.attr? name with
  | some s => .ok s
  | none => .error (n.malformed (.missingAttribute name))

/-- A child that has to be there. -/
def child (n : Node) (position : Nat) : Except Malformed Node :=
  match n.children[position]? with
  | some c => .ok c
  | none => .error (n.malformed (.missingChild position))

/-! ## Expressions -/

/-- The value of an integer literal. -/
def integerValue (n : Node) : Except Malformed Int32 := do
  let text ← n.attr "value"
  match Text.int32? text with
  | some value => .ok value
  | none => .error (n.malformed (.notInteger text))

/-- The value of a truth literal, given by the attribute `name` or else by `value`. -/
def booleanValue (n : Node) : Except Malformed Bool :=
  match (n.attr? "name").or (n.attr? "value") with
  | none => .error (n.malformed .missingBoolean)
  | some "true" => .ok true
  | some "false" => .ok false
  | some text => .error (n.malformed (.notBoolean text))

/-- The operator of a binary operation. -/
def operator (n : Node) : Except Malformed BinOp := do
  let symbol ← n.attr "op"
  match BinOp.ofSymbol symbol with
  | some op => .ok op
  | none => .error (n.malformed (.unknownOperator symbol))

/-- The type a node names. -/
def toTypeName (n : Node) : Except Malformed TypeName :=
  match n.kind? with
  | some .arrayType => do
    let element ← n.child 0
    return { name := ← element.attr "name", isArray := true, span := n.span }
  | some .type => do
    let name ← n.attr "name"
    return { name, isArray := n.flag "isArray", isVararg := n.flag "isVarArg", span := n.span }
  | _ => .error (n.malformed .notType)

/-- The element type of a new array: named by a type node in front, or by the attribute `name`, or
`int`. -/
def elementName (n : Node) : Except Malformed String :=
  match n.children with
  | first :: _ =>
    if first.isType then (first.toTypeName).map TypeName.name
    else .ok ((n.attr? "name").getD "int")
  | [] => .ok ((n.attr? "name").getD "int")

mutual

/-- The expression a node stands for. -/
def toExpr : Node → Except Malformed Expr
  | ⟨kind, attributes, children, span⟩ =>
    let n : Node := ⟨kind, attributes, children, span⟩
    match n.kind? with
    | some .integer => do return .int (← n.integerValue) span
    | some .boolean => do return .bool (← n.booleanValue) span
    | some .identifier => do return .ident (← n.attr "name") span
    | some .receiver => .ok (.self span)
    | some .paren => do return .paren (← exprAt n 0 0 children) span
    | some .arrayLiteral => do return .arrayLit (← exprs children) span
    | some .negation => do return .not (← exprAt n 0 0 children) span
    | some .arrayAccess => do
      let array ← exprAt n 0 0 children
      return .index array (← exprAt n 1 1 children) span
    | some .binary => do
      let op ← n.operator
      let left ← exprAt n 0 0 children
      return .binary op left (← exprAt n 1 1 children) span
    | some .call => do
      let args ← argumentsAfter children
      let receiver ← exprAt n 0 0 children
      return .call receiver (← n.attr "name") args span
    | some .newArray => do
      let element ← n.elementName
      return .newArray element (← lastExpr n children) span
    | some .newObject => do return .newObject (← n.attr "name") span
    | some .length => do return .length (← exprAt n 0 0 children) span
    | _ => .error (n.malformed .unknownExpression)

/-- The expression at `position` among the children of `owner`, of which the ones from `skip`
places before it are left. -/
def exprAt (owner : Node) (position : Nat) : Nat → List Node → Except Malformed Expr
  | _, [] => .error (owner.malformed (.missingChild position))
  | 0, c :: _ => toExpr c
  | skip + 1, _ :: cs => exprAt owner position skip cs

/-- The expressions of a list of nodes. -/
def exprs : List Node → Except Malformed (List Expr)
  | [] => .ok []
  | c :: cs => do
    let e ← toExpr c
    return e :: (← exprs cs)

/-- The arguments of a call, which are all children but the first. -/
def argumentsAfter : List Node → Except Malformed (List Expr)
  | [] => .ok []
  | _ :: cs => arguments cs

/-- The arguments given by a list of nodes, in which an argument list stands for its children. -/
def arguments : List Node → Except Malformed (List Expr)
  | [] => .ok []
  | c :: cs => do
    let here ←
      if c.kind? = some .argumentList then innerExprs c
      else do
        let e ← toExpr c
        pure [e]
    return here ++ (← arguments cs)

/-- The expressions of the children of a node. -/
def innerExprs : Node → Except Malformed (List Expr)
  | ⟨_, _, children, _⟩ => exprs children

/-- The expression of the last of the children of `owner`, which gives the size of an array. -/
def lastExpr (owner : Node) : List Node → Except Malformed Expr
  | [] => .error (owner.malformed .missingSize)
  | [c] => toExpr c
  | _ :: c :: cs => lastExpr owner (c :: cs)

end

/-! ## Statements -/

mutual

/-- The statements a node stands for: those in a block, in order, and any other statement
itself. -/
def toStmts : Node → Except Malformed (List Stmt)
  | ⟨kind, attributes, children, span⟩ =>
    let n : Node := ⟨kind, attributes, children, span⟩
    match n.kind? with
    | some .block => stmtsOf children
    | some .assignStmt =>
      match children, n.attr? "name" with
      | [c], some name => do return [.assign (.ident name span) (← c.toExpr) span]
      | _, _ => do
        let target ← (← n.child 0).toExpr
        return [.assign target (← (← n.child 1).toExpr) span]
    | some .exprStmt => do return [.expr (← (← n.child 0).toExpr) span]
    | some .returnStmt =>
      match children with
      | [] => .ok [.ret none span]
      | c :: _ => do return [.ret (some (← c.toExpr)) span]
    | some .ifStmt => do
      let test ← (← n.child 0).toExpr
      let thenBranch ← stmtsAt n 1 1 children
      let elseBranch ← if children.length ≤ 2 then pure [] else stmtsAt n 2 2 children
      return [.cond test thenBranch elseBranch span]
    | some .whileStmt => do
      let test ← (← n.child 0).toExpr
      return [.loop test (← stmtsAt n 1 1 children) span]
    | _ => .error (n.malformed .unknownStatement)

/-- The statements of the child at `position` of `owner`, of which the ones from `skip` places
before it are left. -/
def stmtsAt (owner : Node) (position : Nat) : Nat → List Node → Except Malformed (List Stmt)
  | _, [] => .error (owner.malformed (.missingChild position))
  | 0, c :: _ => toStmts c
  | skip + 1, _ :: cs => stmtsAt owner position skip cs

/-- The statements of a list of nodes, one after the other. -/
def stmtsOf : List Node → Except Malformed (List Stmt)
  | [] => .ok []
  | c :: cs => do
    let here ← toStmts c
    return here ++ (← stmtsOf cs)

end

/-! ## Declarations -/

/-- The field or local variable a node declares. -/
def toVarDecl (n : Node) : Except Malformed VarDecl := do
  let name ← n.attr "name"
  let type ← (← n.child 0).toTypeName
  return { name, type, isPrivate := n.flag "isPrivate", span := n.span }

/-- The parameter a node declares. -/
def toParam (n : Node) : Except Malformed Param := do
  let name ← n.attr "name"
  return { name, type := ← (← n.child 0).toTypeName, span := n.span }

/-- What the children of a method declare. -/
structure MethodParts where
  params : List Param := []
  locals : List VarDecl := []
  body : List Stmt := []

/-- The parts of a method with those of one more child. -/
def addMethodPart (p : MethodParts) (n : Node) : Except Malformed MethodParts :=
  match n.kind? with
  | some .parameter => do return { p with params := p.params ++ [← n.toParam] }
  | some .varDecl => do return { p with locals := p.locals ++ [← n.toVarDecl] }
  | some .parameterList => do return { p with params := p.params ++ (← n.children.mapM toParam) }
  | _ => do return { p with body := p.body ++ (← n.toStmts) }

/-- The return type of a method, `void` unless its first child names a type, and the other
children. -/
def splitReturnType : List Node → Except Malformed (TypeName × List Node)
  | [] => .ok ({ name := "void" }, [])
  | first :: rest =>
    if first.isType then do return (← first.toTypeName, rest)
    else .ok ({ name := "void" }, first :: rest)

/-- The method a node declares. -/
def toMethod (n : Node) : Except Malformed MethodDecl := do
  let (returns, rest) ← splitReturnType n.children
  let parts ← rest.foldlM addMethodPart {}
  return { name := ← n.attr "name", isPublic := n.flag "isPublic",
           isStatic := n.flag "isStatic", returns, params := parts.params, locals := parts.locals,
           body := parts.body, span := n.span }

/-- What the children of a class declare. -/
structure ClassParts where
  fields : List VarDecl := []
  methods : List MethodDecl := []

/-- The parts of a class with those of one more child. -/
def addClassPart (p : ClassParts) (n : Node) : Except Malformed ClassParts :=
  match n.kind? with
  | some .varDecl => do return { p with fields := p.fields ++ [← n.toVarDecl] }
  | some .methodDecl => do return { p with methods := p.methods ++ [← n.toMethod] }
  | _ => .error (n.malformed .unexpectedMember)

/-- The superclass a node names, under either attribute; an empty name counts as none. -/
def superclass? (n : Node) : Option String :=
  ((n.attr? "extendedClass").or (n.attr? "extends")).filter fun name ↦ !name.isEmpty

/-- The class a node declares. -/
def toClass (n : Node) : Except Malformed ClassDecl := do
  let parts ← n.children.foldlM addClassPart {}
  return { name := ← n.attr "name", superclass := n.superclass?, fields := parts.fields,
           methods := parts.methods, span := n.span }

/-- The path of an import: the words of the attribute `value`, or else the segments of `name`. -/
def importPath (n : Node) : Except Malformed (List String) :=
  match n.words? "value" with
  | some path => .ok path
  | none => do return Text.segments (← n.attr "name")

/-- The import a node declares. -/
def toImport (n : Node) : Except Malformed ImportDecl := do
  let path ← n.importPath
  if path.isEmpty then .error (n.malformed .emptyImport) else .ok { path, span := n.span }

/-- The program with the declaration of one more node. -/
def addDeclaration (p : Program) (n : Node) : Except Malformed Program :=
  match n.kind? with
  | some .importDecl => do return { p with imports := p.imports ++ [← n.toImport] }
  | some .classDecl => do return { p with classes := p.classes ++ [← n.toClass] }
  | _ => .error (n.malformed .unexpectedTopLevel)

/-- The program a node stands for. -/
def toProgram (n : Node) : Except Malformed Program :=
  if n.kind? = some .program then
    n.children.foldlM addDeclaration { imports := [], classes := [], span := n.span }
  else .error (n.malformed .notProgram)

end Node
end Jmm
