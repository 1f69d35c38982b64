import Jmm.Span
import Jmm.Text.Digits
import Jmm.Text.Split

/-!
# Programs

The tree of a program: imports and classes, the fields and methods of a class, the statements of a
method and the expressions in them.  Every construct carries the position it starts at.  An integer
literal is a 32-bit word.
-/

set_option autoImplicit false

namespace Jmm

/-- A type as it is written in a declaration: `T`, `T[]` or `T...`. -/
structure TypeName where
  name : String
  isArray : Bool := false
  isVararg : Bool := false
  span : Span := {}
deriving DecidableEq, Repr, Inhabited

/-- A declared type as text. -/
def TypeName.text (t : TypeName) : String :=
  t.name ++ (if t.isArray then "[]" else "") ++ (if t.isVararg then "..." else "")

/-- A binary operator. -/
inductive BinOp where
  | add
  | sub
  | mul
  | div
  | less
  | and
  | or
deriving DecidableEq, Repr, Inhabited

namespace BinOp

/-- Every operator. -/
def all : List BinOp := [add, sub, mul, div, less, and, or]

/-- The symbol of an operator. -/
def symbol : BinOp → String
  | add => "+"
  | sub => "-"
  | mul => "*"
  | div => "/"
  | less => "<"
  | and => "&&"
  | or => "||"

/-- The operator with the given symbol. -/
def ofSymbol (s : String) : Option BinOp := all.find? fun op ↦ op.symbol == s

/-- Addition, subtraction, multiplication and division. -/
def isArithmetic : BinOp → Bool
  | add => true
  | sub => true
  | mul => true
  | div => true
  | _ => false

/-- Conjunction and disjunction. -/
def isLogical : BinOp → Bool
  | and => true
  | or => true
  | _ => false

end BinOp

/-- An expression. -/
inductive Expr where
  | int (value : Int32) (span : Span)
  | bool (value : Bool) (span : Span)
  | ident (name : String) (span : Span)
  /-- The receiver `this`. -/
  | self (span : Span)
  | paren (inner : Expr) (span : Span)
  | arrayLit (elements : List Expr) (span : Span)
  | not (operand : Expr) (span : Span)
  | index (array position : Expr) (span : Span)
  | binary (op : BinOp) (left right : Expr) (span : Span)
  | call (receiver : Expr) (method : String) (args : List Expr) (span : Span)
  | newArray (element : String) (size : Expr) (span : Span)
  | newObject (className : String) (span : Span)
  | length (array : Expr) (span : Span)
deriving Inhabited

namespace Expr

/-- The position an expression starts at. -/
def span : Expr → Span
  | int _ s | bool _ s | ident _ s | self s | paren _ s | arrayLit _ s | not _ s => s
  | index _ _ s | binary _ _ _ s | call _ _ _ s | newArray _ _ s | newObject _ s | length _ s => s

/-- The name of a bare identifier. -/
def identifier? : Expr → Option String
  | ident name _ => some name
  | _ => none

/-- An integer literal. -/
def isIntLiteral : Expr → Bool
  | int _ _ => true
  | _ => false

/-- A binary operation. -/
def isBinary : Expr → Bool
  | binary _ _ _ _ => true
  | _ => false

end Expr

/-- A statement. -/
inductive Stmt where
  | assign (target value : Expr) (span : Span)
  | expr (e : Expr) (span : Span)
  | ret (value : Option Expr) (span : Span)
  | cond (test : Expr) (thenBranch elseBranch : List Stmt) (span : Span)
  | loop (test : Expr) (body : List Stmt) (span : Span)
deriving Inhabited

namespace Stmt

/-- A return statement. -/
def isReturn : Stmt → Bool
  | ret _ _ => true
  | _ => false

end Stmt

/-- A field or local variable declaration. -/
structure VarDecl where
  name : String
  type : TypeName
  isPrivate : Bool := false
  span : Span := {}
deriving DecidableEq, Repr, Inhabited

/-- A formal parameter. -/
structure Param where
  name : String
  type : TypeName
  span : Span := {}
deriving DecidableEq, Repr, Inhabited

/-- A method declaration. -/
structure MethodDecl where
  name : String
  isPublic : Bool
  isStatic : Bool
  returns : TypeName
  params : List Param
  locals : List VarDecl
  body : List Stmt
  span : Span := {}
deriving Inhabited

/-- Whether a return statement stands at the top level of the body. -/
def MethodDecl.hasReturn (m : MethodDecl) : Bool := m.body.any Stmt.isReturn

/-- A class declaration. -/
structure ClassDecl where
  name : String
  superclass : Option String
  fields : List VarDecl
  methods : List MethodDecl
  span : Span := {}
deriving Inhabited

/-- An import declaration, by the segments of its path. -/
structure ImportDecl where
  path : List String
  span : Span := {}
deriving DecidableEq, Repr, Inhabited

/-- The path of an import with its segments put together by dots. -/
def ImportDecl.dotted (i : ImportDecl) : String := Text.dotted i.path

/-- A compilation unit. -/
structure Program where
  imports : List ImportDecl
  classes : List ClassDecl
  span : Span := {}
deriving Inhabited

end Jmm
