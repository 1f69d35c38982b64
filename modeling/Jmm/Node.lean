import Jmm.Json
import Jmm.Span
import Jmm.Text.Blank
import Jmm.Text.Split

/-!
# Kind-tagged nodes

A parser hands its result over as a tree of `Node`s: a kind, named attributes, children and a
position.  Kinds are text, and several spellings of one kind are in use; `NodeKind` lists the kinds
that mean something and `NodeKind.ofSpelling` finds the kind of a spelling.

An attribute is a JSON value that is read in one of three ways: as text (`Node.attr?`), as a
flag (`Node.flag`) or as a list of words (`Node.words?`).
-/

set_option autoImplicit false

namespace Jmm

/-- A node of the tree a parser produces. -/
structure Node where
  kind : String
  attributes : List (String × Json) := []
  children : List Node := []
  span : Span := {}
deriving Inhabited

/-- The kinds of node that mean something in a program. -/
inductive NodeKind where
  | program
  | importDecl
  | classDecl
  | varDecl
  | methodDecl
  | parameter
  | parameterList
  | type
  | arrayType
  | block
  | assignStmt
  | exprStmt
  | returnStmt
  | ifStmt
  | whileStmt
  | integer
  | boolean
  | identifier
  | receiver
  | paren
  | arrayLiteral
  | negation
  | arrayAccess
  | binary
  | call
  | argumentList
  | newArray
  | newObject
  | length
deriving DecidableEq, Repr, Inhabited

namespace NodeKind

/-- The spellings of a kind.  The first one is its canonical spelling. -/
def spellings : NodeKind → List String
  | program => ["Program"]
  | importDecl => ["ImportStmt", "ImportDecl"]
  | classDecl => ["ClassDecl"]
  | varDecl => ["VarDecl", "VarDeclaration"]
  | methodDecl => ["MethodDecl"]
  | parameter => ["Parameter", "Param"]
  | parameterList => ["Params", "ParamList", "Parameters", "MethodParams"]
  | type => ["Type"]
  | arrayType => ["ArrayType"]
  | block => ["BlockStmt", "Block", "Stmt", "ScopeStmt"]
  | assignStmt => ["AssignStmt"]
  | exprStmt => ["ExprStmt"]
  | returnStmt => ["ReturnStmt"]
  | ifStmt => ["IfElseStmt", "IfStmt"]
  | whileStmt => ["WhileStmt"]
  | integer => ["IntegerLiteral"]
  | boolean => ["BoolValue", "BooleanLiteral"]
  | identifier => ["Identifier", "VarRefExpr"]
  | receiver => ["This"]
  | paren => ["Parentesis", "ParenExpr"]
  | arrayLiteral => ["SimpleArray", "ArrayLiteral"]
  | negation => ["NegOperator", "Not"]
  | arrayAccess => ["ArrayAccess"]
  | binary => ["BinaryExpr"]
  | call => ["ObjectFunctionCall", "MethodCall"]
  | argumentList => ["FuncParameter"]
  | newArray => ["NewArray"]
  | newObject => ["NewClass", "NewObject"]
  | length => ["Length"]

/-- Every kind. -/
def all : List NodeKind :=
  [program, importDecl, classDecl, varDecl, methodDecl, parameter, parameterList, type, arrayType,
    block, assignStmt, exprStmt, returnStmt, ifStmt, whileStmt, integer, boolean, identifier,
    receiver, paren, arrayLiteral, negation, arrayAccess, binary, call, argumentList, newArray,
    newObject, length]

/-- The kind that has the given spelling. -/
def ofSpelling (s : String) : Option NodeKind := all.find? fun k ↦ k.spellings.contains s

/-- A kind that names a type. -/
def isType : NodeKind → Bool
  | type => true
  | arrayType => true
  | _ => false

end NodeKind

namespace Node

/-- What a node means, none if its kind is unknown. -/
def kind? (n : Node) : Option NodeKind := NodeKind.ofSpelling n.kind

/-- A node that names a type. -/
def isType (n : Node) : Bool :=
  match n.kind? with
  | some k => k.isType
  | none => false

/-! ## Building -/

/-- The node with one more attribute, which takes the place of an earlier one of its name. -/
def withAttribute (n : Node) (name : String) (value : Json) : Node :=
  { n with attributes := Json.bindMember name value n.attributes }

/-- The node with one more child. -/
def withChild (n child : Node) : Node := { n with children := n.children ++ [child] }

/-! ## Attributes -/

/-- The raw value of an attribute. -/
def value? (n : Node) (name : String) : Option Json := Json.member? name n.attributes

/-- An attribute as text: a string as it is, a truth value by name, a number in decimal. -/
def attr? (n : Node) (name : String) : Option String :=
  match n.value? name with
  | some (.string s) => some s
  | some (.bool b) => some (if b then "true" else "false")
  | some (.number x) => some x.text
  | _ => none

/-- An attribute as a flag: set by the truth value or by its name, not set otherwise. -/
def flag (n : Node) (name : String) : Bool :=
  match n.value? name with
  | some (.bool b) => b
  | some (.string s) => s == "true"
  | _ => false

/-- The text of every item, none if one of them is no string. -/
def texts? : List Json → Option (List String)
  | [] => some []
  | .string s :: vs => (texts? vs).map (s :: ·)
  | _ :: _ => none

/-- The words of a list written as text: brackets around it are dropped, words end at commas and
dots, blanks around them do not count, and empty words are left out. -/
def listedWords (s : String) : List String :=
  let inner := Text.dropEndWhile (· == ']') ((Text.trim s.toList).dropWhile (· == '['))
  (((Text.splitWhen (fun c ↦ c == ',' || c == '.') inner).map Text.trim).filter
    fun w ↦ !w.isEmpty).map String.ofList

/-- An attribute as a list of words, given as an array of strings or written out as text. -/
def words? (n : Node) (name : String) : Option (List String) :=
  match n.value? name with
  | some (.array items) => texts? items
  | some (.string s) => some (listedWords s)
  | _ => none

/-! ## Written form -/

mutual

/-- A node as a JSON object with all five members. -/
def toJson : Node → Json
  | ⟨kind, attributes, children, span⟩ =>
    .object [("kind", .string kind), ("attributes", .object attributes),
      ("children", .array (listToJson children)), ("line", .nat span.line),
      ("column", .nat span.column)]

/-- The nodes of a list, each as a JSON object. -/
def listToJson : List Node → List Json
  | [] => []
  | n :: ns => toJson n :: listToJson ns

end

end Node
end Jmm
