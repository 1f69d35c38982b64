import Jmm.Typing.Check

/-!
# Analysis of a unit

A unit is analysed in three steps: its class gives the symbol table, the declarations give the
scopes, and the method bodies are checked against both.  Violations of the declarations come before
those in method bodies.  A unit without exactly one class has no analysis.
-/

set_option autoImplicit false

namespace Jmm

/-- What is known about a unit. -/
structure Analysis where
  table : SymbolTable
  scopes : Scopes
  violations : List Violation
deriving DecidableEq, Repr, Inhabited

/-- A unit that does not declare exactly one class. -/
structure ClassCount where
  found : Nat
deriving DecidableEq, Repr, Inhabited

/-- A wrong number of classes in words. -/
def ClassCount.message (c : ClassCount) : String :=
  "Expected exactly one class declaration, found " ++ toString c.found

namespace Analysis

/-- Whether any rule is violated. -/
def hasErrors (a : Analysis) : Bool := !a.violations.isEmpty

/-- The analysis of a class declared beside the given imports. -/
def ofClass (imports : List ImportDecl) (c : ClassDecl) : Analysis :=
  let table := SymbolTable.ofClass imports c
  let found := Scopes.ofClass table c
  let scopes : Scopes := ⟨found.entries⟩
  let bodies := c.methods.flatMap fun m ↦ Checker.body ⟨table, scopes, m⟩
  ⟨table, scopes, found.violations ++ bodies⟩

end Analysis

/-- The one class of a program. -/
def Program.class? (p : Program) : Except ClassCount ClassDecl :=
  match p.classes with
  | [c] => .ok c
  | cs => .error ⟨cs.length⟩

/-- The analysis of a program. -/
def Program.analyze (p : Program) : Except ClassCount Analysis :=
  p.class?.map (Analysis.ofClass p.imports)

end Jmm
