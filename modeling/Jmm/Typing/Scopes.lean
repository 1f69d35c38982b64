import Jmm.Typing.SymbolTable
import Jmm.Typing.Violation

/-!
# Scopes

`Scopes` is the list of all variables of a unit, each with the method that owns it; fields are
owned by none.  A name used in a method means a parameter or local of that method if there is one,
and a field otherwise; among candidates of one rank the last one declared counts.

Building the list also checks where `...` may stand: only at the last parameter of a method.  Other
uses are violations, and a local or field declared with `...` is not entered.
-/

set_option autoImplicit false

namespace Jmm

/-- What kind of variable an entry is. -/
inductive ScopeKind where
  | field
  | parameter
  | local
deriving DecidableEq, Repr, Inhabited

/-- A declared variable. -/
structure ScopeEntry where
  name : String
  kind : ScopeKind
  /-- The method that owns the variable, none for a field. -/
  owner : Option String
  type : Ty
  isVararg : Bool := false
deriving DecidableEq, Repr, Inhabited

/-- All variables of a unit, in order of declaration. -/
structure Scopes where
  entries : List ScopeEntry := []
deriving DecidableEq, Repr, Inhabited

namespace ScopeEntry

/-- Whether the entry is a parameter or local of the method. -/
def isOwnedBy (e : ScopeEntry) (method : String) : Bool :=
  e.kind != .field && e.owner == some method

end ScopeEntry

namespace Scopes

/-- What a name means inside a method. -/
def lookup (s : Scopes) (name method : String) : Option ScopeEntry :=
  let named := s.entries.reverse.filter fun e ↦ e.name == name
  (named.find? fun e ↦ e.isOwnedBy method).or (named.find? fun e ↦ e.kind == .field)

/-- Whether the method owns a vararg of this name. -/
def isVararg (s : Scopes) (name method : String) : Bool :=
  s.entries.any fun e ↦ e.name == name && e.owner == some method && e.isVararg

/-- Whether a name means a field inside a method. -/
def isField (s : Scopes) (name method : String) : Bool :=
  match s.lookup name method with
  | some e => e.kind == .field
  | none => false

/-! ## Building -/

/-- The entries and violations found so far. -/
structure Found where
  entries : List ScopeEntry := []
  violations : List Violation := []
deriving DecidableEq, Repr, Inhabited

/-- One find after the other. -/
def Found.append (a b : Found) : Found := ⟨a.entries ++ b.entries, a.violations ++ b.violations⟩

instance : Append Found := ⟨Found.append⟩

/-- All finds of a list, in order. -/
def Found.concat (fs : List Found) : Found := fs.foldr Found.append {}

/-- What a field declaration contributes. -/
def ofField (t : SymbolTable) (d : VarDecl) : Found :=
  if d.type.isVararg then { violations := [.varargField d.name d.span] }
  else
    match t.field? d.name with
    | some f => { entries := [⟨f.name, .field, none, f.type, false⟩] }
    | none => {}

/-- The first vararg among parameters, the last of them left out. -/
def earlyVararg? (params : List Param) : Option Param :=
  params.dropLast.find? fun p ↦ p.type.isVararg

/-- What a parameter of a method contributes. -/
def ofParam (method : String) (p : Symbol) : ScopeEntry :=
  ⟨p.name, .parameter, some method, p.type, p.isVararg⟩

/-- What a local of a method contributes; a vararg is reported only if `report` is set. -/
def ofLocal (method : String) (report : Bool) (d : VarDecl) (v : Symbol) : Found :=
  if v.isVararg then
    { violations := if report then [.varargLocal method v.name d.span] else [] }
  else { entries := [⟨v.name, .local, some method, v.type, false⟩] }

/-- The violations in the signature of a method. -/
def signatureViolations (m : MethodDecl) : List Violation :=
  match earlyVararg? m.params with
  | some p => [.varargNotLast m.name p.name m.span]
  | none => if m.returns.isVararg then [.varargReturn m.name m.span] else []

/-- What the parameters and locals of a method contribute.  Its locals are checked only if no
parameter but the last is a vararg. -/
def ofMethod (t : SymbolTable) (m : MethodDecl) : Found :=
  let signature : Found := { violations := signatureViolations m }
  match t.method? m.name with
  | none => signature
  | some s =>
    let report := (earlyVararg? m.params).isNone
    signature ++ { entries := s.params.map (ofParam m.name) }
      ++ Found.concat (List.zipWith (ofLocal m.name report) m.locals s.locals)

/-- What the fields and methods of a class contribute. -/
def ofClass (t : SymbolTable) (c : ClassDecl) : Found :=
  Found.concat (c.fields.map (ofField t)) ++ Found.concat (c.methods.map (ofMethod t))

end Scopes
end Jmm
