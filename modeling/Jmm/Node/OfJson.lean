import Jmm.Json.Written
import Jmm.Node

/-!
# Reading nodes

A node is written as an object with the members `kind`, `attributes`, `children`, `line` and
`column`, of which only the first has to be there; `col` is another name for `column`.  A member
may not repeat, and members of other names are skipped without being decoded.  The shorter form is
an array of the same five parts in that order, whose tail may be missing.

No more than `Node.maxOpen` brackets may be open at once; skipped members do not count.
-/

set_option autoImplicit false

namespace Jmm.Node

open Json (Written)

/-- How many brackets of a tree may be open at once. -/
def maxOpen : Nat := 127

/-- The parts of a node found so far. -/
structure Parts where
  kind : Option String := none
  attributes : Option (List (String × Json)) := none
  children : Option (List Node) := none
  line : Option Nat := none
  column : Option Nat := none

namespace Parts

/-- The node made of the parts, if its kind is there. -/
def node? (p : Parts) : Option Node :=
  p.kind.map fun kind ↦
    { kind
      attributes := p.attributes.getD []
      children := p.children.getD []
      span := ⟨p.line.getD 0, p.column.getD 0⟩ }

end Parts

/-- A text that has to be a string. -/
def readText : Written → Option String
  | .string s => s
  | _ => none

/-- A text that has to be a whole number of 32 bits. -/
def readNat : Written → Option Nat
  | .number l => l.unsigned32?
  | _ => none

/-- A text that has to be an object of values, with `depth` brackets left to open. -/
def readAttributes : Nat → Written → Option (List (String × Json))
  | depth + 1, .object members => Written.members? depth [] members
  | _, _ => none

mutual

/-- A node, with `depth` brackets left to open. -/
def ofWritten : Nat → Written → Option Node
  | depth + 1, .object members => (ofMembers depth {} members).bind Parts.node?
  | depth + 1, .array items => (ofItems depth items).bind Parts.node?
  | _, _ => none

/-- The parts given by the members of an object, added to those found so far. -/
def ofMembers : Nat → Parts → List (Option String × Written) → Option Parts
  | _, p, [] => some p
  | depth, p, (name, v) :: ms =>
    match name with
    | none => none
    | some "kind" =>
      match p.kind, readText v with
      | none, some s => ofMembers depth { p with kind := some s } ms
      | _, _ => none
    | some "attributes" =>
      match p.attributes, readAttributes depth v with
      | none, some as => ofMembers depth { p with attributes := some as } ms
      | _, _ => none
    | some "children" =>
      match p.children, ofArray depth v with
      | none, some ns => ofMembers depth { p with children := some ns } ms
      | _, _ => none
    | some "line" =>
      match p.line, readNat v with
      | none, some n => ofMembers depth { p with line := some n } ms
      | _, _ => none
    | some "column" =>
      match p.column, readNat v with
      | none, some n => ofMembers depth { p with column := some n } ms
      | _, _ => none
    | some "col" =>
      match p.column, readNat v with
      | none, some n => ofMembers depth { p with column := some n } ms
      | _, _ => none
    | some _ => ofMembers depth p ms

/-- The parts given by the items of an array, in their fixed order. -/
def ofItems : Nat → List Written → Option Parts
  | depth, kind :: rest => do
    let p : Parts := { kind := some (← readText kind) }
    match rest with
    | [] => some p
    | attributes :: rest =>
      let p := { p with attributes := some (← readAttributes depth attributes) }
      match rest with
      | [] => some p
      | children :: rest =>
        let p := { p with children := some (← ofArray depth children) }
        match rest with
        | [] => some p
        | [line] => some { p with line := some (← readNat line) }
        | [line, column] =>
          some { p with line := some (← readNat line), column := some (← readNat column) }
        | _ => none
  | _, [] => none

/-- The nodes of an array. -/
def ofArray : Nat → Written → Option (List Node)
  | depth + 1, .array items => ofList depth items
  | _, _ => none

/-- The nodes of a list of texts. -/
def ofList : Nat → List Written → Option (List Node)
  | _, [] => some []
  | depth, v :: vs =>
    match ofWritten depth v, ofList depth vs with
    | some n, some ns => some (n :: ns)
    | _, _ => none

end

/-- The node written as a whole text. -/
def parse (text : String) : Option Node := (Written.parse text).bind (ofWritten maxOpen)

end Jmm.Node
