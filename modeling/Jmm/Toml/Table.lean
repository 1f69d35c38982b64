import Jmm.Toml

/-!
# Tables in the making

A TOML document defines its tables piece by piece, and no piece may be defined twice.  A table is
*implicit* as long as only tables inside it have been named, and *dotted* if it was made by a dotted
key.  A header may define an implicit table that is not dotted; a dotted key may add to a dotted
table only; and a key is bound once.
-/

set_option autoImplicit false

namespace Jmm.Toml

/-- What a key is bound to. -/
inductive Item where
  | value (v : Toml)
  | table (isImplicit isDotted : Bool) (entries : List (String × Item))
  /-- An array of tables, the last of which is the one being defined. -/
  | tables (ts : List (List (String × Item)))
deriving Inhabited

/-- A table in the making. -/
structure Table where
  isImplicit : Bool := false
  isDotted : Bool := false
  entries : List (String × Item) := []
deriving Inhabited

namespace Table

/-- A table as what a key is bound to. -/
def item (t : Table) : Item := .table t.isImplicit t.isDotted t.entries

/-- Entries with what a key is bound to replaced by what `f` makes of it, which is given nothing for
a key that is not bound. -/
def alter (key : String) (f : Option Item → Option Item) :
    List (String × Item) → Option (List (String × Item))
  | [] => (f none).map fun i ↦ [(key, i)]
  | e :: es =>
    if e.1 = key then (f (some e.2)).map fun i ↦ (key, i) :: es
    else (alter key f es).map (e :: ·)

/-- The table with what `f` makes of the table at a path.  Tables on the way that are not there are
made, as implicit ones; a path made of the keys of one dotted key must not lead through a table
that a header has defined. -/
def within (dotted : Bool) (f : Table → Option Table) : List String → Table → Option Table
  | [], t => f t
  | key :: keys, t => do
    let step : Option Item → Option Item
      | none => (within dotted f keys ⟨true, dotted, []⟩).map item
      | some (.value _) => none
      | some (.table isImplicit isDotted entries) =>
        if dotted && !isImplicit then none
        else (within dotted f keys ⟨isImplicit, isDotted, entries⟩).map item
      | some (.tables ts) =>
        match ts.getLast? with
        | none => none
        | some entries =>
          (within dotted f keys ⟨false, false, entries⟩).map fun t ↦
            .tables (ts.dropLast ++ [t.entries])
    some { t with entries := ← alter key step t.entries }

/-- The table with a value bound to a key that is not bound yet. -/
def bindNew (key : String) (v : Toml) (t : Table) : Option Table := do
  let entries ←
    alter key (fun i ↦
      match i with
      | none => some (.value v)
      | some _ => none) t.entries
  some { t with entries }

/-- The table with a value bound to the key at the end of a path of keys joined by dots. -/
def bindPath (path : List String) (key : String) (v : Toml) (t : Table) : Option Table :=
  within true (fun inner ↦ if inner.isDotted == path.isEmpty then none else inner.bindNew key v)
    path t

/-- The table with the table of a header defined in it. -/
def defineTable (path : List String) (key : String) (t : Table) : Option Table :=
  within false (fun outer ↦ do
    let entries ←
      alter key (fun i ↦
        match i with
        | none => some (.table false false [])
        | some (.table true false entries) => some (.table false false entries)
        | _ => none) outer.entries
    some { outer with entries }) path t

/-- The table with one more table in the array of tables of a header. -/
def appendTable (path : List String) (key : String) (t : Table) : Option Table :=
  within false (fun outer ↦ do
    let entries ←
      alter key (fun i ↦
        match i with
        | none => some (.tables [[]])
        | some (.tables ts) => some (.tables (ts ++ [[]]))
        | _ => none) outer.entries
    some { outer with entries }) path t

end Table

mutual

/-- The value a key is bound to. -/
def Item.toValue : Item → Toml
  | .value v => v
  | .table _ _ entries => .table (entriesToValues entries)
  | .tables ts => .array (tablesToValues ts)

/-- The entries of a table, by value. -/
def entriesToValues : List (String × Item) → List (String × Toml)
  | [] => []
  | (key, i) :: es => (key, i.toValue) :: entriesToValues es

/-- The tables of an array, by value. -/
def tablesToValues : List (List (String × Item)) → List Toml
  | [] => []
  | t :: ts => .table (entriesToValues t) :: tablesToValues ts

end

end Jmm.Toml
