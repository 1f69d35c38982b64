import Jmm.Json.Number

/-!
# JSON values

The values of the format, with the members of an object in the order of their first appearance and
at most one member of each name, and their two written forms: compact, and indented by two spaces
with one item a line.
-/

set_option autoImplicit false

namespace Jmm

/-- A JSON value. -/
inductive Json where
  | null
  | bool (b : Bool)
  | number (n : Json.Number)
  | string (s : String)
  | array (items : List Json)
  | object (members : List (String × Json))
deriving Inhabited

namespace Json

/-- A whole number as a value. -/
def nat (n : Nat) : Json := .number (.integer n)

/-- The value, or `null` for none. -/
def ofOption : Option Json → Json
  | some v => v
  | none => .null

/-! ## Members -/

/-- The members with `name` bound to `value`: in the place of an earlier binding, else at the
end. -/
def bindMember (name : String) (value : Json) : List (String × Json) → List (String × Json)
  | [] => [(name, value)]
  | m :: ms => if m.1 = name then (name, value) :: ms else m :: bindMember name value ms

/-- The value bound to `name`. -/
def member? (name : String) (members : List (String × Json)) : Option Json :=
  (members.find? fun m ↦ m.1 == name).map Prod.snd

/-! ## Written forms -/

/-- The digit of a value below sixteen. -/
def hexDigit (n : Nat) : Char :=
  if n < 10 then Char.ofNat ('0'.toNat + n) else Char.ofNat ('a'.toNat + (n - 10))

/-- A character inside a string.  The quote, the backslash and the control characters are
escaped, the latter by their short names where they have one. -/
def escaped (c : Char) : List Char :=
  match c.toNat with
  | 0x22 => ['\x5c', '\x22']
  | 0x5c => ['\x5c', '\x5c']
  | 0x08 => ['\x5c', 'b']
  | 0x09 => ['\x5c', 't']
  | 0x0a => ['\x5c', 'n']
  | 0x0c => ['\x5c', 'f']
  | 0x0d => ['\x5c', 'r']
  | n => if n < 0x20 then ['\x5c', 'u', '0', '0', hexDigit (n / 16), hexDigit (n % 16)] else [c]

/-- A string between quotes. -/
def quoted (s : String) : String :=
  String.ofList ('\x22' :: s.toList.flatMap escaped ++ ['\x22'])

mutual

/-- A value on one line without blanks. -/
def compact : Json → String
  | .null => "null"
  | .bool b => if b then "true" else "false"
  | .number n => n.text
  | .string s => quoted s
  | .array items => "[" ++ ",".intercalate (compactItems items) ++ "]"
  | .object members => "\x7b" ++ ",".intercalate (compactMembers members) ++ "\x7d"

/-- The items of an array, each on one line without blanks. -/
def compactItems : List Json → List String
  | [] => []
  | v :: vs => compact v :: compactItems vs

/-- The members of an object, each on one line without blanks. -/
def compactMembers : List (String × Json) → List String
  | [] => []
  | (k, v) :: ms => (quoted k ++ ":" ++ compact v) :: compactMembers ms

end

/-- Lines of a bracketed list, one item a line at the given depth. -/
def bracketed (openText closeText : String) (depth : Nat) : List String → String
  | [] => openText ++ closeText
  | items =>
    let indent (d : Nat) := String.ofList (List.replicate (2 * d) ' ')
    openText ++ "\n"
      ++ ",\n".intercalate (items.map fun item ↦ indent (depth + 1) ++ item)
      ++ "\n" ++ indent depth ++ closeText

mutual

/-- A value with one item or member a line, at the given depth of indentation. -/
def prettyAt (depth : Nat) : Json → String
  | .null => "null"
  | .bool b => if b then "true" else "false"
  | .number n => n.text
  | .string s => quoted s
  | .array items => bracketed "[" "]" depth (prettyItems (depth + 1) items)
  | .object members => bracketed "\x7b" "\x7d" depth (prettyMembers (depth + 1) members)

/-- The items of an array at the given depth. -/
def prettyItems (depth : Nat) : List Json → List String
  | [] => []
  | v :: vs => prettyAt depth v :: prettyItems depth vs

/-- The members of an object at the given depth. -/
def prettyMembers (depth : Nat) : List (String × Json) → List String
  | [] => []
  | (k, v) :: ms => (quoted k ++ ": " ++ prettyAt depth v) :: prettyMembers depth ms

end

/-- A value with one item or member a line, indented by two spaces a level. -/
def pretty (v : Json) : String := prettyAt 0 v

end Json
end Jmm
