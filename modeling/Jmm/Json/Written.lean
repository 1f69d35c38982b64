import Jmm.Json

/-!
# JSON as written

`Written` is a JSON text with nothing decided beyond the grammar: numbers are still literals,
members still repeat, and a string whose escapes name half of a surrogate pair is kept as a string
without text.  This is what a reader that skips members it does not know has to accept, because a
member that is skipped is never decoded.

* `Written.parse` reads a whole text.  It is strict: no blanks but the four of the grammar, no
  control characters inside strings, nothing after the value.
* `Written.value? depth` decodes a text into a value, if every string has a text, every number is
  in range, and at most `depth` brackets are open at once.

The reader works on characters.  Every call consumes at least one of them before it calls itself on
a nested value, so the length of the text bounds the depth of the calls.
-/

set_option autoImplicit false

namespace Jmm.Json

/-- A JSON text, with nothing decided beyond the grammar. -/
inductive Written where
  | null
  | bool (b : Bool)
  | number (l : Literal)
  | string (text : Option String)
  | array (items : List Written)
  | object (members : List (Option String × Written))
deriving Inhabited

namespace Written

/-! ## Tokens -/

/-- The four blanks of the grammar. -/
def isSpace (c : Char) : Bool := c == ' ' || c == '\n' || c == '\t' || c == '\r'

/-- The characters from the first that is no blank. -/
def skipSpace (cs : List Char) : List Char := cs.dropWhile isSpace

/-- The value of a hexadecimal digit. -/
def hexValue? (c : Char) : Option Nat :=
  if '0' ≤ c ∧ c ≤ '9' then some (c.toNat - '0'.toNat)
  else if 'a' ≤ c ∧ c ≤ 'f' then some (c.toNat - 'a'.toNat + 10)
  else if 'A' ≤ c ∧ c ≤ 'F' then some (c.toNat - 'A'.toNat + 10)
  else none

/-- Four hexadecimal digits, by value, and what follows them. -/
def hex4? : List Char → Option (Nat × List Char)
  | a :: b :: c :: d :: cs => do
    let n := 0x1000 * (← hexValue? a) + 0x100 * (← hexValue? b) + 0x10 * (← hexValue? c)
    some (n + (← hexValue? d), cs)
  | _ => none

/-- The first half of a surrogate pair. -/
def isHighHalf (n : Nat) : Bool := 0xD800 ≤ n && n ≤ 0xDBFF

/-- The second half of a surrogate pair. -/
def isLowHalf (n : Nat) : Bool := 0xDC00 ≤ n && n ≤ 0xDFFF

/-- The second half of a surrogate pair as an escape, by value, and what follows it. -/
def lowHalf? : List Char → Option (Nat × List Char)
  | '\x5c' :: 'u' :: cs => do
    let (n, rest) ← hex4? cs
    if isLowHalf n then some (n, rest) else none
  | _ => none

/-- The character an escape of one letter stands for. -/
def shortEscape? : Char → Option Char
  | '\x22' => some '\x22'
  | '\x5c' => some '\x5c'
  | '/' => some '/'
  | 'b' => some '\x08'
  | 'f' => some '\x0c'
  | 'n' => some '\n'
  | 'r' => some '\r'
  | 't' => some '\t'
  | _ => none

/-- The rest of a string after its opening quote, and what follows the closing one.  `seen` holds
the characters read so far, last first, and is lost once an escape names half a surrogate pair. -/
def stringBody : Nat → Option (List Char) → List Char → Option (Option String × List Char)
  | 0, _, _ => none
  | _ + 1, _, [] => none
  | fuel + 1, seen, c :: cs =>
    if c = '\x22' then some (seen.map fun s ↦ String.ofList s.reverse, cs)
    else if c = '\x5c' then
      match cs with
      | [] => none
      | 'u' :: cs =>
        match hex4? cs with
        | none => none
        | some (n, rest) =>
          if isHighHalf n then
            match lowHalf? rest with
            | some (m, rest') =>
              let code := 0x10000 + 0x400 * (n - 0xD800) + (m - 0xDC00)
              stringBody fuel (seen.map (Char.ofNat code :: ·)) rest'
            | none => stringBody fuel none rest
          else if isLowHalf n then stringBody fuel none rest
          else stringBody fuel (seen.map (Char.ofNat n :: ·)) rest
      | e :: cs =>
        match shortEscape? e with
        | some d => stringBody fuel (seen.map (d :: ·)) cs
        | none => none
    else if c.toNat < 0x20 then none
    else stringBody fuel (seen.map (c :: ·)) cs

/-- A run of digits and what follows it. -/
def digits (cs : List Char) : List Char × List Char :=
  (cs.takeWhile Char.isDigit, cs.dropWhile Char.isDigit)

/-- The digits before the point: a zero alone, or a run without a zero in front. -/
def wholePart? (cs : List Char) : Option (List Char × List Char) :=
  match digits cs with
  | ([], _) => none
  | (['0'], rest) => some (['0'], rest)
  | ('0' :: _ :: _, _) => none
  | (ds, rest) => some (ds, rest)

/-- The digits after the point, if there is one. -/
def fractionPart? : List Char → Option (List Char × List Char)
  | '.' :: cs =>
    match digits cs with
    | ([], _) => none
    | (ds, rest) => some (ds, rest)
  | cs => some ([], cs)

/-- The sign and the digits of an exponent. -/
def exponentDigits? (cs : List Char) : Option (Option (Bool × List Char) × List Char) :=
  let (negative, cs) :=
    match cs with
    | '-' :: cs => (true, cs)
    | '+' :: cs => (false, cs)
    | cs => (false, cs)
  match digits cs with
  | ([], _) => none
  | (ds, rest) => some (some (negative, ds), rest)

/-- The exponent, if there is one. -/
def exponentPart? : List Char → Option (Option (Bool × List Char) × List Char)
  | 'e' :: cs => exponentDigits? cs
  | 'E' :: cs => exponentDigits? cs
  | cs => some (none, cs)

/-- A number and what follows it. -/
def literal? (cs : List Char) : Option (Literal × List Char) := do
  let (negative, cs) :=
    match cs with
    | '-' :: cs => (true, cs)
    | cs => (false, cs)
  let (whole, cs) ← wholePart? cs
  let (fraction, cs) ← fractionPart? cs
  let (exponent, cs) ← exponentPart? cs
  some (⟨negative, whole, fraction, exponent⟩, cs)

/-! ## Values -/

mutual

/-- A value, which starts at the first character that is no blank, and what follows it. -/
def readValue : Nat → List Char → Option (Written × List Char)
  | 0, _ => none
  | fuel + 1, cs =>
    match skipSpace cs with
    | 'n' :: 'u' :: 'l' :: 'l' :: rest => some (.null, rest)
    | 't' :: 'r' :: 'u' :: 'e' :: rest => some (.bool true, rest)
    | 'f' :: 'a' :: 'l' :: 's' :: 'e' :: rest => some (.bool false, rest)
    | '\x22' :: rest =>
      match stringBody (rest.length + 1) (some []) rest with
      | some (text, rest) => some (.string text, rest)
      | none => none
    | '[' :: rest =>
      match skipSpace rest with
      | ']' :: rest => some (.array [], rest)
      | rest =>
        match readItems fuel [] rest with
        | some (items, rest) => some (.array items, rest)
        | none => none
    | '\x7b' :: rest =>
      match skipSpace rest with
      | '\x7d' :: rest => some (.object [], rest)
      | rest =>
        match readMembers fuel [] rest with
        | some (members, rest) => some (.object members, rest)
        | none => none
    | rest =>
      match literal? rest with
      | some (l, rest) => some (.number l, rest)
      | none => none

/-- The items of an array up to its closing bracket, after the ones in `seen`, last first. -/
def readItems : Nat → List Written → List Char → Option (List Written × List Char)
  | 0, _, _ => none
  | fuel + 1, seen, cs =>
    match readValue fuel cs with
    | none => none
    | some (v, rest) =>
      match skipSpace rest with
      | ',' :: rest => readItems fuel (v :: seen) rest
      | ']' :: rest => some ((v :: seen).reverse, rest)
      | _ => none

/-- The members of an object up to its closing brace, after the ones in `seen`, last first. -/
def readMembers : Nat → List (Option String × Written) → List Char →
    Option (List (Option String × Written) × List Char)
  | 0, _, _ => none
  | fuel + 1, seen, cs =>
    match skipSpace cs with
    | '\x22' :: rest =>
      match stringBody (rest.length + 1) (some []) rest with
      | none => none
      | some (name, rest) =>
        match skipSpace rest with
        | ':' :: rest =>
          match readValue fuel rest with
          | none => none
          | some (v, rest) =>
            match skipSpace rest with
            | ',' :: rest => readMembers fuel ((name, v) :: seen) rest
            | '\x7d' :: rest => some (((name, v) :: seen).reverse, rest)
            | _ => none
        | _ => none
    | _ => none

end

/-- A whole text: one value with nothing but blanks around it. -/
def parse (text : String) : Option Written :=
  let cs := text.toList
  match readValue (2 * cs.length + 2) cs with
  | some (v, rest) => if (skipSpace rest).isEmpty then some v else none
  | none => none

/-! ## Decoding -/

mutual

/-- The value of a text in which at most `depth` brackets may be open at once. -/
def value? : Nat → Written → Option Json
  | _, .null => some .null
  | _, .bool b => some (.bool b)
  | _, .number l => l.number?.map .number
  | _, .string text => text.map .string
  | 0, .array _ => none
  | depth + 1, .array items => (values? depth items).map .array
  | 0, .object _ => none
  | depth + 1, .object members => (members? depth [] members).map .object

/-- The values of the items of an array. -/
def values? : Nat → List Written → Option (List Json)
  | _, [] => some []
  | depth, v :: vs =>
    match value? depth v, values? depth vs with
    | some a, some as => some (a :: as)
    | _, _ => none

/-- The members of an object added to those in `seen`; of two members of one name the later one
counts. -/
def members? : Nat → List (String × Json) → List (Option String × Written) →
    Option (List (String × Json))
  | _, seen, [] => some seen
  | depth, seen, (name, v) :: ms =>
    match name, value? depth v with
    | some k, some a => members? depth (bindMember k a seen) ms
    | _, _ => none

end

end Written
end Jmm.Json
