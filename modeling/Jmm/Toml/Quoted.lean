import Jmm.Json.Written

/-!
# Strings and keys of TOML

Strings stand between double quotes, with escapes, or between single quotes, without; three quotes
on either side allow the string to span lines.  A key is a run of letters, digits, underscores and
dashes, or a string on one line; several keys joined by dots name a path.
-/

set_option autoImplicit false

namespace Jmm.Toml

/-! ## Blanks and line ends -/

/-- A blank within a line. -/
def isBlankChar (c : Char) : Bool := c == ' ' || c == '\t'

/-- The characters from the first that is no blank. -/
def skipBlanks (cs : List Char) : List Char := cs.dropWhile isBlankChar

/-- What follows the end of a line, if one is here. -/
def afterNewline? : List Char → Option (List Char)
  | '\n' :: cs => some cs
  | '\r' :: '\n' :: cs => some cs
  | _ => none

/-- A character that may stand in a comment. -/
def isCommentChar (c : Char) : Bool := c == '\t' || 0x20 ≤ c.toNat

/-- The characters after a comment, if one is here. -/
def skipComment : List Char → List Char
  | '#' :: cs => cs.dropWhile isCommentChar
  | cs => cs

/-- A character that may stand in a string as it is, quotes and backslash apart. -/
def isStringChar (c : Char) : Bool := c == '\t' || (0x20 ≤ c.toNat && c.toNat != 0x7F)

/-! ## Strings -/

/-- The value of a run of hexadecimal digits. -/
def hexValue? (cs : List Char) : Option Nat :=
  cs.foldlM (fun n c ↦ (Json.Written.hexValue? c).map fun d ↦ 16 * n + d) 0

/-- The character of a code point, which must not be half of a surrogate pair. -/
def scalarChar? (n : Nat) : Option Char :=
  if n < 0xD800 ∨ (0xDFFF < n ∧ n < 0x110000) then some (Char.ofNat n) else none

/-- The character an escape stands for, after its backslash, and what follows it. -/
def escape? : List Char → Option (Char × List Char)
  | 'b' :: cs => some ('\x08', cs)
  | 't' :: cs => some ('\t', cs)
  | 'n' :: cs => some ('\n', cs)
  | 'f' :: cs => some ('\x0c', cs)
  | 'r' :: cs => some ('\r', cs)
  | '\x22' :: cs => some ('\x22', cs)
  | '\x5c' :: cs => some ('\x5c', cs)
  | 'u' :: cs =>
    if cs.length < 4 then none
    else do some (← scalarChar? (← hexValue? (cs.take 4)), cs.drop 4)
  | 'U' :: cs =>
    if cs.length < 8 then none
    else do some (← scalarChar? (← hexValue? (cs.take 8)), cs.drop 8)
  | _ => none

/-- The rest of a string on one line after its opening quote, and what follows the closing one.
`seen` holds the characters read so far, last first. -/
def lineString (quote : Char) (escapes : Bool) :
    Nat → List Char → List Char → Option (String × List Char)
  | 0, _, _ => none
  | _ + 1, _, [] => none
  | fuel + 1, seen, c :: cs =>
    if c = quote then some (String.ofList seen.reverse, cs)
    else if escapes && c == '\x5c' then
      match escape? cs with
      | some (d, rest) => lineString quote escapes fuel (d :: seen) rest
      | none => none
    else if isStringChar c then lineString quote escapes fuel (c :: seen) cs
    else none

/-- The characters after blanks and line ends. -/
def skipLines : Nat → List Char → List Char
  | 0, cs => cs
  | fuel + 1, cs =>
    match afterNewline? (skipBlanks cs) with
    | some rest => skipLines fuel rest
    | none => skipBlanks cs

/-- The rest of a string over several lines after its opening quotes, and what follows the closing
ones.  Up to two quotes may stand before the closing three; a backslash at the end of a line joins
it with the next line that is not blank. -/
def textString (quote : Char) (escapes : Bool) :
    Nat → List Char → List Char → Option (String × List Char)
  | 0, _, _ => none
  | _ + 1, _, [] => none
  | fuel + 1, seen, c :: cs =>
    if c = quote then
      match cs with
      | q :: r :: rest =>
        if q = quote ∧ r = quote then
          let extra := (rest.takeWhile (· == quote)).take 2
          some (String.ofList (extra ++ seen).reverse, rest.drop extra.length)
        else textString quote escapes fuel (c :: seen) cs
      | _ => textString quote escapes fuel (c :: seen) cs
    else if escapes && c == '\x5c' then
      match afterNewline? (skipBlanks cs) with
      | some rest => textString quote escapes fuel seen (skipLines rest.length rest)
      | none =>
        match escape? cs with
        | some (d, rest) => textString quote escapes fuel (d :: seen) rest
        | none => none
    else
      match afterNewline? (c :: cs) with
      | some rest => textString quote escapes fuel ('\n' :: seen) rest
      | none => if isStringChar c then textString quote escapes fuel (c :: seen) cs else none

/-- A string of either kind after its first quote, and what follows it. -/
def string? (quote : Char) (cs : List Char) : Option (String × List Char) :=
  let escapes := quote == '\x22'
  match cs with
  | q :: r :: rest =>
    if q = quote ∧ r = quote then
      let rest := (afterNewline? rest).getD rest
      textString quote escapes (rest.length + 1) [] rest
    else lineString quote escapes (cs.length + 1) [] cs
  | _ => lineString quote escapes (cs.length + 1) [] cs

/-! ## Keys -/

/-- A character of a key without quotes. -/
def isKeyChar (c : Char) : Bool := c.isAlphanum || c == '_' || c == '-'

/-- A single key and what follows it. -/
def simpleKey? : List Char → Option (String × List Char)
  | '\x22' :: cs => lineString '\x22' true (cs.length + 1) [] cs
  | '\x27' :: cs => lineString '\x27' false (cs.length + 1) [] cs
  | cs =>
    let run := cs.takeWhile isKeyChar
    if run.isEmpty then none else some (String.ofList run, cs.dropWhile isKeyChar)

/-- Keys joined by dots with blanks around them, and what follows. -/
def keyPath? : Nat → List Char → Option (List String × List Char)
  | 0, _ => none
  | fuel + 1, cs =>
    match simpleKey? (skipBlanks cs) with
    | none => none
    | some (key, rest) =>
      match skipBlanks rest with
      | '.' :: rest => (keyPath? fuel rest).map fun (keys, rest) ↦ (key :: keys, rest)
      | rest => some ([key], rest)

end Jmm.Toml
