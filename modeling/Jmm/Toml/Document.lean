import Jmm.Toml.Quoted
import Jmm.Toml.Scalar
import Jmm.Toml.Table

/-!
# TOML documents

The reading of a whole document.  It is a sequence of lines, each of which is blank, binds a key, or
opens the table that the keys after it belong to.  Arrays may span lines; tables in braces may not.
No more than `maxNesting` arrays and tables in braces may be open at once, and no path may have more
keys than that.
-/

set_option autoImplicit false

namespace Jmm.Toml

/-- How many collections may be open at once. -/
def maxNesting : Nat := 79

/-- The characters after blanks, line ends and comments. -/
def skipLayout : Nat → List Char → List Char
  | 0, cs => cs
  | fuel + 1, cs =>
    let rest := skipComment (skipBlanks cs)
    match afterNewline? rest with
    | some rest => skipLayout fuel rest
    | none => skipBlanks cs

/-- A path of keys that is not too long. -/
def path? (cs : List Char) : Option (List String × List Char) :=
  (keyPath? (cs.length + 1) cs).filter fun p ↦ p.1.length ≤ maxNesting

mutual

/-- A value, and what follows it.  `nesting` collections may still be opened. -/
def readValue : Nat → Nat → List Char → Option (Toml × List Char)
  | 0, _, _ => none
  | fuel + 1, nesting, cs =>
    match cs with
    | '\x22' :: rest => (string? '\x22' rest).map fun (s, rest) ↦ (.string s, rest)
    | '\x27' :: rest => (string? '\x27' rest).map fun (s, rest) ↦ (.string s, rest)
    | '[' :: rest =>
      match nesting with
      | 0 => none
      | nesting + 1 =>
        (readItems fuel nesting [] rest).map fun (items, rest) ↦ (.array items, rest)
    | '\x7b' :: rest =>
      match nesting with
      | 0 => none
      | nesting + 1 =>
        match skipBlanks rest with
        | '\x7d' :: rest => some (.table [], rest)
        | rest =>
          (readPairs fuel nesting {} rest).map fun (t, rest) ↦ (t.item.toValue, rest)
    | cs =>
      let (run, rest) := scalarRun cs
      (scalar? run).map fun v ↦ (v, rest)

/-- The items of an array up to its closing bracket, after the ones in `seen`, last first. -/
def readItems : Nat → Nat → List Toml → List Char → Option (List Toml × List Char)
  | 0, _, _, _ => none
  | fuel + 1, nesting, seen, cs =>
    match skipLayout cs.length cs with
    | ']' :: rest => some (seen.reverse, rest)
    | rest =>
      match readValue fuel nesting rest with
      | none => none
      | some (v, rest) =>
        match skipLayout rest.length rest with
        | ',' :: rest => readItems fuel nesting (v :: seen) rest
        | ']' :: rest => some ((v :: seen).reverse, rest)
        | _ => none

/-- The entries of a table in braces up to its closing brace, added to a table. -/
def readPairs : Nat → Nat → Table → List Char → Option (Table × List Char)
  | 0, _, _, _ => none
  | fuel + 1, nesting, t, cs =>
    match path? cs with
    | none => none
    | some (path, rest) =>
      match skipBlanks rest with
      | '=' :: rest =>
        match readValue fuel nesting (skipBlanks rest) with
        | none => none
        | some (v, rest) =>
          match t.bindPath path.dropLast (path.getLastD "") v with
          | none => none
          | some t =>
            match skipBlanks rest with
            | ',' :: rest => readPairs fuel nesting t rest
            | '\x7d' :: rest => some (t, rest)
            | _ => none
      | _ => none

end

/-- What follows the end of a line, with blanks and a comment before it. -/
def lineEnd? (cs : List Char) : Option (List Char) :=
  match skipComment (skipBlanks cs) with
  | [] => some []
  | rest => afterNewline? rest

/-- The path of the table a header names, with blanks around it, and what follows the brackets that
close it. -/
def headerPath? (closing : List Char) (cs : List Char) : Option (List String × List Char) :=
  match path? cs with
  | none => none
  | some (path, rest) =>
    let rest := skipBlanks rest
    if rest.take closing.length = closing then some (path, rest.drop closing.length) else none

/-- A document read so far: the whole table, and the path of the table that keys belong to. -/
structure Reading where
  root : Table := {}
  path : List String := []

/-- What has been read with one more line, and what follows the line. -/
def readLine (r : Reading) (cs : List Char) : Option (Reading × List Char) :=
  match skipBlanks cs with
  | '[' :: '[' :: rest => do
    let (path, rest) ← headerPath? [']', ']'] rest
    let root ← r.root.appendTable path.dropLast (path.getLastD "")
    some (⟨root, path⟩, ← lineEnd? rest)
  | '[' :: rest => do
    let (path, rest) ← headerPath? [']'] rest
    let root ← r.root.defineTable path.dropLast (path.getLastD "")
    some (⟨root, path⟩, ← lineEnd? rest)
  | rest =>
    match lineEnd? rest with
    | some rest => some (r, rest)
    | none => do
      let (path, rest) ← path? rest
      match skipBlanks rest with
      | '=' :: rest =>
        let (v, rest) ← readValue (2 * rest.length + 2) maxNesting (skipBlanks rest)
        let root ←
          Table.within false (Table.bindPath path.dropLast (path.getLastD "") v) r.path r.root
        some (⟨root, r.path⟩, ← lineEnd? rest)
      | _ => none

/-- What has been read after all lines. -/
def readLines : Nat → Reading → List Char → Option Reading
  | _, r, [] => some r
  | 0, _, _ => none
  | fuel + 1, r, cs =>
    match readLine r cs with
    | some (r, rest) => readLines fuel r rest
    | none => none

/-- The entries of a document.  A byte order mark in front does not count. -/
def parse (text : String) : Option (List (String × Toml)) :=
  let cs :=
    match text.toList with
    | '\uFEFF' :: cs => cs
    | cs => cs
  (readLines (cs.length + 1) {} cs).map fun r ↦ entriesToValues r.root.entries

end Jmm.Toml
