import Jmm.Text.Width

/-!
# Source text by lines and bytes

A text cut into lines, each with the byte it starts at.  A line ends with its newline, and a newline
at the end of the text opens a last, empty line.  Reports point into a text by bytes: `labelAt` is
the one byte at a line and column, cut off at the end of the line.
-/

set_option autoImplicit false

namespace Jmm.Report

/-- A line of a text with its number, counted from one, and the byte it starts at. -/
structure Line where
  number : Nat
  start : Nat
  chars : List Char
deriving DecidableEq, Repr, Inhabited

namespace Line

/-- The number of bytes of the line, its newline included. -/
def size (l : Line) : Nat := Text.byteSize l.chars

/-- The characters to show: without newline, carriage return and null characters at the end. -/
def shown (l : Line) : List Char :=
  (l.chars.reverse.dropWhile fun c ↦ c == '\n' || c == '\r' || c == '\x00').reverse

end Line

/-- The lines of characters: each ends with its newline, the last with the text. -/
def cutLines : List Char → List (List Char)
  | [] => [[]]
  | '\n' :: cs => ['\n'] :: cutLines cs
  | c :: cs =>
    match cutLines cs with
    | [] => [[c]]
    | l :: ls => (c :: l) :: ls

/-- Lines numbered from the given number and byte on. -/
def numbered : Nat → Nat → List (List Char) → List Line
  | _, _, [] => []
  | number, start, l :: ls =>
    ⟨number, start, l⟩ :: numbered (number + 1) (start + Text.byteSize l) ls

/-- A text cut into lines. -/
structure SourceText where
  lines : List Line
deriving DecidableEq, Repr, Inhabited

/-- A range of bytes. -/
structure Label where
  start : Nat
  stop : Nat
deriving DecidableEq, Repr, Inhabited

namespace SourceText

/-- The lines of a text. -/
def ofString (s : String) : SourceText := ⟨numbered 1 0 (cutLines s.toList)⟩

/-- The line of a number. -/
def line? (t : SourceText) (number : Nat) : Option Line :=
  t.lines.find? fun l ↦ l.number == number

/-- The line a byte is in: the last one that does not start after it. -/
def lineAt (t : SourceText) (byte : Nat) : Line :=
  ((t.lines.filter fun l ↦ l.start ≤ byte).getLast?).getD ⟨1, 0, []⟩

/-- The number of characters of a line that end at or before a byte. -/
def charsBefore (l : Line) (byte : Nat) : Nat :=
  ((Text.cells l.chars).filter fun c ↦ l.start + c.byte + c.char.utf8Size ≤ byte).length

/-- The byte at a line and column, none if there is no such line.  A column past the end of the line
gives the empty range there. -/
def labelAt (t : SourceText) (line column : Nat) : Option Label :=
  (t.line? line).map fun l ↦
    let start := l.start + min (column - 1) l.size
    ⟨start, max (min (start + 1) (l.start + l.size)) start⟩

end SourceText
end Jmm.Report
