import Jmm.Text.WidthRanges

/-!
# Columns of a terminal

How many columns a character takes: none or two for those listed in the tables of ranges, one
otherwise.  Tabs reach to the next multiple of four.
-/

set_option autoImplicit false

namespace Jmm.Text

/-- Whether a code point lies in one of the ranges. -/
def inRanges (ranges : List (Nat × Nat)) (n : Nat) : Bool :=
  ranges.any fun r ↦ r.1 ≤ n && n ≤ r.2

/-- The distance between tab stops. -/
def tabWidth : Nat := 4

/-- The number of columns of a character that starts at the given column. -/
def width (column : Nat) (c : Char) : Nat :=
  if c = '\t' then tabWidth - column % tabWidth
  else if inRanges zeroWidthRanges c.toNat then 0
  else if inRanges wideRanges c.toNat then 2
  else 1

/-- A character with the byte it starts at and the columns it takes. -/
structure Cell where
  char : Char
  byte : Nat
  columns : Nat
deriving DecidableEq, Repr, Inhabited

/-- The cells of characters from a byte and a column on. -/
def cellsFrom : Nat → Nat → List Char → List Cell
  | _, _, [] => []
  | byte, column, c :: cs =>
    let w := width column c
    ⟨c, byte, w⟩ :: cellsFrom (byte + c.utf8Size) (column + w) cs

/-- The cells of a line. -/
def cells (cs : List Char) : List Cell := cellsFrom 0 0 cs

/-- The number of bytes of characters in UTF-8. -/
def byteSize (cs : List Char) : Nat := cs.foldl (fun n c ↦ n + c.utf8Size) 0

end Jmm.Text
