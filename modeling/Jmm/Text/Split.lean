/-!
# Cutting text at separators

`splitWhen p` cuts a list of characters at every character that satisfies `p`, dropping the
separators and keeping empty pieces, so that the empty text has one empty piece.  On top of it
stand the segments of a dotted name, and the two operations on such names that class paths need:
the last segment, and the same name written with slashes.
-/

set_option autoImplicit false

namespace Jmm.Text

/-- The pieces of `cs` between the characters satisfying `p`; there is always at least one. -/
def splitWhen (p : Char → Bool) : List Char → List (List Char)
  | [] => [[]]
  | c :: cs =>
    if p c then [] :: splitWhen p cs
    else
      match splitWhen p cs with
      | [] => [[c]]
      | w :: ws => (c :: w) :: ws

theorem splitWhen_ne_nil (p : Char → Bool) (cs : List Char) : splitWhen p cs ≠ [] := by
  cases cs with
  | nil => simp [splitWhen]
  | cons c cs =>
    rw [splitWhen]
    split
    · simp
    · split <;> simp

/-- The segments of a dotted name. -/
def segments (name : String) : List String :=
  (splitWhen (· == '.') name.toList).map String.ofList

/-- The part of a dotted name after its last dot, the whole name if it has none. -/
def lastSegment (name : String) : String :=
  String.ofList (name.toList.reverse.takeWhile (· != '.')).reverse

/-- A dotted name with its segments put together by slashes. -/
def slashed (name : String) : String :=
  String.ofList (name.toList.map fun c ↦ if c == '.' then '/' else c)

/-- Segments put together by dots. -/
def dotted (path : List String) : String := ".".intercalate path

end Jmm.Text
