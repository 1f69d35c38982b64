/-!
# Runs of decimal digits

The value of a run of ASCII digits, and the reading of a whole text as a 32-bit integer: an
optional sign, at least one digit, nothing else, and a value that fits.
-/

set_option autoImplicit false

namespace Jmm.Text

/-- The value of an ASCII digit. -/
def digitValue (c : Char) : Nat := c.toNat - '0'.toNat

/-- The value of a run of decimal digits. -/
def digitsValue (cs : List Char) : Nat := cs.foldl (fun n c ↦ 10 * n + digitValue c) 0

/-- A non-empty run of decimal digits, by value. -/
def natural? (cs : List Char) : Option Nat :=
  if cs.isEmpty || !cs.all Char.isDigit then none else some (digitsValue cs)

/-- A decimal integer with an optional sign, by value. -/
def integer? : List Char → Option Int
  | '-' :: cs => (natural? cs).map fun n ↦ -(n : Int)
  | '+' :: cs => (natural? cs).map fun n ↦ (n : Int)
  | cs => (natural? cs).map fun n ↦ (n : Int)

/-- A decimal integer with an optional sign that fits into 32 bits. -/
def int32? (text : String) : Option Int32 :=
  match integer? text.toList with
  | some n =>
    if Int32.minValue.toInt ≤ n ∧ n ≤ Int32.maxValue.toInt then some (Int32.ofInt n) else none
  | none => none

/-- A 32-bit integer in decimal. -/
def int32Text (n : Int32) : String := toString n.toInt

end Jmm.Text
