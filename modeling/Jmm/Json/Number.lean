import Jmm.Decimal.Shortest
import Jmm.Text.Digits

/-!
# JSON numbers

A `Literal` is a number as written, a `Number` what it stands for.  An integer without fraction and
exponent that fits into 64 bits, signed or unsigned, stays an integer; every other literal, and the
literal `-0`, is a double.

A double is read in two steps: the leading digits are taken up as long as they fit into an unsigned
64-bit significand, and the significand is then multiplied or divided by a power of ten in double
arithmetic.  This is close to the nearest double but not always equal to it, since both the
conversion of the significand and the last operation round.  A literal beyond the largest double
stands for nothing.

A double is written with the fewest digits that read back, positionally as long as the point falls
within sixteen digits after the first one or four zeros before it, and with an exponent otherwise.
-/

set_option autoImplicit false

namespace Jmm.Json

/-- A number as written.  The fraction is empty when there is none; the exponent is its sign,
negative or not, and its digits. -/
structure Literal where
  negative : Bool := false
  whole : List Char
  fraction : List Char := []
  exponent : Option (Bool × List Char) := none
deriving DecidableEq, Repr, Inhabited

/-- What a literal stands for. -/
inductive Number where
  | integer (n : Int)
  | real (x : Binary64)
deriving DecidableEq, Repr, Inhabited

namespace Literal

/-- The significand grown by the digits that keep it below `2 ^ 64`, and the digits left over. -/
def absorb (significand : Nat) : List Char → Nat × List Char
  | [] => (significand, [])
  | c :: cs =>
    let next := 10 * significand + Text.digitValue c
    if next < UInt64.size then absorb next cs else (significand, c :: cs)

/-- The decimal exponent a literal writes out. -/
def writtenExponent (l : Literal) : Int :=
  match l.exponent with
  | none => 0
  | some (negative, digits) =>
    let n : Int := Text.digitsValue digits
    if negative then -n else n

/-- The significand and the power of ten that a literal amounts to. -/
def parts (l : Literal) : Nat × Int :=
  let whole := absorb 0 l.whole
  let fraction := absorb whole.1 l.fraction
  let taken := l.fraction.length - fraction.2.length
  (fraction.1, (whole.2.length : Int) - (taken : Int) + l.writtenExponent)

/-- The powers of ten that double arithmetic uses reach up to this exponent. -/
def tableExponent : Nat := 308

/-- `significand · 10 ^ exponent` by one or two operations on doubles. -/
def scale (significand : Nat) (exponent : Int) : Option Binary64 := do
  let x ← Binary64.nearest significand 1
  let step (k : Nat) := Binary64.nearest (Nat.pow 10 k) 1
  if exponent ≥ 0 then
    if exponent ≤ tableExponent then x.mul (← step exponent.toNat)
    else if significand = 0 then some x else none
  else
    let k := (-exponent).toNat
    if k ≤ tableExponent then x.div (← step k)
    else if k ≤ 2 * tableExponent then
      (← x.div (← step tableExponent)).div (← step (k - tableExponent))
    else some Binary64.zero

/-- The double a literal stands for. -/
def real? (l : Literal) : Option Binary64 :=
  let p := l.parts
  (scale p.1 p.2).map fun x ↦ { x with negative := l.negative }

/-- What a literal stands for. -/
def number? (l : Literal) : Option Number :=
  let whole := absorb 0 l.whole
  if l.fraction.isEmpty && l.exponent.isNone && whole.2.isEmpty then
    if !l.negative then some (.integer whole.1)
    else if 0 < whole.1 ∧ whole.1 ≤ Nat.pow 2 63 then some (.integer (-(whole.1 : Int)))
    else l.real?.map .real
  else l.real?.map .real

/-- A literal without minus sign, fraction and exponent whose value fits into 32 bits. -/
def unsigned32? (l : Literal) : Option Nat :=
  match l.number? with
  | some (.integer n) => if 0 ≤ n ∧ n < UInt32.size then some n.toNat else none
  | _ => none

end Literal

namespace Number

/-- A decimal is written positionally when at most so many digits stand before its point. -/
def mostWholeDigits : Int := 16

/-- A decimal below one is written positionally when fewer than so many zeros follow its point. -/
def tooManyZeros : Int := 5

/-- A decimal in positional or exponent form. -/
def decimalText (d : Decimal) : String :=
  let ds := (toString d.digits).toList
  let point : Int := (ds.length : Int) + d.exponent
  if 0 ≤ d.exponent ∧ point ≤ mostWholeDigits then
    String.ofList (ds ++ List.replicate d.exponent.toNat '0') ++ ".0"
  else if 0 < point ∧ point ≤ mostWholeDigits then
    String.ofList (ds.take point.toNat) ++ "." ++ String.ofList (ds.drop point.toNat)
  else if -tooManyZeros < point ∧ point ≤ 0 then
    "0." ++ String.ofList (List.replicate (-point).toNat '0' ++ ds)
  else if ds.length = 1 then String.ofList ds ++ "e" ++ toString (point - 1)
  else
    String.ofList (ds.take 1) ++ "." ++ String.ofList (ds.drop 1) ++ "e" ++ toString (point - 1)

/-- A number as JSON text. -/
def text : Number → String
  | .integer n => toString n
  | .real x => (if x.negative then "-" else "") ++ decimalText (Decimal.shortest x)

end Number
end Jmm.Json
