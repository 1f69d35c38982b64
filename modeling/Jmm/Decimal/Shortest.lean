import Jmm.Decimal.Binary64

/-!
# The shortest decimal that reads back

`Decimal.shortest x` is the decimal with the fewest digits among those that round to the double
`x`, and the one nearest to `x` among the decimals of that length.  The decimals that round to `x`
form an interval around it, half a unit of the last place wide on either side; its ends belong to
it exactly when the significand is even.  For one digit, two digits and so on up to seventeen, the
two neighbours of `x` on the grid of that many digits are tested against the interval in exact
arithmetic, and the first grid with a hit wins.
-/

set_option autoImplicit false

namespace Jmm

/-- The number `digits · 10 ^ exponent`. -/
structure Decimal where
  digits : Nat
  exponent : Int
deriving DecidableEq, Repr, Inhabited

namespace Decimal

/-- The ends of the interval of reals that round to `x`, and `x` itself, all over one denominator:
`(low, value, high, den)`. -/
def interval (x : Binary64) : Nat × Nat × Nat × Nat :=
  let narrow := x.significand = Nat.pow 2 52 ∧ x.exponent ≠ Binary64.minExponent
  let low := if narrow then 4 * x.significand - 1 else 4 * x.significand - 2
  let s := Binary64.scaled 1 1 (2 - x.exponent)
  (low * s.1, 4 * x.significand * s.1, (4 * x.significand + 2) * s.1, s.2)

/-- The fraction `num / den` measured in units of `10 ^ g`. -/
def onGrid (num den : Nat) (g : Int) : Nat × Nat :=
  if 0 ≤ g then (num, den * Nat.pow 10 g.toNat) else (num * Nat.pow 10 (-g).toNat, den)

/-- The exponent of the first decimal digit of `num / den`, which is not zero. -/
def leading (num den : Nat) : Int :=
  let guess : Int := ((num.log2 : Int) - (den.log2 : Int)) * 1233 / 4096
  if (onGrid num den (guess + 1)).1 ≥ (onGrid num den (guess + 1)).2 then guess + 1
  else if (onGrid num den guess).1 ≥ (onGrid num den guess).2 then guess
  else guess - 1

/-- The neighbour of `x` on the grid of `10 ^ g` that rounds to `x`, if there is one. -/
def onGrid? (x : Binary64) (g : Int) : Option Nat :=
  let i := interval x
  let v := onGrid i.2.1 i.2.2.2 g
  let lowEnd := onGrid i.1 i.2.2.2 g
  let highEnd := onGrid i.2.2.1 i.2.2.2 g
  let closed := x.significand % 2 = 0
  let below := v.1 / v.2
  let above := below + 1
  let belowIn := if closed then lowEnd.1 ≤ below * v.2 else lowEnd.1 < below * v.2
  let aboveIn := if closed then above * v.2 ≤ highEnd.1 else above * v.2 < highEnd.1
  let nearBelow := 2 * (v.1 % v.2) < v.2 ∨ (2 * (v.1 % v.2) = v.2 ∧ below % 2 = 0)
  if belowIn ∧ 0 < below ∧ (nearBelow ∨ ¬ aboveIn) then some below
  else if aboveIn then some above else none

/-- The hit on the first grid that has one, from the grid of `10 ^ g` to finer ones, of which so
many are tried. -/
def search (x : Binary64) : Nat → Int → Decimal
  | 0, g => ⟨(onGrid? x g).getD 0, g⟩
  | finer + 1, g =>
    match onGrid? x g with
    | some d => ⟨d, g⟩
    | none => search x finer (g - 1)

/-- The same number without zeros at the end of its digits, given at most that many of them. -/
def stripZeros : Nat → Decimal → Decimal
  | 0, d => d
  | count + 1, d =>
    if d.digits ≠ 0 ∧ d.digits % 10 = 0 then stripZeros count ⟨d.digits / 10, d.exponent + 1⟩ else d

/-- The shortest decimal that rounds to the magnitude of `x`. -/
def shortest (x : Binary64) : Decimal :=
  if x.significand = 0 then ⟨0, 0⟩
  else
    let f := x.fraction
    let lead := leading f.1 f.2
    stripZeros 17 (search x 17 lead)

end Decimal
end Jmm
