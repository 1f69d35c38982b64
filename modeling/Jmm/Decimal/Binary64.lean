/-!
# Double-precision numbers, exactly

A finite double is a sign and a value `significand · 2 ^ exponent`, and the operations here are
stated in exact arithmetic of natural numbers: `nearest num den` rounds the fraction `num / den` to
the nearest double, an exact tie going to the even significand, and products and quotients are
rounded fractions.  A value beyond the largest double has no result.
-/

set_option autoImplicit false

namespace Jmm

/-- A finite double.  The significand has at most 53 bits and the exponent is at least `-1074`;
unless the exponent is that smallest one, the significand has exactly 53 bits. -/
structure Binary64 where
  negative : Bool := false
  significand : Nat
  exponent : Int
deriving DecidableEq, Repr, Inhabited

namespace Binary64

/-- The smallest exponent. -/
def minExponent : Int := -1074

/-- The largest exponent. -/
def maxExponent : Int := 971

/-- The double zero. -/
def zero : Binary64 := ⟨false, 0, minExponent⟩

/-- `num / den` to the nearest natural number, a tie to the even one. -/
def roundHalfEven (num den : Nat) : Nat :=
  let q := num / den
  let r := num % den
  if 2 * r < den then q
  else if 2 * r > den then q + 1
  else if q % 2 = 0 then q else q + 1

/-- The fraction `(num / den) / 2 ^ q` as a numerator and a denominator. -/
def scaled (num den : Nat) (q : Int) : Nat × Nat :=
  if 0 ≤ q then (num, den * Nat.pow 2 q.toNat) else (num * Nat.pow 2 (-q).toNat, den)

/-- The exponent at which the fraction `num / den` has a significand of 53 bits. -/
def fullExponent (num den : Nat) : Int :=
  let q : Int := (Nat.log2 num : Int) - (Nat.log2 den : Int) - 52
  let s := scaled num den q
  if s.1 / s.2 < Nat.pow 2 52 then q - 1 else q

/-- The double nearest to `num / den`, none if it would exceed the largest one. -/
def nearest (num den : Nat) : Option Binary64 :=
  if num = 0 then some zero
  else
    let q := max minExponent (fullExponent num den)
    let s := scaled num den q
    let m := roundHalfEven s.1 s.2
    let carried := m = Nat.pow 2 53
    let m' := if carried then Nat.pow 2 52 else m
    let q' := if carried then q + 1 else q
    if q' > maxExponent then none else some ⟨false, m', q'⟩

/-- A double as a fraction of natural numbers, without its sign. -/
def fraction (x : Binary64) : Nat × Nat :=
  if 0 ≤ x.exponent then (x.significand * Nat.pow 2 x.exponent.toNat, 1)
  else (x.significand, Nat.pow 2 (-x.exponent).toNat)

/-- The rounded product of the magnitudes. -/
def mul (x y : Binary64) : Option Binary64 :=
  let a := x.fraction
  let b := y.fraction
  nearest (a.1 * b.1) (a.2 * b.2)

/-- The rounded quotient of the magnitudes. -/
def div (x y : Binary64) : Option Binary64 :=
  let a := x.fraction
  let b := y.fraction
  nearest (a.1 * b.2) (a.2 * b.1)

end Binary64
end Jmm
