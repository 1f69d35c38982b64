import Jmm.Decimal.Binary64
import Jmm.Text.Digits
import Jmm.Toml

/-!
# Numbers, truth values and dates of TOML

A value that is neither a string nor a collection is one run of letters, digits and the signs
`+ - _ . :`, and `scalar?` tells what such a run stands for.  Underscores may stand between digits;
an integer has to fit into 64 bits, and a number with a fraction must not exceed the largest double.
-/

set_option autoImplicit false

namespace Jmm.Toml

/-- The digits of a run in which single underscores may stand between digits. -/
def digitRun? (isDigit : Char → Bool) : List Char → Option (List Char)
  | [] => none
  | [c] => if isDigit c then some [c] else none
  | c :: '_' :: cs => if isDigit c then (digitRun? isDigit cs).map (c :: ·) else none
  | c :: d :: cs => if isDigit c then (digitRun? isDigit (d :: cs)).map (c :: ·) else none

/-- A run without zero in front, or a zero alone. -/
def plainDigits? (cs : List Char) : Option (List Char) :=
  (digitRun? Char.isDigit cs).filter fun ds ↦
    match ds with
    | '0' :: _ :: _ => false
    | _ => true

/-- The sign of a number, minus or not, and what follows it. -/
def sign : List Char → Bool × List Char
  | '-' :: cs => (true, cs)
  | '+' :: cs => (false, cs)
  | cs => (false, cs)

/-! ## Integers -/

/-- The value of a digit of any base up to sixteen. -/
def hexDigitValue (c : Char) : Nat :=
  if c.isDigit then c.toNat - '0'.toNat else c.toLower.toNat - 'a'.toNat + 10

/-- A run of digits of a base, by value. -/
def ofBase? (base : Nat) (cs : List Char) : Option Nat :=
  let isDigit (c : Char) : Bool :=
    (c.isDigit || ('a' ≤ c.toLower && c.toLower ≤ 'f')) && hexDigitValue c < base
  (digitRun? isDigit cs).map fun ds ↦ ds.foldl (fun n c ↦ base * n + hexDigitValue c) 0

/-- An integer that fits into 64 bits. -/
def fitting? (n : Int) : Option Int :=
  if Int64.minValue.toInt ≤ n ∧ n ≤ Int64.maxValue.toInt then some n else none

/-- An integer. -/
def integer? : List Char → Option Int
  | '0' :: 'x' :: cs => (ofBase? 16 cs).bind fun n ↦ fitting? n
  | '0' :: 'o' :: cs => (ofBase? 8 cs).bind fun n ↦ fitting? n
  | '0' :: 'b' :: cs => (ofBase? 2 cs).bind fun n ↦ fitting? n
  | cs =>
    let (negative, cs) := sign cs
    (plainDigits? cs).bind fun ds ↦
      let n : Int := Text.digitsValue ds
      fitting? (if negative then -n else n)

/-! ## Numbers with a fraction or an exponent -/

/-- Whether `digits · 10 ^ exponent` does not exceed the largest double. -/
def isFinite (digits : List Char) (exponent : Int) : Bool :=
  let n := Text.digitsValue digits
  if n = 0 then true
  else
    let size : Int := (toString n).length + exponent
    if size > 400 then false
    else if size < -400 then true
    else if 0 ≤ exponent then (Binary64.nearest (n * Nat.pow 10 exponent.toNat) 1).isSome
    else (Binary64.nearest n (Nat.pow 10 (-exponent).toNat)).isSome

/-- The exponent of a number, by value; zero for an empty text. -/
def exponent? : List Char → Option Int
  | [] => some 0
  | c :: cs =>
    if c = 'e' ∨ c = 'E' then
      let (negative, cs) := sign cs
      (digitRun? Char.isDigit cs).map fun ds ↦
        let n : Int := Text.digitsValue ds
        if negative then -n else n
    else none

/-- Whether a text without sign is a number with a fraction or an exponent, and a finite one if
`bounded` is set. -/
def isFraction (bounded : Bool) (cs : List Char) : Bool :=
  let isPart (c : Char) : Bool := c.isDigit || c == '_'
  let whole := cs.takeWhile isPart
  let read : Option (List Char × List Char × Int) :=
    match plainDigits? whole, cs.dropWhile isPart with
    | some ds, '.' :: rest => do
      let fraction ← digitRun? Char.isDigit (rest.takeWhile isPart)
      some (ds, fraction, ← exponent? (rest.dropWhile isPart))
    | some ds, c :: rest => do some (ds, [], ← exponent? (c :: rest))
    | _, _ => none
  match read with
  | some (ds, fraction, e) => !bounded || isFinite (ds ++ fraction) (e - fraction.length)
  | none => false

/-- Whether a text is a number with a fraction or an exponent, or one of the special values. -/
def isFloat (cs : List Char) : Bool :=
  let (negative, rest) := sign cs
  rest == ['i', 'n', 'f'] || rest == ['n', 'a', 'n'] || isFraction (!negative) rest

/-! ## Dates and times -/

/-- A number of two digits within bounds. -/
def twoDigits? (low high : Nat) (a b : Char) : Option Nat :=
  if a.isDigit && b.isDigit then
    let n := Text.digitsValue [a, b]
    if low ≤ n ∧ n ≤ high then some n else none
  else none

/-- The number of days of a month. -/
def daysIn (year month : Nat) : Nat :=
  if month = 2 then
    if year % 4 = 0 ∧ (year % 100 ≠ 0 ∨ year % 400 = 0) then 29 else 28
  else if month ∈ [4, 6, 9, 11] then 30 else 31

/-- What follows a date. -/
def afterDate? : List Char → Option (List Char)
  | a :: b :: c :: d :: '-' :: e :: f :: '-' :: g :: h :: rest => do
    if !([a, b, c, d].all Char.isDigit) then none
    let month ← twoDigits? 1 12 e f
    let _ ← twoDigits? 1 (daysIn (Text.digitsValue [a, b, c, d]) month) g h
    some rest
  | _ => none

/-- What follows a time of day. -/
def afterTime? : List Char → Option (List Char)
  | a :: b :: ':' :: c :: d :: ':' :: e :: f :: rest => do
    let _ ← twoDigits? 0 23 a b
    let _ ← twoDigits? 0 59 c d
    let _ ← twoDigits? 0 60 e f
    match rest with
    | '.' :: rest =>
      if (rest.takeWhile Char.isDigit).isEmpty then none else some (rest.dropWhile Char.isDigit)
    | rest => some rest
  | _ => none

/-- Whether a text is an offset from universal time, or empty. -/
def isOffset : List Char → Bool
  | [] => true
  | ['Z'] => true
  | ['z'] => true
  | [s, a, b, ':', c, d] =>
    (s == '+' || s == '-') && (twoDigits? 0 23 a b).isSome && (twoDigits? 0 59 c d).isSome
  | _ => false

/-- Whether a text is a date, a time of day, or both with or without offset. -/
def isDatetime (cs : List Char) : Bool :=
  match afterDate? cs with
  | some [] => true
  | some (c :: rest) =>
    (c == 'T' || c == 't' || c == ' ')
      && match afterTime? rest with
        | some rest => isOffset rest
        | none => false
  | none => afterTime? cs == some []

/-! ## Scalars -/

/-- What a run of characters stands for. -/
def scalar? (cs : List Char) : Option Toml :=
  if cs = ['t', 'r', 'u', 'e'] then some (.boolean true)
  else if cs = ['f', 'a', 'l', 's', 'e'] then some (.boolean false)
  else if isDatetime cs then some .datetime
  else if isFloat cs then some .float
  else (integer? cs).map .integer

/-- The characters that scalars are made of. -/
def isScalarChar (c : Char) : Bool :=
  c.isAlphanum || c == '+' || c == '-' || c == '_' || c == '.' || c == ':'

/-- The run of characters of a scalar, and what follows it.  A blank between a date and a time
belongs to it. -/
def scalarRun (cs : List Char) : List Char × List Char :=
  let run := cs.takeWhile isScalarChar
  let rest := cs.dropWhile isScalarChar
  match afterDate? run, rest with
  | some [], ' ' :: a :: b :: ':' :: more =>
    if a.isDigit && b.isDigit then
      let tail := a :: b :: ':' :: more
      (run ++ ' ' :: tail.takeWhile isScalarChar, tail.dropWhile isScalarChar)
    else (run, rest)
  | _, _ => (run, rest)

end Jmm.Toml
