/-
  LiveWorkspace/Decimal/Binary64.lean
  ===================================
  **Binary floating-point numbers in exact arithmetic.**

  A finite number of the 64-bit format is a mantissa below `2 ^ 53` times a power of
  two.  A decimal is read as the nearest such number, ties to the even mantissa; a
  number is written with the fewest digits that are read back as that number and,
  among those, the nearest ones.  Everything happens on natural numbers.
-/

namespace LiveWorkspace.Decimal

/-! ### Numbers -/

/-- A number of the format; a finite one is `mantissa * 2 ^ exponent`. -/
inductive Binary64 where
  | nan
  | infinite (negative : Bool)
  | finite (negative : Bool) (mantissa : Nat) (exponent : Int)
deriving DecidableEq, Repr

def leastExponent : Int := -1074

def greatestExponent : Int := 971

/-- Only the zeros are equal to zero. -/
def Binary64.isZero : Binary64 → Bool
  | .finite _ mantissa _ => mantissa == 0
  | _ => false

/-! ### Reading decimals -/

/-- A quotient rounded to the nearest natural number, ties to the even one. -/
def roundToEven (num den : Nat) : Nat :=
  let floor := num / den
  let twice := 2 * (num % den)
  if twice < den then floor
  else if den < twice then floor + 1
  else floor + floor % 2

/-- A quotient with a power of a base moved into the numerator or the denominator. -/
def shift (base : Nat) (power : Int) (num den : Nat) : Nat × Nat :=
  if 0 ≤ power then (num * base.pow power.toNat, den) else (num, den * base.pow (-power).toNat)

/-- The number nearest to a positive quotient. -/
def Binary64.ofQuotient (negative : Bool) (num den : Nat) : Binary64 :=
  let guess := (num.log2 : Int) - (den.log2 : Int) - 53
  let (n, d) := shift 2 (-guess) num den
  let exponent := max leastExponent (if n / d < Nat.pow 2 53 then guess else guess + 1)
  let (n, d) := shift 2 (-exponent) num den
  let mantissa := roundToEven n d
  let (mantissa, exponent) :=
    if mantissa = Nat.pow 2 53 then (Nat.pow 2 52, exponent + 1) else (mantissa, exponent)
  if greatestExponent < exponent then .infinite negative else .finite negative mantissa exponent

/-- The number of decimal digits of a natural number. -/
def digitCount (n : Nat) : Nat := (Nat.toDigits 10 n).length

/-- The number nearest to `digits * 10 ^ exponent`. What is far out of range is not
    computed. -/
def Binary64.ofDecimal (negative : Bool) (digits : Nat) (exponent : Int) : Binary64 :=
  let size := (digitCount digits : Int) + exponent
  if digits = 0 ∨ size < -330 then .finite negative 0 leastExponent
  else if 310 < size then .infinite negative
  else
    let (num, den) := shift 10 exponent digits 1
    .ofQuotient negative num den

/-! ### Writing decimals -/

/-- The decimals read back as `mantissa * 2 ^ exponent`, in quarters of the last
    binary place: from `low` to `high`, ends included when the mantissa is even. -/
structure Interval where
  low : Nat
  value : Nat
  high : Nat
  closed : Bool
  exponent : Int

/-- Below a power of two the numbers lie twice as close. -/
def Interval.around (mantissa : Nat) (exponent : Int) : Interval :=
  let lowGap := if mantissa = Nat.pow 2 52 ∧ leastExponent < exponent then 1 else 2
  ⟨4 * mantissa - lowGap, 4 * mantissa, 4 * mantissa + 2, mantissa % 2 == 0, exponent - 2⟩

/-- The number of digits before the decimal point of a positive quotient, negative for
    zeros behind the point. -/
def pointPosition (num den : Nat) : Int :=
  if den ≤ num then digitCount (num / den)
  else
    let above := (den + num - 1) / num
    1 - (digitCount (above - 1) : Int)

/-- The decimal `digits * 10 ^ place` nearest to the interval's value among those in
    the interval, for a given place. -/
def Interval.onGrid? (iv : Interval) (place : Int) : Option Nat :=
  let (unit, step) := shift 2 iv.exponent 1 1
  let (step, unit) := shift 10 place step unit
  let inside (digits : Nat) : Bool :=
    if iv.closed then iv.low * unit ≤ digits * step ∧ digits * step ≤ iv.high * unit
    else iv.low * unit < digits * step ∧ digits * step < iv.high * unit
  let below := iv.value * unit / step
  let above := below + 1
  match inside below, inside above with
  | true, true => if iv.value * unit - below * step ≤ above * step - iv.value * unit then some below else some above
  | true, false => some below
  | false, true => some above
  | false, false => none

/-- The shortest decimal that is read back as a positive number: its digits and the
    place of the last one. -/
def shortest (mantissa : Nat) (exponent : Int) : Nat × Int :=
  let (num, den) := shift 2 exponent mantissa 1
  let point := pointPosition num den
  let iv := Interval.around mantissa exponent
  ((List.range 17).findSome? fun (n : Nat) =>
    let place := point - ((n : Int) + 1)
    (iv.onGrid? place).map (·, place)).getD (0, 0)

/-- Digits in positional notation, without an exponent and without needless zeros. -/
def positional (digits : Nat) (place : Int) : String :=
  let ds := Nat.toDigits 10 digits
  let kept := (ds.reverse.dropWhile (· == '0')).reverse
  let place := place + (ds.length - kept.length : Nat)
  let whole := (kept.length : Int) + place
  String.ofList <|
    if 0 ≤ place then kept ++ List.replicate place.toNat '0'
    else if 0 < whole then kept.take whole.toNat ++ '.' :: kept.drop whole.toNat
    else '0' :: '.' :: List.replicate (-whole).toNat '0' ++ kept

/-- A number as text. A negative zero keeps its sign. -/
def Binary64.toText : Binary64 → String
  | .nan => "NaN"
  | .infinite negative => if negative then "-inf" else "inf"
  | .finite negative mantissa exponent =>
    let magnitude :=
      if mantissa = 0 then "0"
      else
        let (digits, place) := shortest mantissa exponent
        positional digits place
    if negative then "-" ++ magnitude else magnitude

end LiveWorkspace.Decimal
