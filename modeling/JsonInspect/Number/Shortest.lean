import JsonInspect.Number.Double

/-! The fewest decimal digits that read back as a given binary64 number. All decimals in an
interval around the number round to it; the first decimal grid with a point in the interval
gives the digits, and if both neighbours of the number lie in it the nearer one wins. -/

namespace JsonInspect

/-- The decimal `digits * 10 ^ exponent`. -/
structure Decimal where
  digits : Nat
  exponent : Int
deriving DecidableEq

namespace Decimal

/-- The same decimal without trailing zeros, `fuel` of them at most. -/
def stripZeros : Nat → Decimal → Decimal
  | 0, d => d
  | fuel + 1, d =>
    if d.digits ≠ 0 ∧ d.digits % 10 = 0 then stripZeros fuel ⟨d.digits / 10, d.exponent + 1⟩ else d

/-- The power of ten of the leading digit. -/
def leadingExponent (d : Decimal) : Int :=
  d.exponent + (Nat.toDigits 10 d.digits).length - 1

end Decimal

/-- The numbers that round to a value: from `(4 * m - below) / 4` to `(4 * m + 2) / 4` steps,
written over a common denominator. The ends belong to it when `m` is even. -/
structure RoundingInterval where
  low : Nat
  value : Nat
  high : Nat
  den : Nat
  closed : Bool

namespace RoundingInterval

/-- The step below a power of two is half the step above it, except at the smallest one. -/
def of (d : Double) : RoundingInterval :=
  let m := d.significand
  let below := if d.rank % Double.binade = 0 ∧ Double.binade < d.rank then 1 else 2
  let up := Nat.pow 2 (d.scale - 2).toNat
  let down := Nat.pow 2 (2 - d.scale).toNat
  ⟨(4 * m - below) * up, 4 * m * up, (4 * m + 2) * up, down, m % 2 = 0⟩

/-- Whether `num / den` lies in the interval. -/
def contains (r : RoundingInterval) (num den : Nat) : Bool :=
  let low := r.low * den
  let high := r.high * den
  let x := num * r.den
  if r.closed then low ≤ x && x ≤ high else low < x && x < high

/-- The power of ten of the leading digit of the value. -/
def leadingExponent (r : RoundingInterval) : Int :=
  if r.den ≤ r.value then (Nat.toDigits 10 (r.value / r.den)).length - 1
  else -((Nat.toDigits 10 (r.den / r.value)).length : Int)

/-- The point nearest to the value on the grid of step `10 ^ exponent`, if it or the other
neighbour lies in the interval. -/
def gridPoint? (r : RoundingInterval) (exponent : Int) : Option Decimal :=
  let up := Nat.pow 10 exponent.toNat
  let down := Nat.pow 10 (-exponent).toNat
  let num := r.value * down
  let den := r.den * up
  let below := num / den
  let above := below + 1
  let inside (n : Nat) : Bool := r.contains (n * up) down
  let rest := num % den
  let belowNearer : Bool := 2 * rest < den || (2 * rest == den && below % 2 == 0)
  let point :=
    if inside below && (belowNearer || !inside above) then some below
    else if inside above then some above
    else none
  point.map (⟨·, exponent⟩)

/-- Tries grids from `digits` digits upwards, `fuel` of them at most. -/
def firstGridPoint? (r : RoundingInterval) : Nat → Nat → Option Decimal
  | 0, _ => none
  | fuel + 1, digits =>
    match r.gridPoint? (r.leadingExponent - digits + 1) with
    | some d => some d
    | none => r.firstGridPoint? fuel (digits + 1)

end RoundingInterval

/-- The shortest decimal that reads back as the absolute value of a finite non-zero number.
Seventeen digits always suffice, so the default is not reached. -/
def Double.shortest (d : Double) : Decimal :=
  (((RoundingInterval.of d).firstGridPoint? 17 1).getD ⟨d.significand, 0⟩).stripZeros 17

end JsonInspect
