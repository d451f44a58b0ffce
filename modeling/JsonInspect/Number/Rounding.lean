import JsonInspect.Number.Double

/-! Rounding exact values to the nearest binary64 number. A tie goes to the even neighbour,
and what is too large becomes infinity. -/

namespace JsonInspect

/-- The integer nearest to `num / den`, the even one when two are equally near. -/
def roundEven (num den : Nat) : Nat :=
  let q := num / den
  let r := num % den
  if 2 * r < den ∨ (2 * r = den ∧ q % 2 = 0) then q else q + 1

/-- The exponent of the largest power of two that is at most `num / den`. -/
def floorLog2 (num den : Nat) : Int :=
  let k : Int := (Nat.log2 num : Int) - Nat.log2 den
  let reached : Bool :=
    if 0 ≤ k then decide (den * Nat.pow 2 k.toNat ≤ num)
    else decide (den ≤ num * Nat.pow 2 (-k).toNat)
  if reached then k else k - 1

namespace Double

/-- The binary64 number nearest to `num / den`. The step between its neighbours is
`2 ^ scale`, and ranks count those steps. -/
def nearest (negative : Bool) (num den : Nat) : Double :=
  if num = 0 then zero negative
  else
    let scale := max (-1074) (floorLog2 num den - 52)
    let steps :=
      if 0 ≤ scale then roundEven num (den * Nat.pow 2 scale.toNat)
      else roundEven (num * Nat.pow 2 (-scale).toNat) den
    clamped negative ((scale + 1074).toNat * binade + steps)

def ofInt (i : Int) : Double := nearest (i < 0) i.natAbs 1

/-- The binary64 number nearest to `digits * 10 ^ exponent`. A value of at least `10 ^ 310`
is infinite and one below `10 ^ (-330)` is zero, so no large power is computed for them. -/
def ofDecimal (negative : Bool) (digits : Nat) (exponent : Int) : Double :=
  if digits = 0 then zero negative
  else
    let magnitude := exponent + (Nat.toDigits 10 digits).length
    if 310 < magnitude then infinite negative
    else if magnitude < -330 then zero negative
    else if 0 ≤ exponent then nearest negative (digits * Nat.pow 10 exponent.toNat) 1
    else nearest negative digits (Nat.pow 10 (-exponent).toNat)

end Double

end JsonInspect
