/-! Binary64 numbers, held as a sign and the rank of the absolute value among all absolute
values. Ranks grow with the values they stand for, so order and equality are those of
integers, and the number above a given one has the next rank. -/

namespace JsonInspect

/-- The weight of the sign in a 64-bit pattern. Every rank is below it. -/
def Double.signBit : Nat := 0x8000000000000000

/-- A binary64 number. Ranks below `Double.infinityRank` are the finite absolute values in
ascending order, that rank is infinity, and the ranks above it are the NaNs. -/
structure Double where
  negative : Bool
  rank : Nat
  rank_lt : rank < Double.signBit
deriving DecidableEq

namespace Double

def infinityRank : Nat := 0x7FF0000000000000

/-- How many numbers there are from one power of two to the next. -/
def binade : Nat := 0x10000000000000

/-- The number of a sign and a rank, with every rank above infinity read as infinity. -/
def clamped (negative : Bool) (rank : Nat) : Double :=
  ⟨negative, min rank infinityRank, Nat.lt_of_le_of_lt (Nat.min_le_right _ _) (by decide)⟩

def zero (negative : Bool) : Double := ⟨negative, 0, by decide⟩

def infinite (negative : Bool) : Double := ⟨negative, infinityRank, by decide⟩

/-- The number that a 64-bit pattern stands for: the top bit is the sign. -/
def ofBits (bits : Nat) : Double :=
  ⟨bits / signBit % 2 == 1, bits % signBit, Nat.mod_lt _ (by decide)⟩

def toBits (d : Double) : Nat := (if d.negative then signBit else 0) + d.rank

def isNaN (d : Double) : Bool := infinityRank < d.rank

def isFinite (d : Double) : Bool := d.rank < infinityRank

def isZero (d : Double) : Bool := d.rank == 0

/-- The integer `m` of the exact absolute value `m * 2 ^ d.scale`. -/
def significand (d : Double) : Nat :=
  if d.rank < binade then d.rank else binade + d.rank % binade

def scale (d : Double) : Int :=
  if d.rank < binade then -1074 else (d.rank / binade : Nat) - 1075

/-- The exact absolute value when it is a whole number. -/
def wholePart? (d : Double) : Option Nat :=
  if 0 ≤ d.scale then some (d.significand * Nat.pow 2 d.scale.toNat)
  else
    let den := Nat.pow 2 (-d.scale).toNat
    if d.significand % den = 0 then some (d.significand / den) else none

/-- Ascending in the value, with both zeros at 0. -/
def orderKey (d : Double) : Int := if d.negative then -(d.rank : Int) else d.rank

/-- Numeric equality: the zeros are equal and a NaN equals nothing. -/
def same (a b : Double) : Bool := !a.isNaN && !b.isNaN && a.orderKey == b.orderKey

/-- Numeric order, false whenever a NaN takes part. -/
def less (a b : Double) : Bool := !a.isNaN && !b.isNaN && decide (a.orderKey < b.orderKey)

end Double

end JsonInspect
