import JsonInspect.Number.Rounding
import JsonInspect.Number.Shortest

/-! JSON numbers and their canonical text. Integers of 64 bits stay exact and everything else
is a binary64 number; equality is numeric across both. -/

namespace JsonInspect

inductive Number where
  | int (i : Int64)
  | double (d : Double)
deriving DecidableEq

/-- How the digits of a number that is not whole are laid out: the leading digit's exponents
that are written positionally; others get an exponent part with a sign. -/
structure DigitLayout where
  least : Int
  greatest : Int

namespace DigitLayout

def zeros (n : Nat) : List Char := List.replicate n '0'

/-- All digits with a point among them, after them or before them as the exponent says. -/
def positional (digits : List Char) (leading : Int) : List Char :=
  if leading < 0 then ['0', '.'] ++ zeros (-leading - 1).toNat ++ digits
  else
    let whole := leading.toNat + 1
    if digits.length ≤ whole then digits ++ zeros (whole - digits.length)
    else digits.take whole ++ '.' :: digits.drop whole

/-- One digit, a point if more follow, and the exponent with its sign. -/
def scientific (digits : List Char) (leading : Int) : List Char :=
  let rest := digits.drop 1
  digits.take 1 ++ (if rest.isEmpty then [] else '.' :: rest) ++
    'e' :: (if leading < 0 then '-' else '+') :: Nat.toDigits 10 leading.natAbs

def write (layout : DigitLayout) (d : Decimal) : List Char :=
  let digits := Nat.toDigits 10 d.digits
  let leading := d.leadingExponent
  if layout.least ≤ leading ∧ leading ≤ layout.greatest then positional digits leading
  else scientific digits leading

end DigitLayout

namespace Number

/-- Exponents -5 to 15 are written positionally. -/
def layout : DigitLayout := ⟨-5, 15⟩

def signed (negative : Bool) (digits : List Char) : List Char :=
  if negative then '-' :: digits else digits

/-- Decimal digits, after a minus sign for a negative integer. -/
def intChars (i : Int) : List Char := signed (i < 0) (Nat.toDigits 10 i.natAbs)

/-- Non-finite numbers read `null`, both zeros `0`, whole numbers below `10 ^ 21` have all
their digits, and the rest the fewest digits that read back. -/
def doubleChars (d : Double) : List Char :=
  if !d.isFinite then ['n', 'u', 'l', 'l']
  else if d.isZero then ['0']
  else match d.wholePart? with
    | some n =>
      if n < Nat.pow 10 21 then signed d.negative (Nat.toDigits 10 n)
      else signed d.negative (layout.write d.shortest)
    | none => signed d.negative (layout.write d.shortest)

def chars : Number → List Char
  | int i => intChars i.toInt
  | double d => doubleChars d

def text (n : Number) : String := String.ofList n.chars

def toDouble : Number → Double
  | int i => Double.ofInt i.toInt
  | double d => d

def isInteger : Number → Bool
  | int _ => true
  | double _ => false

/-- Integers are compared exactly, every other pair as binary64 numbers. -/
def same : Number → Number → Bool
  | int a, int b => a == b
  | a, b => a.toDouble.same b.toDouble

end Number

end JsonInspect
