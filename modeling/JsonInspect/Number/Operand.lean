import JsonInspect.Number.Rounding
import JsonInspect.Text.Blank

/-! Numbers as people type them into a search: an optional sign, digits with a point before,
among or after them, and an optional exponent. -/

namespace JsonInspect.Operand

/-- Takes a sign, if there is one, and says whether it is a minus sign. -/
def sign : List Char → Bool × List Char
  | '+' :: rest => (false, rest)
  | '-' :: rest => (true, rest)
  | cs => (false, cs)

/-- The exponent that ends the text, zero if nothing is left of it. -/
def exponent? : List Char → Option Int
  | [] => some 0
  | c :: rest =>
    if c = 'e' ∨ c = 'E' then
      let (negative, digits) := sign rest
      if digits.isEmpty || !digits.all Char.isDigit then none
      else
        let n := Nat.ofDigitChars 10 digits 0
        some (if negative then -n else n)
    else none

/-- The number that a text without blanks stands for, rounded to the nearest. -/
def double? (cs : List Char) : Option Double :=
  let (negative, cs) := sign cs
  let whole := cs.takeWhile Char.isDigit
  let rest := cs.dropWhile Char.isDigit
  let (fraction, rest) :=
    match rest with
    | '.' :: rest => (rest.takeWhile Char.isDigit, rest.dropWhile Char.isDigit)
    | _ => ([], rest)
  if whole.isEmpty && fraction.isEmpty then none
  else (exponent? rest).map fun e =>
    Double.ofDecimal negative (Nat.ofDigitChars 10 (whole ++ fraction) 0) (e - fraction.length)

/-- The finite number that a text stands for, blanks at its ends apart. -/
def number? (s : String) : Option Double := (double? (trimChars s.toList)).filter Double.isFinite

end JsonInspect.Operand
