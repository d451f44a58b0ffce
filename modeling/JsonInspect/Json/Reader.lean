import JsonInspect.Json.Basic
import JsonInspect.Json.Fault
import JsonInspect.Number.Operand
import JsonInspect.Text.Blank

/-! Reading JSON text. A reader takes a prefix of the characters and gives the rest back; a
fault says how much of the text was left where it was noticed. Nesting is bounded, so the
reader of values is defined by recursion on the depth that is still allowed. Repetitions recur
on `fuel`, the text in which they start: a step takes no more of it than of the text itself. -/

namespace JsonInspect.Json

/-- A reader of some part of a text. -/
abbrev Reader (α : Type) := List Char → Except Fault (α × List Char)

/-- A fault noticed just before `rest`. -/
def faultBefore {α : Type} (cause : Cause) (rest : List Char) : Except Fault α :=
  .error ⟨cause, utf8Length rest⟩

/-- A fault noticed after the first byte of `rest`, or at its end if it is empty. -/
def faultInside {α : Type} (cause : Cause) (rest : List Char) : Except Fault α :=
  .error ⟨cause, utf8Length rest - 1⟩

/-- The blanks between tokens. -/
def isGap (c : Char) : Bool := c == ' ' || c == '\t' || c == '\n' || c == '\r'

def skipGap (cs : List Char) : List Char := cs.dropWhile isGap

/-! ## Words -/

/-- Reads the letters of a word and gives `value`. -/
def word {α : Type} (value : α) : List Char → Reader α
  | [], cs => .ok (value, cs)
  | _ :: _, [] => faultBefore .endInValue []
  | e :: es, c :: cs => if c = e then word value es cs else faultInside .misspeltWord (c :: cs)

/-! ## Numbers -/

/-- The digits before the point: a lone zero, or digits that start with another one. -/
def wholeDigits : Reader (List Char)
  | [] => faultBefore .endInValue []
  | '0' :: c :: rest =>
    if c.isDigit then faultInside .badNumber (c :: rest) else .ok (['0'], c :: rest)
  | c :: rest =>
    if c.isDigit then .ok (c :: rest.takeWhile Char.isDigit, rest.dropWhile Char.isDigit)
    else faultInside .badNumber (c :: rest)

/-- The digits after a point, of which there has to be one. -/
def fractionDigits (cs : List Char) : Except Fault (List Char × List Char) :=
  match cs with
  | [] => faultBefore .endInValue []
  | c :: rest =>
    if c.isDigit then .ok (cs.takeWhile Char.isDigit, cs.dropWhile Char.isDigit)
    else faultInside .badNumber (c :: rest)

/-- The largest exponent that a number with a non-zero digit may have. -/
def greatestExponent : Nat := 2147483647

/-- Reads digits onto `n`. With `bounded`, stops at the digit that makes it too large. -/
def exponentDigits (bounded : Bool) (n : Nat) : Reader Nat
  | [] => .ok (n, [])
  | c :: rest =>
    if c.isDigit then
      let n := Nat.ofDigitChars 10 [c] n
      if bounded && greatestExponent < n then faultBefore .numberTooLarge rest
      else exponentDigits bounded n rest
    else .ok (n, c :: rest)

/-- The exponent after its letter. Zero has no exponent that is too large. -/
def exponent (isZero : Bool) (cs : List Char) : Except Fault (Int × List Char) :=
  let (negative, cs) := Operand.sign cs
  match cs with
  | [] => faultBefore .endInValue []
  | c :: rest =>
    if c.isDigit then do
      let (n, rest) ← exponentDigits (!negative && !isZero) 0 (c :: rest)
      .ok (if negative then -n else n, rest)
    else faultInside .badNumber (c :: rest)

/-- How many digits of a number are read as they are. -/
def exactDigits : Nat := 768

/-- The binary64 number nearest to a decimal with digits before and after its point. Zeros at its
start and at the end of its fraction do not count. Digits after the 768th count as a single one:
no binary64 number and no middle of two has more digits, so it is enough to know that there are
some. They count even if they are zeros, which makes a long whole number a little larger. -/
def nearestDouble (negative : Bool) (whole fraction : List Char) (exponent : Int) : Double :=
  let fraction := (fraction.reverse.dropWhile (· == '0')).reverse
  let digits := (whole ++ fraction).dropWhile (· == '0')
  let scale := exponent - fraction.length
  if digits.length ≤ exactDigits then
    Double.ofDecimal negative (Nat.ofDigitChars 10 digits 0) scale
  else
    Double.ofDecimal negative (Nat.ofDigitChars 10 (digits.take exactDigits ++ ['1']) 0)
      (scale + (digits.length - exactDigits - 1 : Nat))

/-- A binary64 number, unless it is too large for one. -/
def finiteNumber (d : Double) (rest : List Char) : Except Fault (Number × List Char) :=
  if d.isFinite then .ok (.double d, rest) else faultBefore .numberTooLarge rest

/-- A number without point or exponent: exact if 64 bits hold it, except for minus zero. -/
def wholeNumber (negative : Bool) (digits rest : List Char) :
    Except Fault (Number × List Char) :=
  let n := Nat.ofDigitChars 10 digits 0
  let i : Int := if negative then -n else n
  if Int64.minValue.toInt ≤ i ∧ i ≤ Int64.maxValue.toInt ∧ ¬(negative ∧ n = 0) then
    .ok (.int (Int64.ofInt i), rest)
  else finiteNumber (nearestDouble negative digits [] 0) rest

/-- Takes a minus sign, if there is one, and says whether there was. -/
def minus (cs : List Char) : Bool × List Char :=
  match cs with
  | '-' :: rest => (true, rest)
  | _ => (false, cs)

/-- The digits after the point, if there is a point. -/
def fractionPart (cs : List Char) : Except Fault (List Char × List Char) :=
  match cs with
  | '.' :: rest => fractionDigits rest
  | _ => .ok ([], cs)

/-- The number of some digits and of the exponent that may follow them. -/
def scaledNumber (negative : Bool) (whole fraction : List Char) (cs : List Char) :
    Except Fault (Number × List Char) :=
  let scaled (e : Int) := nearestDouble negative whole fraction e
  match cs with
  | c :: rest =>
    if c = 'e' ∨ c = 'E' then do
      let (e, rest) ← exponent ((whole ++ fraction).all (· == '0')) rest
      finiteNumber (scaled e) rest
    else if fraction.isEmpty then wholeNumber negative whole (c :: rest)
    else finiteNumber (scaled 0) (c :: rest)
  | [] =>
    if fraction.isEmpty then wholeNumber negative whole [] else finiteNumber (scaled 0) []

def number (cs : List Char) : Except Fault (Number × List Char) := do
  let (negative, cs) := minus cs
  let (whole, cs) ← wholeDigits cs
  let (digits, cs) ← fractionPart cs
  scaledNumber negative whole digits cs

/-! ## Strings -/

def hexValue? (c : Char) : Option Nat :=
  if '0' ≤ c ∧ c ≤ '9' then some (c.toNat - 48)
  else if 'a' ≤ c ∧ c ≤ 'f' then some (c.toNat - 87)
  else if 'A' ≤ c ∧ c ≤ 'F' then some (c.toNat - 55)
  else none

/-- Refuses what stands where four hexadecimal digits should. Fewer than four bytes are an
unfinished string; any other four bytes are taken first. -/
def badUnit {α : Type} (cs : List Char) : Except Fault α :=
  if utf8Length cs < 4 then faultBefore .endInString []
  else .error ⟨.badEscape, utf8Length cs - 4⟩

/-- Four hexadecimal digits. -/
def hexUnit (cs : List Char) : Except Fault (Nat × List Char) :=
  match cs with
  | a :: b :: c :: d :: rest =>
    match hexValue? a, hexValue? b, hexValue? c, hexValue? d with
    | some a, some b, some c, some d => .ok (((a * 16 + b) * 16 + c) * 16 + d, rest)
    | _, _, _, _ => badUnit cs
  | _ => badUnit cs

/-- Takes the one character that must follow the first half of a surrogate pair. -/
def pairMark (mark : Char) : Reader Unit
  | [] => faultBefore .endInString []
  | c :: rest => if c = mark then .ok ((), rest) else faultInside .halfSurrogatePair (c :: rest)

/-- The character of a `u` escape: one unit, or the two units of a surrogate pair. -/
def unicodeEscape (cs : List Char) : Except Fault (Char × List Char) := do
  let (unit, rest) ← hexUnit cs
  if 0xDC00 ≤ unit ∧ unit ≤ 0xDFFF then faultBefore .loneSurrogate rest
  else if unit < 0xD800 ∨ 0xDBFF < unit then .ok (Char.ofNat unit, rest)
  else do
    let (_, rest) ← pairMark '\\' rest
    let (_, rest) ← pairMark 'u' rest
    let (second, rest) ← hexUnit rest
    if second < 0xDC00 ∨ 0xDFFF < second then faultBefore .loneSurrogate rest
    else .ok (Char.ofNat (0x10000 + (unit - 0xD800) * 0x400 + (second - 0xDC00)), rest)

/-- The character of an escape, after its backslash. -/
def escaped : Reader Char
  | [] => faultBefore .endInString []
  | c :: rest =>
    if c = '"' then .ok ('"', rest)
    else if c = '\\' then .ok ('\\', rest)
    else if c = '/' then .ok ('/', rest)
    else if c = 'b' then .ok ('\x08', rest)
    else if c = 'f' then .ok ('\x0c', rest)
    else if c = 'n' then .ok ('\n', rest)
    else if c = 'r' then .ok ('\r', rest)
    else if c = 't' then .ok ('\t', rest)
    else if c = 'u' then unicodeEscape rest
    else faultInside .badEscape (c :: rest)

/-- The characters of a string up to its closing quote. -/
def stringChars : List Char → Reader (List Char)
  | _ :: fuel, c :: rest =>
    if c = '"' then .ok ([], rest)
    else if c = '\\' then do
      let (c, rest) ← escaped rest
      let (cs, rest) ← stringChars fuel rest
      .ok (c :: cs, rest)
    else if c.toNat < 0x20 then faultInside .controlInString (c :: rest)
    else do
      let (cs, rest) ← stringChars fuel rest
      .ok (c :: cs, rest)
  | _, _ => faultBefore .endInString []

/-- A string after its opening quote. -/
def string (cs : List Char) : Except Fault (String × List Char) := do
  let (text, rest) ← stringChars cs cs
  .ok (String.ofList text, rest)

/-! ## Containers -/

/-- One or more elements and the closing bracket. -/
def elements (read : Reader Json) : List Char → Reader (List Json)
  | [], cs => faultBefore .endInArray cs
  | _ :: fuel, cs => do
    let (item, rest) ← read cs
    match skipGap rest with
    | [] => faultBefore .endInArray []
    | ']' :: rest => .ok ([item], rest)
    | ',' :: rest =>
      match skipGap rest with
      | [] => faultBefore .endInValue []
      | ']' :: rest => faultInside .commaBeforeEnd (']' :: rest)
      | rest => do
        let (items, rest) ← elements read fuel rest
        .ok (item :: items, rest)
    | rest => faultInside .noCommaInArray rest

/-- An array after its opening bracket. -/
def array (read : Reader Json) (cs : List Char) : Except Fault (Json × List Char) :=
  match skipGap cs with
  | [] => faultBefore .endInArray []
  | ']' :: rest => .ok (arr [], rest)
  | rest => do
    let (items, rest) ← elements read rest rest
    .ok (arr items, rest)

/-- A key after its opening quote, the colon and the value. -/
def member (read : Reader Json) (cs : List Char) :
    Except Fault ((String × Json) × List Char) := do
  let (key, rest) ← string cs
  match skipGap rest with
  | [] => faultBefore .endInObject []
  | ':' :: rest => do
    let (child, rest) ← read rest
    .ok ((key, child), rest)
  | rest => faultInside .noColon rest

/-- One or more members, the first after its opening quote, and the closing brace. -/
def members (read : Reader Json) : List Char → Reader (List (String × Json))
  | [], cs => faultBefore .endInObject cs
  | _ :: fuel, cs => do
    let (pair, rest) ← member read cs
    match skipGap rest with
    | [] => faultBefore .endInObject []
    | '\x7d' :: rest => .ok ([pair], rest)
    | ',' :: rest =>
      match skipGap rest with
      | [] => faultBefore .endInValue []
      | '"' :: rest => do
        let (pairs, rest) ← members read fuel rest
        .ok (pair :: pairs, rest)
      | '\x7d' :: rest => faultInside .commaBeforeEnd ('\x7d' :: rest)
      | rest => faultInside .keyNotQuoted rest
    | rest => faultInside .noCommaInObject rest

/-- An object after its opening brace. A repeated key keeps its last value at its first
position. -/
def object (read : Reader Json) (cs : List Char) : Except Fault (Json × List Char) :=
  match skipGap cs with
  | [] => faultBefore .endInObject []
  | '\x7d' :: rest => .ok (obj [], rest)
  | '"' :: rest => do
    let (pairs, rest) ← members read ('"' :: rest) rest
    .ok (obj (Entries.ofPairs pairs), rest)
  | rest => faultInside .keyNotQuoted rest

/-! ## Values -/

/-- A value whose containers' children are read by `nested`, or that may hold no container. -/
def valueWith (nested : Option (Reader Json)) (cs : List Char) :
    Except Fault (Json × List Char) :=
  match skipGap cs with
  | [] => faultBefore .endInValue []
  | c :: rest =>
    if c = 'n' then word null ['u', 'l', 'l'] rest
    else if c = 't' then word (bool true) ['r', 'u', 'e'] rest
    else if c = 'f' then word (bool false) ['a', 'l', 's', 'e'] rest
    else if c = '-' ∨ c.isDigit then do
      let (n, rest) ← number (c :: rest)
      .ok (num n, rest)
    else if c = '"' then do
      let (s, rest) ← string rest
      .ok (str s, rest)
    else if c = '[' then
      match nested with
      | none => faultInside .tooDeep (c :: rest)
      | some read => array read rest
    else if c = '\x7b' then
      match nested with
      | none => faultInside .tooDeep (c :: rest)
      | some read => object read rest
    else faultInside .noValue (c :: rest)

/-- A value with at most `depth` containers nested in each other. -/
def value : Nat → Reader Json
  | 0 => valueWith none
  | depth + 1 => valueWith (some (value depth))

/-- How many containers may be nested in each other. -/
def greatestDepth : Nat := 127

/-- A text that is one value and gaps around it. -/
def document (cs : List Char) : Except Fault Json := do
  let (v, rest) ← value greatestDepth cs
  match skipGap rest with
  | [] => .ok v
  | rest => faultInside .trailingText rest

/-- Reads a whole text as one value. -/
def read (text : String) : Except ReadError Json :=
  (document text.toList).mapError (ReadError.ofFault text.toList)

/-- Reads a text after trimming every kind of blank character from its ends. -/
def parse (text : String) : Except ReadError Json := read (trim text)

end JsonInspect.Json
