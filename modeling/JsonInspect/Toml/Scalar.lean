import JsonInspect.Number.Rounding
import JsonInspect.Toml.Value

/-! The words of TOML: blanks and comments, keys, strings, numbers and dates. A reader takes a
prefix of the characters and gives the rest back, or fails. -/

namespace JsonInspect.Toml

abbrev Reader (α : Type) := List Char → Option (α × List Char)

/-! ## Blanks, comments and line ends -/

def isSpace (c : Char) : Bool := c == ' ' || c == '\t'

def skipSpaces (cs : List Char) : List Char := cs.dropWhile isSpace

/-- The characters of comments: the tab and everything but control characters. -/
def isCommentChar (c : Char) : Bool := c == '\t' || (0x20 ≤ c.toNat && c.toNat != 0x7F)

/-- Takes the end of a line. -/
def newline? : List Char → Option (List Char)
  | '\n' :: rest => some rest
  | '\r' :: '\n' :: rest => some rest
  | _ => none

/-- Drops a comment, if one starts here. -/
def skipComment : List Char → List Char
  | '#' :: rest => rest.dropWhile isCommentChar
  | cs => cs

/-- Takes what may follow a statement: spaces, a comment, and the end of the line or text. -/
def lineEnd? (cs : List Char) : Option (List Char) :=
  match skipComment (skipSpaces cs) with
  | [] => some []
  | rest => newline? rest

/-- Drops spaces, line ends and comments, each comment up to the end of its line. -/
def skipLines : Nat → List Char → Option (List Char)
  | 0, cs => some cs
  | fuel + 1, cs =>
    match skipSpaces cs with
    | '#' :: rest => (newline? (rest.dropWhile isCommentChar)).bind (skipLines fuel)
    | '\n' :: rest => skipLines fuel rest
    | '\r' :: rest => (newline? ('\r' :: rest)).bind (skipLines fuel)
    | rest => some rest

def skipBlankLines (cs : List Char) : Option (List Char) := skipLines cs.length cs

/-! ## Strings -/

def hexDigit? (c : Char) : Option Nat :=
  if '0' ≤ c ∧ c ≤ '9' then some (c.toNat - 48)
  else if 'a' ≤ c ∧ c ≤ 'f' then some (c.toNat - 87)
  else if 'A' ≤ c ∧ c ≤ 'F' then some (c.toNat - 55)
  else none

/-- A number of exactly `count` hexadecimal digits, read onto `n`. -/
def hexNumber? : Nat → Nat → Reader Nat
  | 0, n, cs => some (n, cs)
  | _ + 1, _, [] => none
  | count + 1, n, c :: rest =>
    match hexDigit? c with
    | some d => hexNumber? count (16 * n + d) rest
    | none => none

/-- The character of a number of `count` hexadecimal digits, which must not be a surrogate. -/
def hexChar? (count : Nat) (cs : List Char) : Option (Char × List Char) := do
  let (n, rest) ← hexNumber? count 0 cs
  if n.isValidChar then some (Char.ofNat n, rest) else none

/-- The character of an escape, after its backslash. -/
def escaped? : Reader Char
  | 'b' :: rest => some ('\x08', rest)
  | 't' :: rest => some ('\t', rest)
  | 'n' :: rest => some ('\n', rest)
  | 'f' :: rest => some ('\x0c', rest)
  | 'r' :: rest => some ('\r', rest)
  | '"' :: rest => some ('"', rest)
  | '\\' :: rest => some ('\\', rest)
  | 'u' :: rest => hexChar? 4 rest
  | 'U' :: rest => hexChar? 8 rest
  | _ => none

/-- The rest of a basic string, `fuel` characters at most. -/
def basicChars : Nat → Reader (List Char)
  | 0, _ => none
  | _ + 1, [] => none
  | fuel + 1, c :: rest =>
    if c = '"' then some ([], rest)
    else if c = '\\' then do
      let (c, rest) ← escaped? rest
      let (cs, rest) ← basicChars fuel rest
      some (c :: cs, rest)
    else if isCommentChar c then do
      let (cs, rest) ← basicChars fuel rest
      some (c :: cs, rest)
    else none

/-- The rest of a literal string. -/
def literalChars : Reader (List Char)
  | [] => none
  | c :: rest =>
    if c = '\'' then some ([], rest)
    else if isCommentChar c then do
      let (cs, rest) ← literalChars rest
      some (c :: cs, rest)
    else none

/-- The number of quotes that a text starts with. -/
def quoteRun (quote : Char) (cs : List Char) : Nat := (cs.takeWhile (· == quote)).length

/-- Drops spaces and line ends. -/
def skipFold : List Char → List Char
  | '\r' :: '\n' :: rest => skipFold rest
  | c :: rest => if isSpace c || c == '\n' then skipFold rest else c :: rest
  | [] => []

/-- What follows a line end after a backslash, spaces and further line ends dropped. -/
def foldedLine? (cs : List Char) : Option (List Char) :=
  (newline? (skipSpaces cs)).map skipFold

/-- The rest of a string over several lines, `fuel` characters at most. The last three quotes
of a run of three to five end it; fewer are part of it. -/
def multilineChars (quote : Char) (escapes : Bool) : Nat → Reader (List Char)
  | 0, _ => none
  | _ + 1, [] => none
  | fuel + 1, c :: rest =>
    if c = quote then
      let run := quoteRun quote (c :: rest)
      if 3 ≤ run then
        let inside := min (run - 3) 2
        some (List.replicate inside quote, (c :: rest).drop (inside + 3))
      else do
        let (cs, rest) ← multilineChars quote escapes fuel rest
        some (c :: cs, rest)
    else if c = '\\' ∧ escapes then
      match foldedLine? rest with
      | some rest => multilineChars quote escapes fuel rest
      | none => do
        let (c, rest) ← escaped? rest
        let (cs, rest) ← multilineChars quote escapes fuel rest
        some (c :: cs, rest)
    else match newline? (c :: rest) with
      | some rest => do
        let (cs, rest) ← multilineChars quote escapes fuel rest
        some ('\n' :: cs, rest)
      | none =>
        if isCommentChar c then do
          let (cs, rest) ← multilineChars quote escapes fuel rest
          some (c :: cs, rest)
        else none

/-- A string over several lines after its opening quotes; a line end right after them is not
part of it. -/
def multiline? (quote : Char) (escapes : Bool) (cs : List Char) :
    Option (List Char × List Char) :=
  let cs := (newline? cs).getD cs
  multilineChars quote escapes (cs.length + 1) cs

/-- A string of one of the four kinds. -/
def string? : Reader (List Char)
  | '"' :: '"' :: '"' :: rest => multiline? '"' true rest
  | '"' :: rest => basicChars (rest.length + 1) rest
  | '\'' :: '\'' :: '\'' :: rest => multiline? '\'' false rest
  | '\'' :: rest => literalChars rest
  | _ => none

/-! ## Keys -/

def isBareKeyChar (c : Char) : Bool := c.isAlphanum || c == '_' || c == '-'

/-- One part of a key: bare, or a string on one line. -/
def keyPart? : Reader String
  | '"' :: rest => do
    let (cs, rest) ← basicChars (rest.length + 1) rest
    some (String.ofList cs, rest)
  | '\'' :: rest => do
    let (cs, rest) ← literalChars rest
    some (String.ofList cs, rest)
  | cs =>
    let part := cs.takeWhile isBareKeyChar
    if part.isEmpty then none else some (String.ofList part, cs.dropWhile isBareKeyChar)

/-- How many parts a key may have, and how many containers may be nested in each other. -/
def greatestDepth : Nat := 79

/-- Parts with dots between them and spaces around them, `fuel` parts at most. -/
def keyParts? : Nat → Reader (List String)
  | 0, _ => none
  | fuel + 1, cs => do
    let (part, rest) ← keyPart? (skipSpaces cs)
    match skipSpaces rest with
    | '.' :: rest => do
      let (parts, rest) ← keyParts? fuel rest
      some (part :: parts, rest)
    | rest => some ([part], rest)

def key? (cs : List Char) : Option (List String × List Char) := keyParts? greatestDepth cs

/-! ## Numbers -/

/-- Takes a sign and says whether it is a minus sign. -/
def sign : List Char → Option Bool × List Char
  | '+' :: rest => (some false, rest)
  | '-' :: rest => (some true, rest)
  | cs => (none, cs)

/-- Digits of some kind, single underscores between them, read after a first digit. -/
def moreDigits (isDigit : Char → Bool) : Reader (List Char)
  | '_' :: c :: rest =>
    if isDigit c then do
      let (cs, rest) ← moreDigits isDigit rest
      some (c :: cs, rest)
    else none
  | ['_'] => none
  | c :: rest =>
    if isDigit c then do
      let (cs, rest) ← moreDigits isDigit rest
      some (c :: cs, rest)
    else some ([], c :: rest)
  | [] => some ([], [])

def digits? (isDigit : Char → Bool) : Reader (List Char)
  | [] => none
  | c :: rest =>
    if isDigit c then do
      let (cs, rest) ← moreDigits isDigit rest
      some (c :: cs, rest)
    else none

/-- Decimal digits without leading zeros. -/
def decimal? : Reader (List Char)
  | '0' :: rest => some (['0'], rest)
  | cs => digits? Char.isDigit cs

/-- An integer, if 64 bits hold it. -/
def integerOf? (i : Int) : Option Value :=
  if Int64.minValue.toInt ≤ i ∧ i ≤ Int64.maxValue.toInt then some (.integer i) else none

def isHexDigit (c : Char) : Bool := (hexDigit? c).isSome

def isOctalDigit (c : Char) : Bool := '0' ≤ c && c ≤ '7'

def isBinaryDigit (c : Char) : Bool := c == '0' || c == '1'

/-- The digits of a number in some base, after its two characters that name the base. -/
def based? (base : Nat) (isDigit : Char → Bool) (cs : List Char) :
    Option (Value × List Char) := do
  let (ds, rest) ← digits? isDigit cs
  let v ← integerOf? (ds.foldl (fun n c => base * n + (hexDigit? c).getD 0) 0 : Nat)
  some (v, rest)

/-- The fraction of a float: none without a point. -/
def fraction? : Reader (Option (List Char))
  | '.' :: rest => do
    let (ds, rest) ← digits? Char.isDigit rest
    some (some ds, rest)
  | cs => some (none, cs)

/-- The exponent of a float: none without its letter. -/
def exponent? : Reader (Option Int)
  | c :: rest =>
    if c = 'e' ∨ c = 'E' then do
      let (negative, rest) := sign rest
      let (ds, rest) ← digits? Char.isDigit rest
      let n := Nat.ofDigitChars 10 ds 0
      some (some (if negative = some true then -n else n), rest)
    else some (none, c :: rest)
  | [] => some (none, [])

/-- A float or integer in decimal digits. A float must not be too large for a positive one. -/
def number? (cs : List Char) : Option (Value × List Char) := do
  let (sign, rest) := sign cs
  let negative : Bool := sign = some true
  let (whole, rest) ← decimal? rest
  let (fraction, rest) ← fraction? rest
  let (exponent, rest) ← exponent? rest
  if fraction.isNone && exponent.isNone then do
    let n := Nat.ofDigitChars 10 whole 0
    let v ← integerOf? (if negative then -n else n)
    some (v, rest)
  else
    let part := fraction.getD []
    let d := Double.ofDecimal negative (Nat.ofDigitChars 10 (whole ++ part) 0)
      (exponent.getD 0 - part.length)
    if d = Double.infinite false then none else some (.float, rest)

/-- One of the words for infinity and for no number, after its sign. -/
def specialFloat? : Reader Value
  | 'i' :: 'n' :: 'f' :: rest => some (.float, rest)
  | 'n' :: 'a' :: 'n' :: rest => some (.float, rest)
  | _ => none

/-! ## Dates and times -/

/-- A number of exactly `count` decimal digits between two bounds. -/
def fixed? (count least greatest : Nat) (cs : List Char) : Option (Nat × List Char) :=
  let ds := cs.take count
  if ds.length = count && ds.all Char.isDigit then
    let n := Nat.ofDigitChars 10 ds 0
    if least ≤ n && n ≤ greatest then some (n, cs.drop count) else none
  else none

def mark? (mark : Char) : List Char → Option (List Char)
  | c :: rest => if c = mark then some rest else none
  | [] => none

def daysIn (year month : Nat) : Nat :=
  if month = 2 then
    if year % 4 = 0 ∧ (year % 100 ≠ 0 ∨ year % 400 = 0) then 29 else 28
  else if month = 4 ∨ month = 6 ∨ month = 9 ∨ month = 11 then 30
  else 31

/-- Takes a date. -/
def date? (cs : List Char) : Option (List Char) := do
  let (year, rest) ← fixed? 4 0 9999 cs
  let rest ← mark? '-' rest
  let (month, rest) ← fixed? 2 1 12 rest
  let rest ← mark? '-' rest
  let (_, rest) ← fixed? 2 1 (daysIn year month) rest
  some rest

/-- Takes a time of day; a point must be followed by digits to be part of it. -/
def time? (cs : List Char) : Option (List Char) := do
  let (_, rest) ← fixed? 2 0 23 cs
  let rest ← mark? ':' rest
  let (_, rest) ← fixed? 2 0 59 rest
  let rest ← mark? ':' rest
  let (_, rest) ← fixed? 2 0 60 rest
  match rest with
  | '.' :: c :: tail =>
    if c.isDigit then some (tail.dropWhile Char.isDigit) else some rest
  | _ => some rest

/-- Takes an offset from universal time, if there is one; a sign has to start one. -/
def offset? : List Char → Option (List Char)
  | 'Z' :: rest => some rest
  | 'z' :: rest => some rest
  | c :: rest =>
    if c = '+' ∨ c = '-' then do
      let (_, rest) ← fixed? 2 0 23 rest
      let rest ← mark? ':' rest
      let (_, rest) ← fixed? 2 0 59 rest
      some rest
    else some (c :: rest)
  | [] => some []

/-- A date with or without a time, or a time. -/
def dateTime? (cs : List Char) : Option (Value × List Char) :=
  match date? cs with
  | some rest =>
    match rest with
    | c :: afterMark =>
      if c = 'T' ∨ c = 't' ∨ c = ' ' then
        match time? afterMark with
        | some rest => (offset? rest).map fun rest => (.dateTime, rest)
        | none => some (.dateTime, rest)
      else some (.dateTime, rest)
    | [] => some (.dateTime, [])
  | none => (time? cs).map fun rest => (.dateTime, rest)

/-- A number, date or time: whatever starts with a sign or a digit. -/
def numeric? (cs : List Char) : Option (Value × List Char) :=
  match dateTime? cs with
  | some found => some found
  | none =>
    match cs with
    | '0' :: 'x' :: rest => based? 16 isHexDigit rest
    | '0' :: 'o' :: rest => based? 8 isOctalDigit rest
    | '0' :: 'b' :: rest => based? 2 isBinaryDigit rest
    | _ =>
      match number? cs with
      | some found => some found
      | none => specialFloat? (sign cs).2

/-- A value that is no container. -/
def scalar? : Reader Value
  | [] => none
  | c :: rest =>
    if c = '"' ∨ c = '\'' then do
      let (cs, rest) ← string? (c :: rest)
      some (.string (String.ofList cs), rest)
    else if c = '+' ∨ c = '-' ∨ c.isDigit then numeric? (c :: rest)
    else match c :: rest with
      | 't' :: 'r' :: 'u' :: 'e' :: rest => some (.boolean true, rest)
      | 'f' :: 'a' :: 'l' :: 's' :: 'e' :: rest => some (.boolean false, rest)
      | cs => specialFloat? cs

end JsonInspect.Toml
