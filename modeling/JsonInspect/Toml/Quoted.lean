/-! TOML strings as they are written: between single quotes of a kind if the text needs no
escapes there, else between triple quotes, else with escapes. -/

namespace JsonInspect.Toml.Quoted

/-- Control characters that can only be written as escapes. -/
def isControl (c : Char) : Bool :=
  (c.toNat < 0x20 || c.toNat == 0x7F) && c != '\t' && c != '\n'

/-- The length of the longest run of a character, `run` of which stand before the text. -/
def longestRun (x : Char) (run : Nat) : List Char → Nat
  | [] => run
  | c :: rest => if c = x then longestRun x (run + 1) rest else max run (longestRun x 0 rest)

/-- The ways to write a string. -/
inductive Form where
  | basic | literal | multilineBasic | multilineLiteral
deriving DecidableEq

/-- The first form that shows a text as it is, or else one with escapes. -/
def Form.of (cs : List Char) : Form :=
  let control := cs.any isControl
  let backslash := cs.contains '\\'
  let lines := cs.contains '\n'
  let double := longestRun '"' 0 cs
  let single := longestRun '\'' 0 cs
  if !control && !backslash && double == 0 && !lines then .basic
  else if !control && single == 0 && !lines then .literal
  else if !control && !backslash && double ≤ 2 then .multilineBasic
  else if !control && single ≤ 2 then .multilineLiteral
  else if lines then .multilineBasic
  else .basic

/-- The upper-case hexadecimal digit of a number below 16. -/
def hexDigit (n : Nat) : Char := if n < 10 then Char.ofNat (48 + n) else Char.ofNat (55 + n)

/-- A character other than a quote between double quotes. -/
def escapeChar (multiline : Bool) (c : Char) : List Char :=
  if c = '\x08' then ['\\', 'b']
  else if c = '\t' then ['\\', 't']
  else if c = '\n' then if multiline then ['\n'] else ['\\', 'n']
  else if c = '\x0c' then ['\\', 'f']
  else if c = '\r' then ['\\', 'r']
  else if c = '\\' then ['\\', '\\']
  else if c.toNat < 0x20 ∨ c.toNat = 0x7F then
    ['\\', 'u', '0', '0', hexDigit (c.toNat / 16), hexDigit (c.toNat % 16)]
  else [c]

/-- A text between double quotes, of which `room` more may stand next to each other. -/
def escape (multiline : Bool) (allowed room : Nat) : List Char → List Char
  | [] => []
  | c :: rest =>
    if c = '"' then
      match room with
      | 0 => '\\' :: '"' :: escape multiline allowed allowed rest
      | room + 1 => '"' :: escape multiline allowed room rest
    else escapeChar multiline c ++ escape multiline allowed allowed rest

/-- A string with its quotes. One over several lines starts on a new one. -/
def write (s : String) : List Char :=
  let cs := s.toList
  let opening := if cs.contains '\n' then ['\n'] else []
  match Form.of cs with
  | .basic => '"' :: escape false 0 0 cs ++ ['"']
  | .literal => '\'' :: cs ++ ['\'']
  | .multilineBasic => ['"', '"', '"'] ++ opening ++ escape true 2 2 cs ++ ['"', '"', '"']
  | .multilineLiteral => ['\'', '\'', '\''] ++ opening ++ cs ++ ['\'', '\'', '\'']

end JsonInspect.Toml.Quoted
