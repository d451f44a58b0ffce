import JsonInspect.Text.Position

/-! What can be wrong with a JSON text, and where. -/

namespace JsonInspect.Json

inductive Cause where
  | endInValue | endInString | endInArray | endInObject
  | noValue | misspeltWord | noColon | noCommaInArray | noCommaInObject
  | commaBeforeEnd | trailingText | keyNotQuoted
  | badNumber | numberTooLarge
  | controlInString | badEscape | loneSurrogate | halfSurrogatePair
  | tooDeep
deriving DecidableEq

def Cause.message : Cause → String
  | endInValue => "EOF while parsing a value"
  | endInString => "EOF while parsing a string"
  | endInArray => "EOF while parsing a list"
  | endInObject => "EOF while parsing an object"
  | noValue => "expected value"
  | misspeltWord => "expected ident"
  | noColon => "expected `:`"
  | noCommaInArray => "expected `,` or `]`"
  | noCommaInObject => "expected `,` or `\x7d`"
  | commaBeforeEnd => "trailing comma"
  | trailingText => "trailing characters"
  | keyNotQuoted => "key must be a string"
  | badNumber => "invalid number"
  | numberTooLarge => "number out of range"
  | controlInString => "control character (\\u0000-\\u001F) found while parsing a string"
  | badEscape => "invalid escape"
  | loneSurrogate => "lone leading surrogate in hex escape"
  | halfSurrogatePair => "unexpected end of hex escape"
  | tooDeep => "recursion limit exceeded"

/-- A fault met while reading, with the number of bytes of the text that follow its place. -/
structure Fault where
  cause : Cause
  left : Nat
deriving DecidableEq

/-- A fault and its place in the text. -/
structure ReadError where
  cause : Cause
  place : Place
deriving DecidableEq

namespace ReadError

def message (e : ReadError) : String :=
  e.cause.message ++ " at line " ++ toString e.place.line ++ " column " ++ toString e.place.column

/-- Places a fault in the text that was read. -/
def ofFault (text : List Char) (fault : Fault) : ReadError :=
  ⟨fault.cause, Place.of text (utf8Length text - fault.left)⟩

end ReadError

end JsonInspect.Json
