/-! Texts as UTF-8 bytes, and where a sequence of bytes stops being UTF-8. -/

namespace JsonInspect.Utf8

def encode (s : String) : List UInt8 := s.toUTF8.data.toList

/-- Why bytes are not UTF-8: from some index on they start no character, or they end within
one. `length` bytes are at fault in the first case. -/
inductive Fault where
  | invalid (index length : Nat)
  | incomplete (index : Nat)
deriving DecidableEq

def Fault.message : Fault → String
  | invalid index length =>
    "invalid utf-8 sequence of " ++ toString length ++ " bytes from index " ++ toString index
  | incomplete index => "incomplete utf-8 byte sequence from index " ++ toString index

/-- What the first bytes are: a character of some width, or a fault that takes some bytes, or
the start of a character that ends too early. -/
inductive Start where
  | char (width : Nat)
  | invalid (length : Nat)
  | incomplete
deriving DecidableEq

/-- Checks the bytes after the first `taken` ones of a character, each against its range. -/
def tail (taken : Nat) : List (UInt8 × UInt8) → List UInt8 → Start
  | [], _ => .char taken
  | _ :: _, [] => .incomplete
  | (low, high) :: ranges, b :: rest =>
    if low ≤ b && b ≤ high then tail (taken + 1) ranges rest else .invalid taken

/-- The ranges of the bytes that follow a first byte; none for a byte that starts nothing. -/
def followers? (first : UInt8) : Option (List (UInt8 × UInt8)) :=
  let any : UInt8 × UInt8 := (0x80, 0xBF)
  if first < 0x80 then some []
  else if 0xC2 ≤ first && first ≤ 0xDF then some [any]
  else if first = 0xE0 then some [(0xA0, 0xBF), any]
  else if first = 0xED then some [(0x80, 0x9F), any]
  else if 0xE1 ≤ first && first ≤ 0xEF then some [any, any]
  else if first = 0xF0 then some [(0x90, 0xBF), any, any]
  else if 0xF1 ≤ first && first ≤ 0xF3 then some [any, any, any]
  else if first = 0xF4 then some [(0x80, 0x8F), any, any]
  else none

def start (first : UInt8) (rest : List UInt8) : Start :=
  match followers? first with
  | some ranges => tail 1 ranges rest
  | none => .invalid 1

/-- The first fault at or after `index`, looking at `fuel` characters at most. -/
def faultFrom : Nat → Nat → List UInt8 → Option Fault
  | 0, _, _ => none
  | _ + 1, _, [] => none
  | fuel + 1, index, first :: rest =>
    match start first rest with
    | .char width => faultFrom fuel (index + width) ((first :: rest).drop width)
    | .invalid length => some (.invalid index length)
    | .incomplete => some (.incomplete index)

/-- The text that bytes encode. -/
def decode (bytes : List UInt8) : Except Fault String :=
  match String.fromUTF8? ⟨bytes.toArray⟩ with
  | some s => .ok s
  | none => .error ((faultFrom bytes.length 0 bytes).getD (.incomplete bytes.length))

theorem fromUTF8?_toUTF8 (s : String) : String.fromUTF8? s.toUTF8 = some s := by
  have h : s.toUTF8.IsValidUTF8 := s.isValidUTF8
  simp only [String.fromUTF8?, dif_pos h]
  rfl

theorem decode_encode (s : String) : decode (encode s) = .ok s := by
  have h : (⟨(encode s).toArray⟩ : ByteArray) = s.toUTF8 := by simp [encode]
  simp only [decode, h, fromUTF8?_toUTF8]

end JsonInspect.Utf8
