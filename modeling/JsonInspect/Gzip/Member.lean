import JsonInspect.Gzip.Checksum
import JsonInspect.Gzip.Inflate

/-! Gzip files: a header, a deflate stream, and the checksum and length of what it holds. Only
the first member of a file is read. Writing stores the bytes without compressing them. -/

namespace JsonInspect.Gzip

/-- The two bytes that a gzip file starts with. -/
def magic : List UInt8 := [0x1F, 0x8B]

def looksCompressed (bytes : List UInt8) : Bool := magic.isPrefixOf bytes

/-! ## Reading -/

/-- Splits off the first `count` bytes. -/
def splitBytes (count : Nat) (bytes : List UInt8) :
    Except Fault (List UInt8 × List UInt8) :=
  if bytes.length < count then .error .unfinished else .ok (bytes.take count, bytes.drop count)

/-- The number that bytes write, the lowest one first. -/
def littleEndian : List UInt8 → Nat
  | [] => 0
  | b :: rest => b.toNat + 256 * littleEndian rest

/-- The length that a text field of the header may have. -/
def greatestField : Nat := 65535

/-- Drops a text field up to the zero byte that ends it. -/
def skipField : Nat → List UInt8 → Except Fault (List UInt8)
  | _, [] => .error .unfinished
  | room, b :: rest =>
    if b = 0 then .ok rest
    else match room with
      | 0 => .error .fieldTooLong
      | room + 1 => skipField room rest

/-- Drops the header, whose flags say which fields it has. -/
def skipHeader (bytes : List UInt8) : Except Fault (List UInt8) := do
  let (fixed, rest) ← splitBytes 10 bytes
  let flags := fixed.getD 3 0
  if !looksCompressed fixed || fixed.getD 2 0 ≠ 8 || flags &&& 0xE0 ≠ 0 then .error .badHeader
  else do
    let rest ←
      if flags &&& 4 = 0 then .ok rest
      else do
        let (length, rest) ← splitBytes 2 rest
        let (_, rest) ← splitBytes (littleEndian length) rest
        .ok rest
    let rest ← if flags &&& 8 = 0 then .ok rest else skipField greatestField rest
    let rest ← if flags &&& 16 = 0 then .ok rest else skipField greatestField rest
    if flags &&& 2 = 0 then .ok rest
    else do
      let header := bytes.take (bytes.length - rest.length)
      let (sum, rest) ← splitBytes 2 rest
      if littleEndian sum = (crc32 header).toUInt16.toNat then .ok rest else .error .badChecksum

/-- The bytes that a gzip file holds. -/
def unpack (bytes : List UInt8) : Except Fault (List UInt8) := do
  let body ← skipHeader bytes
  let (content, bits) ← inflate (body.flatMap byteBits)
  let (sum, rest) ← splitBytes 4 (body.drop (body.length - bits.length / 8))
  let (length, _) ← splitBytes 4 rest
  if littleEndian sum = (crc32 content).toNat ∧
      littleEndian length = content.length % UInt32.size then .ok content
  else .error .badChecksum

/-! ## Writing -/

/-- A number in `count` bytes, the lowest one first. -/
def littleEndianBytes : Nat → Nat → List UInt8
  | 0, _ => []
  | count + 1, n => UInt8.ofNat (n % 256) :: littleEndianBytes count (n / 256)

def greatestStored : Nat := 65535

def storedBlock (last : Bool) (bytes : List UInt8) : List UInt8 :=
  (if last then 1 else 0) ::
    littleEndianBytes 2 bytes.length ++ littleEndianBytes 2 (65535 - bytes.length) ++ bytes

/-- `full` blocks of the greatest length and one with the rest. -/
def storedBlocks : Nat → List UInt8 → List UInt8
  | 0, bytes => storedBlock true bytes
  | full + 1, bytes =>
    storedBlock false (bytes.take greatestStored) ++
      storedBlocks full (bytes.drop greatestStored)

/-- A gzip file that holds some bytes. -/
def pack (bytes : List UInt8) : List UInt8 :=
  magic ++ [8, 0, 0, 0, 0, 0, 0, 255] ++
    storedBlocks ((bytes.length - 1) / greatestStored) bytes ++
    littleEndianBytes 4 (crc32 bytes).toNat ++ littleEndianBytes 4 bytes.length

end JsonInspect.Gzip
