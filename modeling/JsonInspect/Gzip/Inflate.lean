import JsonInspect.Gzip.Code

/-! Reading deflate streams. Output is kept with its newest byte first, so that a distance is
an index; what lies before the start of the output is zero. -/

namespace JsonInspect.Gzip

/-- The output of a stream, newest byte first. -/
abbrev Output := List UInt8

/-- Appends `length` bytes, each equal to the one `distance` bytes before it. -/
def copyBack (distance : Nat) : Nat → Output → Output
  | 0, out => out
  | length + 1, out => copyBack distance length (out.getD (distance - 1) 0 :: out)

/-- The least length of each length symbol and the number of bits that are added to it. -/
def lengthSymbols : List (Nat × Nat) :=
  [(3, 0), (4, 0), (5, 0), (6, 0), (7, 0), (8, 0), (9, 0), (10, 0), (11, 1), (13, 1), (15, 1),
   (17, 1), (19, 2), (23, 2), (27, 2), (31, 2), (35, 3), (43, 3), (51, 3), (59, 3), (67, 4),
   (83, 4), (99, 4), (115, 4), (131, 5), (163, 5), (195, 5), (227, 5), (258, 0)]

/-- The same for distance symbols. -/
def distanceSymbols : List (Nat × Nat) :=
  [(1, 0), (2, 0), (3, 0), (4, 0), (5, 1), (7, 1), (9, 2), (13, 2), (17, 3), (25, 3), (33, 4),
   (49, 4), (65, 5), (97, 5), (129, 6), (193, 6), (257, 7), (385, 7), (513, 8), (769, 8),
   (1025, 9), (1537, 9), (2049, 10), (3073, 10), (4097, 11), (6145, 11), (8193, 12),
   (12289, 12), (16385, 13), (24577, 13)]

/-- The value of a symbol with its added bits. -/
def extended (table : List (Nat × Nat)) (symbol : Nat) (bits : Bits) :
    Except Fault (Nat × Bits) :=
  match table[symbol]? with
  | none => .error .badDeflate
  | some (least, added) => do
    let (n, bits) ← takeNumber added bits
    .ok (least + n, bits)

/-- The literals and copies of a block up to its end, `fuel` of them at most. -/
def inflateSymbols (literals distances : Code) :
    Nat → Output → Bits → Except Fault (Output × Bits)
  | 0, _, _ => .error .unfinishedDeflate
  | fuel + 1, out, bits => do
    let (symbol, bits) ← literals.read bits
    if symbol < 256 then inflateSymbols literals distances fuel (UInt8.ofNat symbol :: out) bits
    else if symbol = 256 then .ok (out, bits)
    else do
      let (length, bits) ← extended lengthSymbols (symbol - 257) bits
      let (symbol, bits) ← distances.read bits
      let (distance, bits) ← extended distanceSymbols symbol bits
      inflateSymbols literals distances fuel (copyBack distance length out) bits

def fixedLiterals : Code :=
  .ofLengths (List.replicate 144 8 ++ List.replicate 112 9 ++ List.replicate 24 7 ++
    List.replicate 8 8)

def fixedDistances : Code := .ofLengths (List.replicate 32 5)

/-- The symbols of the code of code lengths, in the order in which their lengths come. -/
def lengthOrder : List Nat := [16, 17, 18, 0, 8, 7, 9, 6, 10, 5, 11, 4, 12, 3, 13, 2, 14, 1, 15]

/-- Numbers of three bits. -/
def takeLengths : Nat → Bits → Except Fault (List Nat × Bits)
  | 0, bits => .ok ([], bits)
  | count + 1, bits => do
    let (n, bits) ← takeNumber 3 bits
    let (rest, bits) ← takeLengths count bits
    .ok (n :: rest, bits)

/-- How often a symbol of the code of code lengths repeats a length, and whether it is the
one before it. -/
def repetition? (symbol : Nat) : Option (Bool × Nat × Nat) :=
  if symbol = 16 then some (true, 3, 2)
  else if symbol = 17 then some (false, 3, 3)
  else if symbol = 18 then some (false, 11, 7)
  else none

/-- Reads code lengths onto `found`, newest first, until there are `total` of them. -/
def codeLengths (code : Code) (total : Nat) :
    Nat → List Nat → Bits → Except Fault (List Nat × Bits)
  | 0, found, bits => if found.length = total then .ok (found.reverse, bits) else .error .badDeflate
  | fuel + 1, found, bits =>
    if found.length = total then .ok (found.reverse, bits)
    else if total < found.length then .error .badDeflate
    else do
      let (symbol, bits) ← code.read bits
      match repetition? symbol with
      | none => codeLengths code total fuel (symbol :: found) bits
      | some (previous, least, added) =>
        if previous && found.isEmpty then .error .badDeflate
        else do
          let (n, bits) ← takeNumber added bits
          let length := if previous then found.headD 0 else 0
          codeLengths code total fuel (List.replicate (least + n) length ++ found) bits

/-- The two codes that a block brings along. -/
def takeCodes (bits : Bits) : Except Fault ((Code × Code) × Bits) := do
  let (n, bits) ← takeNumber 5 bits
  let (m, bits) ← takeNumber 5 bits
  let (k, bits) ← takeNumber 4 bits
  let literalCount := n + 257
  let distanceCount := m + 1
  if 286 < literalCount || 30 < distanceCount then .error .badDeflate
  else do
    let (ordered, bits) ← takeLengths (k + 4) bits
    let lengthOf (symbol : Nat) : Nat := ((lengthOrder.zip ordered).lookup symbol).getD 0
    let code := Code.ofLengths ((List.range 19).map lengthOf)
    if !code.isComplete then .error .badDeflate
    else do
      let total := literalCount + distanceCount
      let (lengths, bits) ← codeLengths code total total [] bits
      let literals := Code.ofLengths (lengths.take literalCount)
      let distances := Code.ofLengths (lengths.drop literalCount)
      if (literals.isComplete || literals.isTrivial) &&
          (distances.isComplete || distances.isTrivial) then
        .ok ((literals, distances), bits)
      else .error .badDeflate

/-- A block of bytes as they are. -/
def inflateStored (out : Output) (bits : Bits) : Except Fault (Output × Bits) := do
  let (length, bits) ← takeNumber 16 (aligned bits)
  let (check, bits) ← takeNumber 16 bits
  if length + check ≠ 0xFFFF then .error .badDeflate
  else do
    let (bytes, bits) ← takeBytes length bits
    .ok (bytes.reverse ++ out, bits)

/-- A block of some kind, without its first three bits. -/
def inflateBlock (kind : Nat) (out : Output) (bits : Bits) : Except Fault (Output × Bits) :=
  if kind = 0 then inflateStored out bits
  else if kind = 1 then
    inflateSymbols fixedLiterals fixedDistances (bits.length + 1) out bits
  else if kind = 2 then do
    let ((literals, distances), bits) ← takeCodes bits
    inflateSymbols literals distances (bits.length + 1) out bits
  else .error .badDeflate

/-- Blocks up to the one that is marked as the last, `fuel` of them at most. -/
def inflateBlocks : Nat → Output → Bits → Except Fault (Output × Bits)
  | 0, _, _ => .error .unfinishedDeflate
  | fuel + 1, out, bits => do
    let (last, bits) ← takeNumber 1 bits
    let (kind, bits) ← takeNumber 2 bits
    let (out, bits) ← inflateBlock kind out bits
    if last = 1 then .ok (out, bits) else inflateBlocks fuel out bits

/-- The bytes of a stream and the bits from the byte boundary after it on. -/
def inflate (bits : Bits) : Except Fault (List UInt8 × Bits) := do
  let (out, bits) ← inflateBlocks (bits.length + 1) [] bits
  .ok (out.reverse, aligned bits)

end JsonInspect.Gzip
