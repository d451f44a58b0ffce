/-! Bytes as bits, the least significant one first, and what can be wrong with compressed
bytes. -/

namespace JsonInspect.Gzip

inductive Fault where
  | unfinished | badHeader | fieldTooLong | unfinishedDeflate | badDeflate | badChecksum
deriving DecidableEq

def Fault.message : Fault → String
  | unfinished => "unexpected end of file"
  | badHeader => "invalid gzip header"
  | fieldTooLong => "gzip header field too long"
  | unfinishedDeflate => "incomplete deflate stream"
  | badDeflate => "corrupt deflate stream"
  | badChecksum => "corrupt gzip stream does not have a matching checksum"

abbrev Bits := List Bool

/-- The `count` lowest bits of a number. -/
def bitsOf : Nat → Nat → Bits
  | 0, _ => []
  | count + 1, n => (n % 2 == 1) :: bitsOf count (n / 2)

def byteBits (b : UInt8) : Bits := bitsOf 8 b.toNat

/-- The number whose lowest bits a list holds. -/
def numberOf : Bits → Nat
  | [] => 0
  | b :: rest => b.toNat + 2 * numberOf rest

theorem numberOf_bitsOf (count n : Nat) : numberOf (bitsOf count n) = n % Nat.pow 2 count := by
  rw [Nat.pow_eq]
  induction count generalizing n with
  | zero => simp [bitsOf, numberOf, Nat.mod_one]
  | succ count ih =>
    have hb : (n % 2 == 1).toNat = n % 2 := by
      rcases Nat.mod_two_eq_zero_or_one n with h | h <;> simp [h]
    rw [bitsOf, numberOf, ih, hb, Nat.pow_succ, Nat.mul_comm (2 ^ count) 2, Nat.mod_mul]

theorem numberOf_append (low high : Bits) :
    numberOf (low ++ high) = numberOf low + Nat.pow 2 low.length * numberOf high := by
  rw [Nat.pow_eq]
  induction low with
  | nil => simp [numberOf]
  | cons b low ih =>
    rw [List.cons_append, numberOf, numberOf, ih, List.length_cons, Nat.pow_succ, Nat.mul_add,
      Nat.add_assoc, Nat.mul_comm (2 ^ low.length) 2, Nat.mul_assoc]

/-- Takes a number of `count` bits. -/
def takeNumber : Nat → Bits → Except Fault (Nat × Bits)
  | 0, bits => .ok (0, bits)
  | _ + 1, [] => .error .unfinishedDeflate
  | count + 1, b :: bits => do
    let (n, bits) ← takeNumber count bits
    .ok (b.toNat + 2 * n, bits)

theorem takeNumber_append (taken rest : Bits) :
    takeNumber taken.length (taken ++ rest) = .ok (numberOf taken, rest) := by
  induction taken with
  | nil => rfl
  | cons b taken ih => simp [takeNumber, ih, numberOf, bind, Except.bind]

/-- The bits from the next byte boundary on. -/
def aligned (bits : Bits) : Bits := bits.drop (bits.length % 8)

/-- Takes whole bytes. -/
def takeBytes : Nat → Bits → Except Fault (List UInt8 × Bits)
  | 0, bits => .ok ([], bits)
  | count + 1, bits => do
    let (n, bits) ← takeNumber 8 bits
    let (bytes, bits) ← takeBytes count bits
    .ok (UInt8.ofNat n :: bytes, bits)

end JsonInspect.Gzip
