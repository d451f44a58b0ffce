import JsonInspect.Gzip.Member
import JsonInspect.Proofs.Except

/-! # What is packed is unpacked

A packed file is a header, the bytes in stored blocks, their checksum and their number. Unpacking
reads these parts one after the other and gives the bytes back (`unpack_pack`). -/

namespace JsonInspect.Gzip

variable {bytes chunk more : List UInt8} {out : Output}

/-! ## Numbers and bytes as bits -/

theorem length_bitsOf (count n : Nat) : (bitsOf count n).length = count := by
  induction count generalizing n with
  | zero => rfl
  | succ count ih => rw [bitsOf, List.length_cons, ih]

theorem length_flatMap_byteBits (bytes : List UInt8) :
    (bytes.flatMap byteBits).length = 8 * bytes.length := by
  induction bytes with
  | nil => rfl
  | cons b bytes ih =>
    rw [List.flatMap_cons, List.length_append, ih, byteBits, length_bitsOf, List.length_cons]
    omega

theorem numberOf_byteBits_append (b : UInt8) (bits : Bits) :
    numberOf (byteBits b ++ bits) = b.toNat + 256 * numberOf bits := by
  rw [byteBits, numberOf_append, numberOf_bitsOf, length_bitsOf, Nat.mod_eq_of_lt b.toNat_lt]

theorem numberOf_flatMap_byteBits (bytes : List UInt8) :
    numberOf (bytes.flatMap byteBits) = littleEndian bytes := by
  induction bytes with
  | nil => rfl
  | cons b bytes ih => rw [List.flatMap_cons, numberOf_byteBits_append, ih, littleEndian]

theorem takeNumber_bytes (bytes : List UInt8) (bits : Bits) :
    takeNumber (8 * bytes.length) (bytes.flatMap byteBits ++ bits) =
      .ok (littleEndian bytes, bits) := by
  rw [← length_flatMap_byteBits, takeNumber_append, numberOf_flatMap_byteBits]

theorem takeBytes_bytes (bytes : List UInt8) (bits : Bits) :
    takeBytes bytes.length (bytes.flatMap byteBits ++ bits) = .ok (bytes, bits) := by
  induction bytes with
  | nil => rfl
  | cons b bytes ih =>
    have hbyte : takeNumber 8 (byteBits b ++ (bytes.flatMap byteBits ++ bits)) =
        .ok (littleEndian [b], bytes.flatMap byteBits ++ bits) := by
      have h := takeNumber_bytes [b] (bytes.flatMap byteBits ++ bits)
      rwa [List.flatMap_singleton] at h
    rw [List.length_cons, takeBytes, List.flatMap_cons, List.append_assoc, hbyte, ok_bind]
    dsimp only
    rw [ih, ok_bind]
    simp [littleEndian]

theorem length_littleEndianBytes (count n : Nat) : (littleEndianBytes count n).length = count := by
  induction count generalizing n with
  | zero => rfl
  | succ count ih => rw [littleEndianBytes, List.length_cons, ih]

theorem littleEndian_littleEndianBytes (count n : Nat) :
    littleEndian (littleEndianBytes count n) = n % Nat.pow 256 count := by
  induction count generalizing n with
  | zero => exact (Nat.mod_one n).symm
  | succ count ih =>
    have hlow : (UInt8.ofNat (n % 256)).toNat = n % 256 := by
      simp
    rw [littleEndianBytes, littleEndian, ih, hlow, Nat.pow_eq, Nat.pow_eq, Nat.pow_succ,
      Nat.mul_comm (256 ^ count) 256, Nat.mod_mul]

/-! ## Stored blocks -/

/-- What is left of the last byte is skipped, and whole bytes are kept. -/
theorem aligned_bytes {front : Bits} (hfront : front.length < 8) (bytes : List UInt8) :
    aligned (front ++ bytes.flatMap byteBits) = bytes.flatMap byteBits := by
  have hlength : (front ++ bytes.flatMap byteBits).length % 8 = front.length := by
    rw [List.length_append, length_flatMap_byteBits]
    omega
  rw [aligned, hlength, List.drop_left]

/-- A number of two bytes is read back if it fits. -/
theorem takeNumber_two {n : Nat} (hn : n ≤ greatestStored) (bits : Bits) :
    takeNumber 16 ((littleEndianBytes 2 n).flatMap byteBits ++ bits) = .ok (n, bits) := by
  have h := takeNumber_bytes (littleEndianBytes 2 n) bits
  have hmod : n % Nat.pow 256 2 = n := Nat.mod_eq_of_lt (Nat.lt_of_le_of_lt hn (by decide))
  rwa [length_littleEndianBytes, littleEndian_littleEndianBytes, hmod] at h

theorem inflateStored_chunk (out : Output) (hchunk : chunk.length ≤ greatestStored)
    (more : List UInt8) :
    inflateStored out ([false, false, false, false, false] ++
        (littleEndianBytes 2 chunk.length ++
          (littleEndianBytes 2 (65535 - chunk.length) ++ (chunk ++ more))).flatMap byteBits) =
      .ok (chunk.reverse ++ out, more.flatMap byteBits) := by
  have hsum : ¬ chunk.length + (65535 - chunk.length) ≠ 0xFFFF :=
    not_not_intro (Nat.add_sub_of_le hchunk)
  rw [inflateStored, aligned_bytes (by decide), List.flatMap_append, takeNumber_two hchunk, ok_bind]
  dsimp only
  rw [List.flatMap_append, takeNumber_two (Nat.sub_le 65535 _), ok_bind]
  dsimp only
  rw [if_neg hsum, List.flatMap_append, takeBytes_bytes, ok_bind]

/-- A block is taken whole, and the next one is read unless this is the last. -/
theorem inflateBlocks_storedBlock (fuel : Nat) (out : Output) (last : Bool)
    (hchunk : chunk.length ≤ greatestStored) (more : List UInt8) :
    inflateBlocks (fuel + 1) out ((storedBlock last chunk ++ more).flatMap byteBits) =
      if last then .ok (chunk.reverse ++ out, more.flatMap byteBits)
      else inflateBlocks fuel (chunk.reverse ++ out) (more.flatMap byteBits) := by
  have hstored := inflateStored_chunk out hchunk more
  have hbits : (storedBlock last chunk ++ more).flatMap byteBits =
      [last, false, false] ++ ([false, false, false, false, false] ++
        (littleEndianBytes 2 chunk.length ++
          (littleEndianBytes 2 (65535 - chunk.length) ++ (chunk ++ more))).flatMap byteBits) := by
    have hflag : byteBits (if last then 1 else 0) =
        [last, false, false, false, false, false, false, false] := by
      cases last <;> decide
    rw [storedBlock, List.cons_append, List.cons_append, List.cons_append, List.flatMap_cons, hflag,
      List.append_assoc, List.append_assoc]
    rfl
  obtain ⟨rest, hrest⟩ : ∃ rest, rest = [false, false, false, false, false] ++
      (littleEndianBytes 2 chunk.length ++
        (littleEndianBytes 2 (65535 - chunk.length) ++ (chunk ++ more))).flatMap byteBits :=
    ⟨_, rfl⟩
  have hlast : takeNumber 1 ([last, false, false] ++ rest) =
      .ok (last.toNat, [false, false] ++ rest) := rfl
  have hkind : takeNumber 2 ([false, false] ++ rest) = .ok (0, rest) := rfl
  rw [hbits, ← hrest, inflateBlocks, hlast, ok_bind]
  dsimp only
  rw [hkind, ok_bind]
  dsimp only
  rw [inflateBlock, if_pos rfl, hrest, hstored, ok_bind]
  cases last <;> rfl

theorem length_storedBlock (last : Bool) (chunk : List UInt8) :
    (storedBlock last chunk).length = chunk.length + 5 := by
  simp only [storedBlock, List.cons_append, List.length_cons, List.length_append,
    length_littleEndianBytes]
  omega

theorem le_length_storedBlocks (full : Nat) (bytes : List UInt8) :
    full < (storedBlocks full bytes).length := by
  induction full generalizing bytes with
  | zero =>
    rw [storedBlocks, length_storedBlock]
    omega
  | succ full ih =>
    have h := ih (bytes.drop greatestStored)
    rw [storedBlocks, List.length_append, length_storedBlock]
    omega

/-- The blocks hold the bytes in their order. -/
theorem inflateBlocks_storedBlocks {full fuel : Nat} (hfuel : full < fuel) (out : Output)
    (hbytes : bytes.length ≤ greatestStored * (full + 1)) (more : List UInt8) :
    inflateBlocks fuel out ((storedBlocks full bytes ++ more).flatMap byteBits) =
      .ok (bytes.reverse ++ out, more.flatMap byteBits) := by
  induction full generalizing fuel out bytes with
  | zero =>
    obtain ⟨fuel, rfl⟩ := Nat.exists_eq_add_one_of_ne_zero (Nat.ne_of_gt hfuel)
    rw [Nat.zero_add, Nat.mul_one] at hbytes
    rw [storedBlocks, inflateBlocks_storedBlock fuel out true hbytes, if_pos rfl]
  | succ full ih =>
    obtain ⟨fuel, rfl⟩ := Nat.exists_eq_add_one_of_ne_zero (Nat.ne_of_gt (Nat.zero_lt_of_lt hfuel))
    have hchunk : (bytes.take greatestStored).length ≤ greatestStored := List.length_take_le _ _
    have hrest : (bytes.drop greatestStored).length ≤ greatestStored * (full + 1) := by
      rw [List.length_drop]
      rw [Nat.mul_succ] at hbytes
      omega
    have hreverse : (bytes.drop greatestStored).reverse ++
        ((bytes.take greatestStored).reverse ++ out) = bytes.reverse ++ out := by
      rw [← List.append_assoc, ← List.reverse_append, List.take_append_drop]
    rw [storedBlocks, List.append_assoc, inflateBlocks_storedBlock fuel out false hchunk,
      if_neg Bool.false_ne_true, ih (Nat.lt_of_succ_lt_succ hfuel) _ hrest, hreverse]

theorem inflate_storedBlocks (bytes more : List UInt8) :
    inflate ((storedBlocks ((bytes.length - 1) / greatestStored) bytes ++ more).flatMap byteBits) =
      .ok (bytes, more.flatMap byteBits) := by
  have hfuel := le_length_storedBlocks ((bytes.length - 1) / greatestStored) bytes
  have hbytes : bytes.length ≤ greatestStored * ((bytes.length - 1) / greatestStored + 1) := by
    rw [greatestStored]
    omega
  have haligned : aligned (more.flatMap byteBits) = more.flatMap byteBits :=
    aligned_bytes (by decide : ([] : Bits).length < 8) more
  rw [inflate, inflateBlocks_storedBlocks _ [] hbytes, ok_bind]
  · dsimp only
    rw [haligned, List.append_nil, List.reverse_reverse]
  · rw [length_flatMap_byteBits, List.length_append]
    omega

/-! ## Whole files -/

theorem skipHeader_pack (body : List UInt8) :
    skipHeader (magic ++ [8, 0, 0, 0, 0, 0, 0, 255] ++ body) = .ok body := by
  have hsplit : splitBytes 10 (magic ++ [8, 0, 0, 0, 0, 0, 0, 255] ++ body) =
      .ok (magic ++ [8, 0, 0, 0, 0, 0, 0, 255], body) := by
    rw [splitBytes, if_neg (by simp [magic])]
    rfl
  rw [skipHeader, hsplit, ok_bind]
  rfl

theorem splitBytes_append (front rest : List UInt8) :
    splitBytes front.length (front ++ rest) = .ok (front, rest) := by
  rw [splitBytes, if_neg (by simp), List.take_left, List.drop_left]

theorem splitBytes_four (n : Nat) (rest : List UInt8) :
    splitBytes 4 (littleEndianBytes 4 n ++ rest) = .ok (littleEndianBytes 4 n, rest) := by
  have h := splitBytes_append (littleEndianBytes 4 n) rest
  rwa [length_littleEndianBytes] at h

def trailer (bytes : List UInt8) : List UInt8 :=
  littleEndianBytes 4 (crc32 bytes).toNat ++ littleEndianBytes 4 bytes.length

theorem unpack_pack (bytes : List UInt8) : unpack (pack bytes) = .ok bytes := by
  obtain ⟨blocks, hblocks⟩ : ∃ blocks,
      blocks = storedBlocks ((bytes.length - 1) / greatestStored) bytes := ⟨_, rfl⟩
  have hpack : pack bytes = magic ++ [8, 0, 0, 0, 0, 0, 0, 255] ++ (blocks ++ trailer bytes) := by
    simp only [pack, hblocks, trailer, List.append_assoc]
  have hinflate : inflate ((blocks ++ trailer bytes).flatMap byteBits) =
      .ok (bytes, (trailer bytes).flatMap byteBits) := by
    rw [hblocks, inflate_storedBlocks]
  have hdrop : (blocks ++ trailer bytes).drop ((blocks ++ trailer bytes).length -
      ((trailer bytes).flatMap byteBits).length / 8) = trailer bytes := by
    rw [length_flatMap_byteBits, Nat.mul_div_cancel_left _ (by decide), List.length_append,
      Nat.add_sub_cancel, List.drop_left]
  have hlast : splitBytes 4 (littleEndianBytes 4 bytes.length) =
      .ok (littleEndianBytes 4 bytes.length, []) := by
    have h := splitBytes_four bytes.length []
    rwa [List.append_nil] at h
  have hsum : littleEndian (littleEndianBytes 4 (crc32 bytes).toNat) = (crc32 bytes).toNat := by
    rw [littleEndian_littleEndianBytes]
    exact Nat.mod_eq_of_lt (crc32 bytes).toNat_lt
  have hlength : littleEndian (littleEndianBytes 4 bytes.length) = bytes.length % UInt32.size :=
    littleEndian_littleEndianBytes 4 bytes.length
  rw [unpack, hpack, skipHeader_pack, ok_bind, hinflate, ok_bind]
  dsimp only
  rw [hdrop, trailer, splitBytes_four, ok_bind]
  dsimp only
  rw [hlast, ok_bind]
  exact if_pos ⟨hsum, hlength⟩

end JsonInspect.Gzip
