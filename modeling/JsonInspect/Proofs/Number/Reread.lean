import JsonInspect.Proofs.Number.Reading

/-! # What the text of a number reads back as

A finite number reads back as itself, except that a whole binary64 number comes back as an
integer when 64 bits hold it (`number_chars`). Its value and its text stay what they were. -/

namespace JsonInspect

open Json

def FitsInt64 (i : ℤ) : Prop := Int64.minValue.toInt ≤ i ∧ i ≤ Int64.maxValue.toInt

instance (i : ℤ) : Decidable (FitsInt64 i) := inferInstanceAs (Decidable (_ ∧ _))

theorem fitsInt64_toInt (i : Int64) : FitsInt64 i.toInt := ⟨i.minValue_le_toInt, i.toInt_le⟩

theorem toInt_ofInt {i : ℤ} (h : FitsInt64 i) : (Int64.ofInt i).toInt = i :=
  Int64.toInt_ofInt_of_le h.1 (Int.lt_add_one_of_le h.2)

def Double.whole? (d : Double) : Option ℤ :=
  d.wholePart?.map fun (n : ℕ) => if d.negative then -(n : ℤ) else n

namespace Number

def isFinite : Number → Bool
  | int _ => true
  | double d => d.isFinite

/-- The exact value of a finite number. -/
def toRat : Number → ℚ
  | int i => i.toInt
  | double d => d.toRat

/-- The number that the text of a number reads back as. -/
def reread : Number → Number
  | int i => int i
  | double d =>
    match d.whole? with
    | some i => if FitsInt64 i then int (Int64.ofInt i) else double d
    | none => double d

end Number

namespace Double

variable {d : Double} {i : ℤ}

theorem whole?_eq_some (h : d.whole? = some i) :
    ∃ n, d.wholePart? = some n ∧ i.natAbs = n ∧ (0 < n → decide (i < 0) = d.negative) := by
  obtain ⟨n, hn, rfl⟩ := Option.map_eq_some_iff.mp h
  refine ⟨n, hn, ?_, fun hpos => ?_⟩
  · split <;> simp
  · cases d.negative <;> simp [hpos]

/-- A whole number stands for its integer. -/
theorem toRat_of_whole? (h : d.whole? = some i) : d.toRat = i := by
  obtain ⟨n, hn, rfl⟩ := Option.map_eq_some_iff.mp h
  unfold toRat
  rw [magnitude_of_wholePart? hn]
  split <;> simp

theorem wholePart?_of_rank_eq_zero (h : d.rank = 0) : d.wholePart? = some 0 := by
  have hs : d.significand = 0 := by
    unfold significand
    rw [h]
    decide
  unfold wholePart?
  split
  · rw [hs, Nat.zero_mul]
  · dsimp only
    rw [hs, if_pos (Nat.zero_mod _), Nat.zero_div]

/-- What 64 bits hold is finite. -/
theorem isFinite_of_fits (h : d.whole? = some i) (hi : FitsInt64 i) : d.isFinite = true := by
  obtain ⟨n, hn, habs, -⟩ := whole?_eq_some h
  by_contra hinf
  have hr : 2047 * binade ≤ d.rank := by
    have : ¬ d.rank < infinityRank := by simpa [isFinite] using hinf
    rw [infinityRank_eq] at this
    omega
  have hb : binade = 4503599627370496 := by decide
  have hscale : 972 ≤ d.scale := by
    have hq : 2047 ≤ d.rank / binade := (Nat.le_div_iff_mul_le (by decide)).mpr hr
    unfold scale
    rw [if_neg (by omega)]
    omega
  have hsig : binade ≤ d.significand := by
    unfold significand
    rw [if_neg (by omega)]
    omega
  have hbig : (2 : ℚ) ^ (64 : ℤ) ≤ d.magnitude := by
    have h1 : (2 : ℚ) ^ (64 : ℤ) ≤ 2 ^ d.scale := zpow_le_zpow_right₀ one_le_two (by omega)
    have h2 : (1 : ℚ) ≤ d.significand := by exact_mod_cast (by omega : 1 ≤ d.significand)
    exact h1.trans (le_mul_of_one_le_left (two_zpow_pos _).le h2)
  rw [magnitude_of_wholePart? hn] at hbig
  have hbig' : 2 ^ 64 ≤ n := by exact_mod_cast hbig
  have hmin : Int64.minValue.toInt = -9223372036854775808 := by decide
  have hmax : Int64.maxValue.toInt = 9223372036854775807 := by decide
  unfold FitsInt64 at hi
  omega

/-- All digits of a whole number below `10 ^ 21`, and the shortest ones of every other. -/
theorem doubleChars_eq (hfin : d.isFinite = true) (hd : 0 < d.rank) :
    Number.doubleChars d = Number.signed d.negative
      (match d.wholePart? with
        | some n => if n < Nat.pow 10 21 then Nat.toDigits 10 n else Number.layout.write d.shortest
        | none => Number.layout.write d.shortest) := by
  have hz : d.isZero = false := by simpa [isZero] using hd.ne'
  unfold Number.doubleChars
  rw [hfin, hz]
  cases d.wholePart? with
  | none => rfl
  | some n =>
    rw [if_neg (by decide), if_neg (by decide)]
    dsimp only
    split <;> rfl

theorem doubleChars_of_whole (h : d.whole? = some i) (hi : FitsInt64 i) :
    Number.doubleChars d = Number.intChars i := by
  obtain ⟨n, hn, habs, hsign⟩ := whole?_eq_some h
  have hfin := isFinite_of_fits h hi
  rcases Nat.eq_zero_or_pos d.rank with hd | hd
  · have hz : n = 0 := by
      rw [wholePart?_of_rank_eq_zero hd] at hn
      exact (Option.some.inj hn).symm
    have hi0 : i = 0 := by omega
    subst hi0
    unfold Number.doubleChars
    rw [hfin, show d.isZero = true by simpa [isZero] using hd]
    rfl
  · have hpos : 0 < n := by
      have := magnitude_pos hd
      rw [magnitude_of_wholePart? hn] at this
      exact_mod_cast this
    have hmin : Int64.minValue.toInt = -9223372036854775808 := by decide
    have hmax : Int64.maxValue.toInt = 9223372036854775807 := by decide
    have hlt : n < Nat.pow 10 21 := by
      have : Nat.pow 10 21 = 1000000000000000000000 := by decide
      unfold FitsInt64 at hi
      omega
    rw [doubleChars_eq hfin hd, hn]
    dsimp only
    rw [if_pos hlt, Number.intChars, hsign hpos, habs]

end Double

namespace Number

variable {n : Number}

/-! ## Rereading keeps text and value -/

theorem reread_double_of_fits {d : Double} {i : ℤ} (h : d.whole? = some i) (hi : FitsInt64 i) :
    reread (.double d) = .int (Int64.ofInt i) := by
  unfold reread
  dsimp only
  rw [h]
  exact if_pos hi

theorem reread_double_of_not_fits {d : Double} (h : ∀ i, d.whole? = some i → ¬ FitsInt64 i) :
    reread (.double d) = .double d := by
  unfold reread
  dsimp only
  split
  · rename_i i hi
    exact if_neg (h i hi)
  · rfl

/-- A binary64 number is whole and held by 64 bits, or it is not. -/
theorem reread_double_cases (d : Double) :
    (∃ i, d.whole? = some i ∧ FitsInt64 i ∧ reread (.double d) = .int (Int64.ofInt i)) ∨
      (∀ i, d.whole? = some i → ¬ FitsInt64 i) ∧ reread (.double d) = .double d := by
  by_cases h : ∃ i, d.whole? = some i ∧ FitsInt64 i
  · obtain ⟨i, hw, hi⟩ := h
    exact .inl ⟨i, hw, hi, reread_double_of_fits hw hi⟩
  · have hnot : ∀ i, d.whole? = some i → ¬ FitsInt64 i := fun i hw hi => h ⟨i, hw, hi⟩
    exact .inr ⟨hnot, reread_double_of_not_fits hnot⟩

/-- Rereading keeps the text. -/
theorem chars_reread (n : Number) : n.reread.chars = n.chars := by
  cases n with
  | int i => rfl
  | double d =>
    rcases reread_double_cases d with ⟨i, hw, hi, h⟩ | ⟨-, h⟩
    · rw [h, chars, chars, toInt_ofInt hi, Double.doubleChars_of_whole hw hi]
    · rw [h]

theorem text_reread (n : Number) : n.reread.text = n.text := by
  rw [text, text, chars_reread]

/-- Rereading keeps the value. -/
theorem toRat_reread (n : Number) : n.reread.toRat = n.toRat := by
  cases n with
  | int i => rfl
  | double d =>
    rcases reread_double_cases d with ⟨i, hw, hi, h⟩ | ⟨-, h⟩
    · rw [h, toRat, toRat, toInt_ofInt hi, Double.toRat_of_whole? hw]
    · rw [h]

/-- What was read once reads back as itself. -/
theorem reread_reread (n : Number) : n.reread.reread = n.reread := by
  cases n with
  | int i => rfl
  | double d =>
    rcases reread_double_cases d with ⟨i, -, -, hr⟩ | ⟨-, hr⟩
    · rw [hr]
      rfl
    · rw [hr, hr]

/-- A number equals what it reads back as. -/
theorem same_reread (h : n.isFinite = true) : n.reread.same n = true := by
  have hself : ∀ d : Double, d.isFinite = true → d.same d = true :=
    fun d hd => Double.same_self_iff.mpr (Double.isNaN_of_isFinite hd)
  cases n with
  | int i => simp [reread, same]
  | double d =>
    rcases reread_double_cases d with ⟨i, hw, hi, hr⟩ | ⟨-, hr⟩
    · rw [hr, same]
      · unfold toDouble
        dsimp only
        rw [toInt_ofInt hi]
        rcases Nat.eq_zero_or_pos d.rank with hd | hd
        · obtain ⟨k, hk, habs, -⟩ := Double.whole?_eq_some hw
          rw [Double.wholePart?_of_rank_eq_zero hd] at hk
          have hi0 : i = 0 := by
            have := Option.some.inj hk
            omega
          subst hi0
          have hnan : d.isNaN = false := Double.isNaN_of_isFinite h
          have hkey : d.orderKey = 0 := by
            unfold Double.orderKey
            rw [hd]
            split <;> rfl
          have hzero : (Double.ofInt 0).isNaN = false ∧ (Double.ofInt 0).orderKey = 0 := by decide
          simp [Double.same, hnan, hkey, hzero]
        · rw [Double.ofInt_of_magnitude h hd (Double.toRat_of_whole? hw)]
          exact hself d h
      · intro a b _ hb
        cases hb
    · rw [hr]
      exact hself d h

/-! ## Reading the text -/

/-- Whole digits are read as an integer if 64 bits hold it. -/
theorem wholeNumber_of_fits {negative : Bool} {m : ℕ} {i : ℤ} (rest : List Char)
    (hi : FitsInt64 i) (habs : i.natAbs = m) (hsign : decide (i < 0) = negative) :
    wholeNumber negative (Nat.toDigits 10 m) rest = .ok (.int (Int64.ofInt i), rest) := by
  have hvalue : (if negative = true then -((m : ℕ) : ℤ) else m) = i := by
    subst hsign
    simp only [decide_eq_true_eq]
    split <;> omega
  unfold wholeNumber
  rw [Nat.ofDigitChars_ten_toDigits]
  dsimp only
  rw [hvalue]
  refine if_pos ⟨hi.1, hi.2, fun h => ?_⟩
  obtain ⟨hneg, hm⟩ := h
  rw [hneg, decide_eq_true_eq] at hsign
  omega

/-- Whole digits that 64 bits do not hold are rounded. -/
theorem wholeNumber_of_not_fits {d : Double} {m : ℕ} (rest : List Char)
    (hfin : d.isFinite = true) (hd : 0 < d.rank) (hm : d.wholePart? = some m)
    (hlt : m < 10 ^ 21) (hnot : ∀ i, d.whole? = some i → ¬ FitsInt64 i) :
    wholeNumber d.negative (Nat.toDigits 10 m) rest = .ok (.double d, rest) := by
  have hlen : (Nat.toDigits 10 m).length ≤ 21 :=
    (Nat.length_toDigits_le_iff (by decide) (by decide)).mpr hlt
  have hwhole := hnot (if d.negative = true then -(m : ℤ) else m) (by
    rw [Double.whole?, hm]
    rfl)
  have hnear := d.near_magnitude
  rw [Double.magnitude_of_wholePart? hm] at hnear
  unfold wholeNumber
  rw [Nat.ofDigitChars_ten_toDigits]
  dsimp only
  rw [if_neg (fun h => hwhole ⟨h.1, h.2.1⟩), nearestDouble_of_near hfin hd,
    finiteNumber_of_isFinite hfin]
  · rw [List.append_nil]
    unfold exactDigits
    omega
  · rw [List.append_nil, Nat.ofDigitChars_ten_toDigits]
    simpa using hnear

/-- The text of a finite number reads back as `reread` of it, in front of any text that does not
continue it. -/
theorem number_chars {rest : List Char} (h : n.isFinite = true) (hr : EndsNumber rest) :
    number (n.chars ++ rest) = .ok (n.reread, rest) := by
  cases n with
  | int i =>
    rw [chars, intChars, number_whole (wholeDigits_toDigits _) hr,
      wholeNumber_of_fits rest (fitsInt64_toInt i) rfl rfl, Int64.ofInt_toInt]
    rfl
  | double d =>
    rcases reread_double_cases d with ⟨i, hw, hi, hreread⟩ | ⟨hnot, hreread⟩
    · rw [hreread, chars, Double.doubleChars_of_whole hw hi, intChars,
        number_whole (wholeDigits_toDigits _) hr, wholeNumber_of_fits rest hi rfl rfl]
    · have hd : 0 < d.rank := by
        refine Nat.pos_of_ne_zero fun hz => ?_
        have hw : d.whole? = some 0 := by
          rw [Double.whole?, Double.wholePart?_of_rank_eq_zero hz]
          cases d.negative <;> rfl
        exact hnot 0 hw (by decide)
      rw [hreread, chars, Double.doubleChars_eq h hd]
      split
      · rename_i m hm
        split
        · rename_i hlt
          rw [number_whole (wholeDigits_toDigits _) hr]
          exact wholeNumber_of_not_fits rest h hd hm hlt hnot
        · rename_i hge
          refine number_shortest h hd (.inr ?_) hr
          rw [Double.magnitude_of_wholePart? hm]
          exact_mod_cast not_lt.mp hge
      · rename_i hm
        exact number_shortest h hd (.inl hm) hr

end Number

end JsonInspect
