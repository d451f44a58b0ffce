import JsonInspect.Proofs.Number.Digits

/-! # Reading numbers back

Main statement: `number_chars`. The text of a finite number reads back as `Number.reread` of it,
which is the number itself, except that a whole binary64 number comes back as an integer when 64
bits hold it. -/

namespace JsonInspect

open Json

namespace Json

/-! ## Rounding what was read -/

/-- Zeros in front do not count. -/
theorem ofDigitChars_dropWhile_zero (ds : List Char) :
    Nat.ofDigitChars 10 (ds.dropWhile (· == '0')) 0 = Nat.ofDigitChars 10 ds 0 := by
  induction ds with
  | nil => rfl
  | cons c ds ih =>
    by_cases h : c = '0'
    · subst h
      rw [List.dropWhile_cons_of_pos (by decide), ih, Nat.ofDigitChars_cons]
      rfl
    · rw [List.dropWhile_cons_of_neg (by simpa using h)]

/-- A text is its part before the zeros that end it, and those zeros. -/
theorem append_trailing_zeros (ds : List Char) :
    ∃ k, ds = (ds.reverse.dropWhile (· == '0')).reverse ++ List.replicate k '0' := by
  have hsplit := List.takeWhile_append_dropWhile (p := (· == '0')) (l := ds.reverse)
  have hzeros : ds.reverse.takeWhile (· == '0') =
      List.replicate (ds.reverse.takeWhile (· == '0')).length '0' :=
    List.eq_replicate_of_mem fun c hc => by
      simpa using List.all_eq_true.mp (List.all_takeWhile (p := (· == '0')) (l := ds.reverse)) c hc
  refine ⟨(ds.reverse.takeWhile (· == '0')).length, ?_⟩
  rw [← List.reverse_inj, List.reverse_append, List.reverse_reverse, List.reverse_replicate,
    ← hzeros, hsplit]

/-- Digits whose value is near a number are rounded to it. -/
theorem nearestDouble_of_near {d : Double} {whole fraction : List Char} {e : ℤ}
    (hfin : d.isFinite = true) (hd : 0 < d.rank)
    (hlen : (whole ++ fraction).length ≤ exactDigits)
    (h : d.Near (Nat.ofDigitChars 10 (whole ++ fraction) 0 * 10 ^ (e - fraction.length))) :
    nearestDouble d.negative whole fraction e = d := by
  obtain ⟨k, hk⟩ := append_trailing_zeros fraction
  unfold nearestDouble
  generalize (fraction.reverse.dropWhile (· == '0')).reverse = kept at *
  subst hk
  have hshort : ((whole ++ kept).dropWhile (· == '0')).length ≤ exactDigits := by
    have := (List.dropWhile_sublist (l := whole ++ kept) (· == '0')).length_le
    simp only [List.length_append, List.length_replicate] at hlen this
    omega
  dsimp only
  rw [if_pos hshort, ofDigitChars_dropWhile_zero]
  refine Double.ofDecimal_of_near hfin hd ?_
  rw [← List.append_assoc, Nat.ofDigitChars_append, Nat.ofDigitChars_replicate_zero,
    List.length_append, List.length_replicate] at h
  have hten : (10 : ℚ) ≠ 0 := by norm_num
  have hpow : (10 : ℚ) ^ (e - (kept.length : ℤ)) = 10 ^ k * 10 ^ (e - (kept.length + k : ℕ)) := by
    rw [← zpow_natCast, ← zpow_add₀ hten]
    congr 1
    omega
  rw [hpow, ← mul_assoc, mul_comm (_ : ℚ) (10 ^ k)]
  exact_mod_cast h

/-! ## The forms of a number -/

section

variable {negative : Bool} {whole fraction rest : List Char}

/-- The sign that was written is taken again. -/
theorem minus_signed (hw : WholeDigits whole) :
    minus (Number.signed negative whole ++ rest) = (negative, whole ++ rest) := by
  cases negative with
  | true => rfl
  | false =>
    obtain ⟨c, ds, rfl⟩ := List.exists_cons_of_ne_nil hw.ne_nil
    unfold minus Number.signed
    dsimp only [List.cons_append]
    split
    · rename_i h
      obtain ⟨rfl, -⟩ := List.cons.inj h
      exact absurd (hw.digits '-' List.mem_cons_self) (by decide)
    · rfl

/-- Without a point there is no fraction. -/
theorem fractionPart_none (h : ∀ c ∈ rest.head?, c ≠ '.') : fractionPart rest = .ok ([], rest) := by
  unfold fractionPart
  split
  · rename_i tail
    exact absurd rfl (h '.' rfl)
  · rfl

theorem number_signed (hw : WholeDigits whole) (hr : NoDigit rest) :
    number (Number.signed negative whole ++ rest) =
      (fractionPart rest).bind fun (digits, rest) => scaledNumber negative whole digits rest := by
  unfold number
  rw [minus_signed hw]
  dsimp only
  rw [wholeDigits_append hw hr]
  rfl

/-- Digits that nothing continues. -/
theorem scaledNumber_ends (hr : EndsNumber rest) :
    scaledNumber negative whole fraction rest =
      if fraction.isEmpty then wholeNumber negative whole rest
      else finiteNumber (nearestDouble negative whole fraction 0) rest := by
  unfold scaledNumber
  split
  · rename_i c tail
    obtain ⟨-, -, he, hE⟩ := hr c rfl
    rw [if_neg (by simp [he, hE])]
  · rfl

/-- A whole number without point or exponent. -/
theorem number_whole (hw : WholeDigits whole) (hr : EndsNumber rest) :
    number (Number.signed negative whole ++ rest) = wholeNumber negative whole rest := by
  rw [number_signed hw hr.noDigit, fractionPart_none fun c hc => (hr c hc).2.1]
  exact scaledNumber_ends hr

/-- A number with a point and no exponent. -/
theorem number_fraction (hw : WholeDigits whole) (hne : fraction ≠ []) (hf : Digits fraction)
    (hr : EndsNumber rest) :
    number (Number.signed negative whole ++ ('.' :: fraction ++ rest)) =
      finiteNumber (nearestDouble negative whole fraction 0) rest := by
  have hread : fractionPart ('.' :: fraction ++ rest) = .ok (fraction, rest) :=
    fractionDigits_append hne hf hr.noDigit
  rw [List.cons_append] at hread ⊢
  rw [number_signed hw (noDigit_cons (by decide)), hread]
  refine (scaledNumber_ends hr).trans (if_neg ?_)
  simpa using hne

def exponentSign (e : ℤ) : Char := if e < 0 then '-' else '+'

theorem exponent_append {isZero : Bool} {e : ℤ} (he : e.natAbs ≤ greatestExponent)
    (hr : NoDigit rest) :
    exponent isZero (exponentSign e :: (Nat.toDigits 10 e.natAbs ++ rest)) = .ok (e, rest) := by
  have hvalue : Nat.ofDigitChars 10 (Nat.toDigits 10 e.natAbs) 0 = e.natAbs :=
    Nat.ofDigitChars_ten_toDigits
  have hread := fun bounded => exponentDigits_append bounded
    (digits_toDigits e.natAbs) hr (by rw [hvalue]; exact he)
  have hdigits := digits_toDigits e.natAbs
  rw [hvalue] at hread
  obtain ⟨c, ds, hds⟩ := List.exists_cons_of_ne_nil (Nat.toDigits_ne_nil (b := 10) (n := e.natAbs))
  rw [hds] at hread hdigits ⊢
  have hc := hdigits c List.mem_cons_self
  have hsign : ∀ cs, Operand.sign (exponentSign e :: cs) = (decide (e < 0), cs) := by
    intro cs
    unfold exponentSign
    split
    · rename_i h
      simp [Operand.sign, h]
    · rename_i h
      simp [Operand.sign, h]
  unfold exponent
  rw [hsign]
  dsimp only [List.cons_append] at hread ⊢
  rw [if_pos hc, hread]
  refine congrArg (fun i => Except.ok (i, rest)) ?_
  simp only [decide_eq_true_eq]
  split <;> omega

theorem scaledNumber_exponent {e : ℤ} (he : e.natAbs ≤ greatestExponent) (hr : NoDigit rest) :
    scaledNumber negative whole fraction
        ('e' :: exponentSign e :: (Nat.toDigits 10 e.natAbs ++ rest)) =
      finiteNumber (nearestDouble negative whole fraction e) rest := by
  unfold scaledNumber
  dsimp only
  rw [if_pos (.inl rfl), exponent_append he hr]
  rfl

end

end Json

/-! ## The texts of a decimal -/

section

variable {d : Double} {x : Decimal} {rest : List Char}

theorem length_digits_le (hx : x.digits < 10 ^ 18) : (Nat.toDigits 10 x.digits).length ≤ 18 :=
  (Nat.length_toDigits_le_iff (by decide) (by decide)).mpr hx

theorem finiteNumber_of_isFinite (h : d.isFinite = true) :
    finiteNumber d rest = .ok (.double d, rest) := if_pos h

/-- Zeros in front and a decimal's digits are worth its digits. -/
theorem ofDigitChars_zeros_append (n : ℕ) (x : Decimal) :
    Nat.ofDigitChars 10 (DigitLayout.zeros n ++ Nat.toDigits 10 x.digits) 0 = x.digits := by
  rw [Nat.ofDigitChars_append, DigitLayout.zeros, Nat.ofDigitChars_replicate_zero, Nat.mul_zero,
    Nat.ofDigitChars_ten_toDigits]

/-- Digits before and after a point whose value is that of a decimal near the number. -/
theorem number_fraction_of_near {whole fraction : List Char} (hfin : d.isFinite = true)
    (hd : 0 < d.rank) (hn : d.Near x.toRat) (hw : WholeDigits whole) (hne : fraction ≠ [])
    (hf : Digits fraction) (hlen : (whole ++ fraction).length ≤ exactDigits)
    (hvalue : Nat.ofDigitChars 10 (whole ++ fraction) 0 = x.digits)
    (hexp : x.exponent = -(fraction.length : ℤ)) (hr : EndsNumber rest) :
    number (Number.signed d.negative (whole ++ '.' :: fraction) ++ rest) =
      .ok (.double d, rest) := by
  have happ : Number.signed d.negative (whole ++ '.' :: fraction) ++ rest =
      Number.signed d.negative whole ++ ('.' :: fraction ++ rest) := by
    cases d.negative <;> simp [Number.signed]
  rw [happ, number_fraction hw hne hf hr,
    nearestDouble_of_near hfin hd hlen (by rwa [hvalue, zero_sub, ← hexp]),
    finiteNumber_of_isFinite hfin]

/-- Digits with a point among them, or in front of them behind zeros. -/
theorem number_positional (hfin : d.isFinite = true) (hd : 0 < d.rank) (hn : d.Near x.toRat)
    (hx : x.digits < 10 ^ 18) (hlow : -5 ≤ x.leadingExponent) (hneg : x.exponent < 0)
    (hr : EndsNumber rest) :
    number (Number.signed d.negative
      (DigitLayout.positional (Nat.toDigits 10 x.digits) x.leadingExponent) ++ rest) =
        .ok (.double d, rest) := by
  have hlen := length_digits_le hx
  have hexp := x.exponent_add_length
  have hdigits := digits_toDigits x.digits
  unfold DigitLayout.positional
  split
  · rename_i hlead
    have hzeros : Digits (DigitLayout.zeros (-x.leadingExponent - 1).toNat) := by
      intro c hc
      rw [List.eq_of_mem_replicate hc]
      decide
    have hcount : (DigitLayout.zeros (-x.leadingExponent - 1).toNat ++
        Nat.toDigits 10 x.digits).length =
          (-x.leadingExponent - 1).toNat + (Nat.toDigits 10 x.digits).length := by
      rw [List.length_append, DigitLayout.zeros, List.length_replicate]
    rw [List.append_assoc]
    change number (Number.signed d.negative (['0'] ++ '.' ::
      (DigitLayout.zeros (-x.leadingExponent - 1).toNat ++ Nat.toDigits 10 x.digits)) ++ rest) = _
    refine number_fraction_of_near hfin hd hn ?_ ?_ ?_ ?_ ?_ ?_ hr
    · exact ⟨by simp, by simp [Digits], fun _ => rfl⟩
    · simp [Nat.toDigits_ne_nil]
    · intro c hc
      exact (List.mem_append.mp hc).elim (hzeros c) (hdigits c)
    · rw [List.length_append, hcount, List.length_singleton]
      unfold exactDigits
      omega
    · exact (ofDigitChars_zeros_append (_ + 1) x)
    · rw [hcount]
      omega
  · rename_i hlead
    dsimp only
    rw [if_neg (by omega)]
    have hsplit := List.take_append_drop (x.leadingExponent.toNat + 1) (Nat.toDigits 10 x.digits)
    refine number_fraction_of_near hfin hd hn
      (wholeDigits_take_toDigits (hn.digits_pos hd) (Nat.succ_pos _)) ?_ ?_ ?_ ?_ ?_ hr
    · rw [Ne, List.drop_eq_nil_iff]
      omega
    · intro c hc
      exact hdigits c (List.mem_of_mem_drop hc)
    · rw [hsplit]
      unfold exactDigits
      omega
    · rw [hsplit, Nat.ofDigitChars_ten_toDigits]
    · rw [List.length_drop]
      omega

/-- One digit, the others behind a point, and an exponent. -/
theorem number_scientific (hfin : d.isFinite = true) (hd : 0 < d.rank) (hn : d.Near x.toRat)
    (hx : x.digits < 10 ^ 18) (hr : EndsNumber rest) :
    number (Number.signed d.negative
      (DigitLayout.scientific (Nat.toDigits 10 x.digits) x.leadingExponent) ++ rest) =
        .ok (.double d, rest) := by
  have hlen := length_digits_le hx
  have hexp := x.exponent_add_length
  have hdigits := digits_toDigits x.digits
  have hpos := Nat.length_toDigits_pos (b := 10) (n := x.digits)
  obtain ⟨hlow, hhigh⟩ := hn.leadingExponent_bounds hfin hd
  have hsplit := List.take_append_drop 1 (Nat.toDigits 10 x.digits)
  have hdrop := List.length_drop (i := 1) (l := Nat.toDigits 10 x.digits)
  have hwhole := wholeDigits_take_toDigits (hn.digits_pos hd) one_pos
  have hfrac : Digits ((Nat.toDigits 10 x.digits).drop 1) :=
    fun c hc => hdigits c (List.mem_of_mem_drop hc)
  unfold DigitLayout.scientific
  dsimp only
  generalize hds : (Nat.toDigits 10 x.digits).drop 1 = ds at *
  generalize (Nat.toDigits 10 x.digits).take 1 = w at *
  have happ : Number.signed d.negative (w ++ (if ds.isEmpty then [] else '.' :: ds) ++
      'e' :: (if x.leadingExponent < 0 then '-' else '+') ::
        Nat.toDigits 10 x.leadingExponent.natAbs) ++ rest =
      Number.signed d.negative w ++ ((if ds.isEmpty then [] else '.' :: ds) ++
        'e' :: exponentSign x.leadingExponent ::
          (Nat.toDigits 10 x.leadingExponent.natAbs ++ rest)) := by
    cases d.negative <;> simp [Number.signed, exponentSign]
  have hpoint : fractionPart ((if ds.isEmpty then [] else '.' :: ds) ++
      'e' :: exponentSign x.leadingExponent ::
        (Nat.toDigits 10 x.leadingExponent.natAbs ++ rest)) =
      .ok (ds, 'e' :: exponentSign x.leadingExponent ::
        (Nat.toDigits 10 x.leadingExponent.natAbs ++ rest)) := by
    cases ds with
    | nil => rfl
    | cons c ds => exact fractionDigits_append (by simp) hfrac (noDigit_cons (by decide))
  have hnodigit : NoDigit ((if ds.isEmpty then [] else '.' :: ds) ++
      'e' :: exponentSign x.leadingExponent ::
        (Nat.toDigits 10 x.leadingExponent.natAbs ++ rest)) := by
    cases ds with
    | nil => exact noDigit_cons (by decide)
    | cons c ds => exact noDigit_cons (by decide)
  rw [happ, number_signed hwhole hnodigit, hpoint]
  refine (scaledNumber_exponent ?_ hr.noDigit).trans ?_
  · unfold greatestExponent
    omega
  · rw [nearestDouble_of_near hfin hd, finiteNumber_of_isFinite hfin]
    · rw [hsplit]
      unfold exactDigits
      omega
    · rw [hsplit, Nat.ofDigitChars_ten_toDigits]
      rwa [show x.leadingExponent - (ds.length : ℤ) = x.exponent by omega]

/-- The shortest digits of a number that is not written with all of its digits read back. -/
theorem number_shortest (hfin : d.isFinite = true) (hd : 0 < d.rank)
    (hw : d.wholePart? = none ∨ 10 ^ 21 ≤ d.magnitude) (hr : EndsNumber rest) :
    number (Number.signed d.negative (Number.layout.write d.shortest) ++ rest) =
      .ok (.double d, rest) := by
  obtain ⟨hn, hx⟩ := Double.shortest_near hd
  unfold DigitLayout.write
  dsimp only
  split
  · rename_i hlayout
    have hneg : d.shortest.exponent < 0 := by
      rcases hw with hw | hw
      · exact hn.exponent_neg hw
      · have := hn.lt_leadingExponent hd hw
        have : d.shortest.leadingExponent ≤ 15 := hlayout.2
        omega
    exact number_positional hfin hd hn hx hlayout.1 hneg hr
  · exact number_scientific hfin hd hn hx hr

end

end JsonInspect
