import Mathlib.Data.Nat.Cast.Order.Field
import JsonInspect.Proofs.Number.Rounding

/-! # The shortest decimal reads back

The search tries decimal grids of one to seventeen digits. A grid point that it takes lies among
the values that round to the number (`gridPoint?_near`); on the grid of seventeen digits one of
the number's two neighbours does, so the search ends with a point (`firstGridPoint?_isSome`).
Main statement: `shortest_near`. -/

namespace JsonInspect

def Decimal.toRat (x : Decimal) : ℚ := x.digits * 10 ^ x.exponent

theorem Decimal.toRat_stripZeros (fuel : ℕ) (x : Decimal) :
    (x.stripZeros fuel).toRat = x.toRat := by
  induction fuel generalizing x with
  | zero => rfl
  | succ fuel ih =>
    unfold stripZeros
    split
    · rename_i h
      rw [ih, toRat, toRat]
      have hdvd : (10 : ℕ) ∣ x.digits := Nat.dvd_of_mod_eq_zero h.2
      dsimp only
      rw [Nat.cast_div hdvd (by norm_num), zpow_add_one₀ (by norm_num), Nat.cast_ofNat]
      ring
    · rfl

theorem Decimal.digits_stripZeros_le (fuel : ℕ) (x : Decimal) :
    (x.stripZeros fuel).digits ≤ x.digits := by
  induction fuel generalizing x with
  | zero => exact le_rfl
  | succ fuel ih =>
    unfold stripZeros
    split
    · exact (ih _).trans (Nat.div_le_self _ _)
    · exact le_rfl

namespace RoundingInterval

/-! ## The interval of a number -/

section

variable (d : Double)

theorem den_pos : 0 < (of d).den := pow_pos_nat (by decide) _

theorem up_div_down :
    ((Nat.pow 2 (d.scale - 2).toNat : ℕ) : ℚ) / (Nat.pow 2 (2 - d.scale).toNat : ℕ) =
      2 ^ d.scale / 4 := by
  have h := pow_div_pow (by decide : 0 < 2) (d.scale - 2)
  rw [show -(d.scale - 2) = 2 - d.scale by omega, Nat.cast_ofNat,
    zpow_sub₀ two_ne_zero] at h
  rw [h]
  norm_num

theorem value_div_den : ((of d).value : ℚ) / (of d).den = d.magnitude := by
  have h := up_div_down d
  simp only [of, Double.magnitude]
  rw [Nat.cast_mul, mul_div_assoc, h]
  push_cast
  ring

theorem high_div_den :
    ((of d).high : ℚ) / (of d).den = (d.significand + 1 / 2) * 2 ^ d.scale := by
  have h := up_div_down d
  simp only [of]
  rw [Nat.cast_mul, mul_div_assoc, h]
  push_cast
  ring

theorem low_div_den {d : Double} (hd : 0 < d.rank) :
    ((of d).low : ℚ) / (of d).den = (d.significand - d.gapBelow) * 2 ^ d.scale := by
  have h := up_div_down d
  have hm := Double.significand_pos hd
  simp only [of, Double.gapBelow]
  rw [Nat.cast_mul, mul_div_assoc, h]
  split
  · rw [Nat.cast_sub (by omega)]
    push_cast
    ring
  · rw [Nat.cast_sub (by omega)]
    push_cast
    ring

end

/-- The interval holds exactly the values near its number. -/
theorem contains_iff {d : Double} (hd : 0 < d.rank) {num den : ℕ} (hden : 0 < den) :
    (of d).contains num den = true ↔ d.Near ((num : ℚ) / den) := by
  have hr : (0 : ℚ) < (of d).den := by exact_mod_cast den_pos d
  have hn : (0 : ℚ) < den := by exact_mod_cast hden
  have hle : ∀ a : ℕ, a * den ≤ num * (of d).den ↔ (a : ℚ) / (of d).den ≤ num / den := by
    intro a
    rw [div_le_div_iff₀ hr hn]
    exact_mod_cast Iff.rfl
  have hge : ∀ a : ℕ, num * (of d).den ≤ a * den ↔ (num : ℚ) / den ≤ a / (of d).den := by
    intro a
    rw [div_le_div_iff₀ hn hr]
    exact_mod_cast Iff.rfl
  have hclosed : (of d).closed = decide (d.significand % 2 = 0) := rfl
  rw [contains, hclosed]
  split
  · rename_i he
    have he : d.significand % 2 = 0 := by simpa using he
    rw [Bool.and_eq_true, decide_eq_true_eq, decide_eq_true_eq, hle, hge, low_div_den hd,
      high_div_den]
    exact ⟨fun h => ⟨h.1, h.2, fun ho => by omega⟩, fun h => ⟨h.low, h.high⟩⟩
  · rename_i he
    have he : d.significand % 2 = 1 := by
      have : ¬ d.significand % 2 = 0 := by simpa using he
      omega
    rw [Bool.and_eq_true, decide_eq_true_eq, decide_eq_true_eq, ← not_le, hge, ← not_le, hle,
      not_le, not_le, low_div_den hd, high_div_den]
    exact ⟨fun h => .of_lt h.1 h.2, fun h => h.odd he⟩

/-! ## Grid points -/

/-- The leading digit of a quotient: the quotient lies between two powers of ten. -/
theorem leadingExponent_spec (r : RoundingInterval) (hv : 0 < r.value) (hd : 0 < r.den) :
    (10 : ℚ) ^ r.leadingExponent ≤ (r.value : ℚ) / r.den ∧
      (r.value : ℚ) / r.den ≤ 10 ^ (r.leadingExponent + 1) := by
  have hvq : (0 : ℚ) < r.value := by exact_mod_cast hv
  have hdq : (0 : ℚ) < r.den := by exact_mod_cast hd
  unfold leadingExponent
  split
  · rename_i hle
    have hq : 0 < r.value / r.den := Nat.div_pos hle hd
    have hlen := Nat.length_toDigits_pos (b := 10) (n := r.value / r.den)
    have hlow := Double.ten_pow_length_le hq
    have hhigh := Double.lt_ten_pow_length (r.value / r.den)
    generalize (Nat.toDigits 10 (r.value / r.den)).length = n at *
    have hlow' : 10 ^ (n - 1) * r.den ≤ r.value := (Nat.le_div_iff_mul_le hd).mp hlow
    have hhigh' : r.value < 10 ^ n * r.den := (Nat.div_lt_iff_lt_mul hd).mp hhigh
    constructor
    · rw [le_div_iff₀ hdq, show ((n : ℤ) - 1) = ((n - 1 : ℕ) : ℤ) by omega]
      exact_mod_cast hlow'
    · rw [div_le_iff₀ hdq, show ((n : ℤ) - 1 + 1) = (n : ℤ) by omega]
      exact_mod_cast hhigh'.le
  · rename_i hlt
    have hq : 0 < r.den / r.value := Nat.div_pos (by omega) hv
    have hlen := Nat.length_toDigits_pos (b := 10) (n := r.den / r.value)
    have hlow := Double.ten_pow_length_le hq
    have hhigh := Double.lt_ten_pow_length (r.den / r.value)
    generalize (Nat.toDigits 10 (r.den / r.value)).length = n at *
    have hlow' : 10 ^ (n - 1) * r.value ≤ r.den := (Nat.le_div_iff_mul_le hv).mp hlow
    have hhigh' : r.den < 10 ^ n * r.value := (Nat.div_lt_iff_lt_mul hv).mp hhigh
    constructor
    · rw [zpow_neg, ← one_div, div_le_div_iff₀ (zpow_pos (by norm_num) _) hdq, one_mul, mul_comm]
      exact_mod_cast hhigh'.le
    · rw [show (-(n : ℤ) + 1) = -((n - 1 : ℕ) : ℤ) by omega, zpow_neg, ← one_div,
        div_le_div_iff₀ hdq (zpow_pos (by norm_num) _), one_mul, mul_comm]
      exact_mod_cast hlow'

variable {d : Double}

/-- The grid point with an index, as a fraction. -/
theorem grid_eq (e : ℤ) (n : ℕ) :
    ((n * Nat.pow 10 e.toNat : ℕ) : ℚ) / (Nat.pow 10 (-e).toNat : ℕ) = n * 10 ^ e := by
  have h := pow_div_pow (by decide : 0 < 10) e
  rw [Nat.cast_ofNat] at h
  rw [Nat.cast_mul, mul_div_assoc, h]

/-- The index of the grid point at or below the value. -/
def gridIndex (r : RoundingInterval) (e : ℤ) : ℕ :=
  r.value * Nat.pow 10 (-e).toNat / (r.den * Nat.pow 10 e.toNat)

theorem gridIndex_spec (d : Double) (e : ℤ) :
    ((of d).gridIndex e : ℚ) * 10 ^ e ≤ d.magnitude ∧
      d.magnitude < ((of d).gridIndex e + 1) * 10 ^ e := by
  have hten : (0 : ℚ) < 10 ^ e := zpow_pos (by norm_num) e
  have hden : 0 < (of d).den * Nat.pow 10 e.toNat :=
    Nat.mul_pos (den_pos d) (pow_pos_nat (by decide) _)
  have hdq : (0 : ℚ) < ((of d).den * Nat.pow 10 e.toNat : ℕ) := by exact_mod_cast hden
  have hquot : d.magnitude / 10 ^ e =
      ((of d).value * Nat.pow 10 (-e).toNat : ℕ) / ((of d).den * Nat.pow 10 e.toNat : ℕ) := by
    have h := pow_div_pow (by decide : 0 < 10) (-e)
    rw [neg_neg, Nat.cast_ofNat, zpow_neg] at h
    rw [← value_div_den, Nat.cast_mul, Nat.cast_mul, mul_div_mul_comm, h, div_eq_mul_inv _ (_ ^ e)]
  rw [← le_div_iff₀ hten, ← div_lt_iff₀ hten, hquot]
  exact ⟨Nat.cast_div_le, (div_lt_iff₀ hdq).mpr (by
    exact_mod_cast Nat.lt_mul_of_div_lt (Nat.lt_succ_self _) hden)⟩

/-- What a grid gives: one of the two neighbours of the value, if it is near the number. -/
theorem gridPoint?_near (hd : 0 < d.rank) {e : ℤ} {x : Decimal}
    (h : (of d).gridPoint? e = some x) :
    d.Near x.toRat ∧ x.exponent = e ∧ x.digits ≤ (of d).gridIndex e + 1 := by
  have hinside : ∀ n : ℕ, (of d).contains (n * Nat.pow 10 e.toNat) (Nat.pow 10 (-e).toNat) = true →
      d.Near (n * 10 ^ e) := by
    intro n hn
    rw [← grid_eq]
    exact (contains_iff hd (pow_pos_nat (by decide) _)).mp hn
  unfold gridPoint? at h
  dsimp only at h
  rw [← gridIndex] at h
  obtain ⟨n, hn, rfl⟩ := Option.map_eq_some_iff.mp h
  split at hn
  · rename_i hb
    obtain rfl := Option.some.inj hn
    exact ⟨hinside _ (Bool.and_eq_true_iff.mp hb).1, rfl, Nat.le_succ _⟩
  · split at hn
    · rename_i ha
      obtain rfl := Option.some.inj hn
      exact ⟨hinside _ ha, rfl, le_rfl⟩
    · exact absurd hn (by simp)

/-- A grid gives a point as soon as a neighbour of the value is near. -/
theorem gridPoint?_isSome (hd : 0 < d.rank) {e : ℤ}
    (h : d.Near ((of d).gridIndex e * 10 ^ e) ∨ d.Near (((of d).gridIndex e + 1 : ℕ) * 10 ^ e)) :
    ((of d).gridPoint? e).isSome = true := by
  have hinside : ∀ n : ℕ, d.Near (n * 10 ^ e) →
      (of d).contains (n * Nat.pow 10 e.toNat) (Nat.pow 10 (-e).toNat) = true := by
    intro n hn
    rw [← grid_eq] at hn
    exact (contains_iff hd (pow_pos_nat (by decide) _)).mpr hn
  unfold gridPoint?
  dsimp only
  rw [← gridIndex, Option.isSome_map]
  split
  · rfl
  · rename_i hb
    split
    · rfl
    · rename_i ha
      rcases h with hn | hn
      · rw [hinside _ hn, Bool.eq_false_iff.mpr ha] at hb
        simp at hb
      · exact absurd (hinside _ hn) ha

/-! ## The search -/

/-- The search gives a point of one of the grids that it tries. -/
theorem firstGridPoint?_eq_some {r : RoundingInterval} {fuel digits : ℕ} {x : Decimal}
    (h : r.firstGridPoint? fuel digits = some x) :
    ∃ k, digits ≤ k ∧ k < digits + fuel ∧ r.gridPoint? (r.leadingExponent - k + 1) = some x := by
  induction fuel generalizing digits with
  | zero => simp [firstGridPoint?] at h
  | succ fuel ih =>
    unfold firstGridPoint? at h
    split at h
    · rename_i y hy
      obtain rfl := Option.some.inj h
      exact ⟨digits, le_rfl, by omega, hy⟩
    · obtain ⟨k, hk, hlt, hx⟩ := ih h
      exact ⟨k, by omega, by omega, hx⟩

/-- The search ends with a point when the last grid that it tries has one. -/
theorem firstGridPoint?_isSome {r : RoundingInterval} {fuel digits : ℕ}
    (h : (r.gridPoint? (r.leadingExponent - (digits + fuel : ℕ) + 1)).isSome = true) :
    (r.firstGridPoint? (fuel + 1) digits).isSome = true := by
  induction fuel generalizing digits with
  | zero =>
    unfold firstGridPoint?
    split
    · rfl
    · rename_i hnone
      rw [Nat.add_zero, hnone] at h
      exact absurd h (by simp)
  | succ fuel ih =>
    unfold firstGridPoint?
    split
    · rfl
    · exact ih (by rwa [show digits + 1 + fuel = digits + (fuel + 1) by omega])

/-- Sixteen powers of ten below a number are less than twice the distance that rounds to it. -/
theorem magnitude_div_lt (d : Double) :
    d.magnitude / 10 ^ 16 < 2 * d.gapBelow * 2 ^ d.scale := by
  have hs := Double.two_zpow_pos d.scale
  rw [Double.magnitude, mul_div_right_comm]
  refine mul_lt_mul_of_pos_right ?_ hs
  rw [div_lt_iff₀ (by norm_num)]
  unfold Double.gapBelow
  split
  · rename_i h
    have hm : d.significand = Double.binade := by
      unfold Double.significand
      rw [if_neg (by omega), h.1, Nat.add_zero]
    rw [hm, Double.binade_eq]
    norm_num
  · have hm : (d.significand : ℚ) < 2 * Double.binade := by exact_mod_cast d.significand_lt
    rw [Double.binade_eq] at hm
    norm_num at hm ⊢
    linarith

/-- Seventeen digits suffice: on that grid the nearer neighbour of the value is near. -/
theorem seventeenth_isSome (hd : 0 < d.rank) :
    ((of d).gridPoint? ((of d).leadingExponent - (1 + 16 : ℕ) + 1)).isSome = true := by
  obtain ⟨e, he⟩ : ∃ e, e = (of d).leadingExponent - (1 + 16 : ℕ) + 1 := ⟨_, rfl⟩
  have hvalue : 0 < (of d).value :=
    Nat.mul_pos (Nat.mul_pos (by decide) (Double.significand_pos hd)) (pow_pos_nat (by decide) _)
  have hlead := (leadingExponent_spec (of d) hvalue (den_pos d)).1
  rw [value_div_den] at hlead
  have hstep : (10 : ℚ) ^ e < 2 * d.gapBelow * 2 ^ d.scale := by
    refine lt_of_le_of_lt ?_ (magnitude_div_lt d)
    rw [le_div_iff₀ (by norm_num), ← zpow_ofNat, ← zpow_add₀ (by norm_num)]
    rwa [show e + 16 = (of d).leadingExponent by omega]
  have hgap := mul_le_mul_of_nonneg_right d.gapBelow_le (Double.two_zpow_pos d.scale).le
  obtain ⟨hlow, hhigh⟩ := gridIndex_spec d e
  have hm : d.magnitude = d.significand * 2 ^ d.scale := rfl
  have near_of : ∀ y : ℚ, d.magnitude - 10 ^ e / 2 ≤ y → y ≤ d.magnitude + 10 ^ e / 2 →
      d.Near y := by
    intro y h1 h2
    refine .of_lt ?_ ?_
    · rw [sub_mul, ← hm]
      linarith
    · rw [add_mul, ← hm]
      linarith
  rw [← he]
  refine gridPoint?_isSome hd ?_
  push_cast
  rcases le_total (((of d).gridIndex e : ℚ) * 10 ^ e + 10 ^ e / 2) d.magnitude with h | h
  · exact .inr (near_of _ (by linarith) (by linarith))
  · exact .inl (near_of _ (by linarith) (by linarith))

end RoundingInterval

open RoundingInterval in
/-- The shortest decimal of a number is near it, and has at most eighteen digits. -/
theorem Double.shortest_near {d : Double} (hd : 0 < d.rank) :
    d.Near d.shortest.toRat ∧ d.shortest.digits < 10 ^ 18 := by
  obtain ⟨x, hx⟩ := Option.isSome_iff_exists.mp (firstGridPoint?_isSome (seventeenth_isSome hd))
  have hx' : d.shortest = x.stripZeros 17 := by
    unfold Double.shortest
    rw [hx, Option.getD_some]
  obtain ⟨k, hk, hlt, hgrid⟩ := firstGridPoint?_eq_some hx
  obtain ⟨hnear, -, hdigits⟩ := gridPoint?_near hd hgrid
  rw [hx', Decimal.toRat_stripZeros]
  refine ⟨hnear, (Decimal.digits_stripZeros_le 17 x).trans_lt (hdigits.trans_lt ?_)⟩
  have hvalue : 0 < (of d).value :=
    Nat.mul_pos (Nat.mul_pos (by decide) (Double.significand_pos hd)) (pow_pos_nat (by decide) _)
  have hlead := (leadingExponent_spec (of d) hvalue (den_pos d)).2
  rw [value_div_den] at hlead
  have hindex := (gridIndex_spec d ((of d).leadingExponent - k + 1)).1
  have hle : ((of d).gridIndex ((of d).leadingExponent - k + 1) : ℚ) ≤ 10 ^ (k : ℤ) := by
    have hten : (0 : ℚ) < 10 ^ ((of d).leadingExponent - k + 1) := zpow_pos (by norm_num) _
    refine le_of_mul_le_mul_right ((hindex.trans hlead).trans_eq ?_) hten
    rw [← zpow_add₀ (by norm_num)]
    congr 1
    omega
  have hle' : (of d).gridIndex ((of d).leadingExponent - k + 1) ≤ 10 ^ k := by exact_mod_cast hle
  have hpow : 10 ^ k ≤ 10 ^ 17 := Nat.pow_le_pow_right (by decide) (by omega)
  have : 10 ^ 17 + 1 < 10 ^ 18 := by decide
  omega

/-! ## Decimals near a number -/

namespace Decimal

theorem exponent_add_length (x : Decimal) :
    x.exponent = x.leadingExponent + 1 - (Nat.toDigits 10 x.digits).length := by
  unfold leadingExponent
  omega

/-- The leading exponent says between which powers of ten a decimal lies. -/
theorem leadingExponent_spec {x : Decimal} (hx : 0 < x.digits) :
    (10 : ℚ) ^ x.leadingExponent ≤ x.toRat ∧ x.toRat < 10 ^ (x.leadingExponent + 1) := by
  have hten : (0 : ℚ) < 10 ^ x.exponent := zpow_pos (by norm_num) _
  have hne : (10 : ℚ) ≠ 0 := by norm_num
  have hpos := Nat.length_toDigits_pos (b := 10) (n := x.digits)
  have hlow := Double.ten_pow_length_le hx
  have hhigh := Double.lt_ten_pow_length x.digits
  unfold leadingExponent toRat
  generalize (Nat.toDigits 10 x.digits).length = n at *
  constructor
  · rw [show x.exponent + (n : ℤ) - 1 = ((n - 1 : ℕ) : ℤ) + x.exponent by omega,
      zpow_add₀ hne, zpow_natCast]
    exact mul_le_mul_of_nonneg_right (by exact_mod_cast hlow) hten.le
  · rw [show x.exponent + (n : ℤ) - 1 + 1 = (n : ℤ) + x.exponent by omega,
      zpow_add₀ hne, zpow_natCast]
    exact mul_lt_mul_of_pos_right (by exact_mod_cast hhigh) hten

end Decimal

namespace Double

variable {d : Double} {x : Decimal}

theorem Near.digits_pos (h : d.Near x.toRat) (hd : 0 < d.rank) : 0 < x.digits := by
  have hpos := h.pos hd
  rcases Nat.eq_zero_or_pos x.digits with h0 | h0
  · simp [Decimal.toRat, h0] at hpos
  · exact h0

/-- The exponent of a decimal near a finite number is small. -/
theorem Near.leadingExponent_bounds (h : d.Near x.toRat) (hfin : d.isFinite = true)
    (hd : 0 < d.rank) : -325 ≤ x.leadingExponent ∧ x.leadingExponent < 309 := by
  obtain ⟨hlow, hhigh⟩ := Decimal.leadingExponent_spec (h.digits_pos hd)
  have h1 := (zpow_lt_zpow_iff_right₀ (by norm_num : (1 : ℚ) < 10)).mp
    (hlow.trans_lt (h.lt_overflow hfin))
  have h2 := (zpow_lt_zpow_iff_right₀ (by norm_num : (1 : ℚ) < 10)).mp
    ((h.gt_underflow hd).trans hhigh)
  omega

/-- A number that is not whole has no whole number near it. -/
theorem not_near_natCast (h : d.wholePart? = none) (k : ℕ) : ¬ d.Near k := by
  intro hn
  obtain ⟨hs, hdvd⟩ := not_whole_of_wholePart?_none h
  have hpow := pow_div_pow (by decide : 0 < 2) d.scale
  rw [show d.scale.toNat = 0 by omega, show Nat.pow 2 0 = 1 from rfl, Nat.cast_one, one_div,
    Nat.cast_ofNat] at hpow
  have hden : (0 : ℚ) < (Nat.pow 2 (-d.scale).toNat : ℕ) := by
    exact_mod_cast pow_pos_nat (by decide) _
  obtain ⟨hlow, hhigh⟩ : (d.significand : ℚ) - 1 / 2 ≤ (k * Nat.pow 2 (-d.scale).toNat : ℕ) ∧
      ((k * Nat.pow 2 (-d.scale).toNat : ℕ) : ℚ) ≤ d.significand + 1 / 2 := by
    have hgap := d.gapBelow_le
    have hlow := hn.low
    have hhigh := hn.high
    rw [← hpow, ← div_eq_mul_inv] at hlow hhigh
    rw [div_le_iff₀ hden] at hlow
    rw [le_div_iff₀ hden] at hhigh
    rw [Nat.cast_mul]
    exact ⟨by linarith, hhigh⟩
  have h1 : d.significand < k * Nat.pow 2 (-d.scale).toNat + 1 := by
    have : (d.significand : ℚ) < (k * Nat.pow 2 (-d.scale).toNat : ℕ) + 1 := by linarith
    exact_mod_cast this
  have h2 : k * Nat.pow 2 (-d.scale).toNat < d.significand + 1 := by
    have : ((k * Nat.pow 2 (-d.scale).toNat : ℕ) : ℚ) < d.significand + 1 := by linarith
    exact_mod_cast this
  have heq : d.significand = k * Nat.pow 2 (-d.scale).toNat := by omega
  exact hdvd (heq ▸ Nat.dvd_mul_left _ k)

/-- A decimal near a number that is not whole has digits behind its point. -/
theorem Near.exponent_neg (h : d.Near x.toRat) (hw : d.wholePart? = none) : x.exponent < 0 := by
  refine not_le.mp fun he => ?_
  obtain ⟨k, hk⟩ := Int.eq_ofNat_of_zero_le he
  refine not_near_natCast hw (x.digits * 10 ^ k) ?_
  rw [Decimal.toRat, hk] at h
  exact_mod_cast h

/-- A decimal near a large number has a large leading exponent. -/
theorem Near.lt_leadingExponent (h : d.Near x.toRat) (hd : 0 < d.rank)
    (hbig : 10 ^ 21 ≤ d.magnitude) : 15 < x.leadingExponent := by
  have hm : (1 : ℚ) ≤ d.significand := by exact_mod_cast significand_pos hd
  have hhalf : d.magnitude / 2 ≤ x.toRat := by
    refine le_trans ?_ h.low
    rw [magnitude, mul_div_right_comm]
    exact mul_le_mul_of_nonneg_right (by linarith [d.gapBelow_le]) (two_zpow_pos _).le
  have hhigh := (Decimal.leadingExponent_spec (h.digits_pos hd)).2
  have hlt : (10 : ℚ) ^ (16 : ℤ) < 10 ^ (x.leadingExponent + 1) := by
    refine lt_of_le_of_lt ?_ (hhalf.trans_lt hhigh)
    refine le_trans ?_ (div_le_div_of_nonneg_right hbig zero_le_two)
    norm_num
  have := (zpow_lt_zpow_iff_right₀ (by norm_num : (1 : ℚ) < 10)).mp hlt
  omega

end Double

end JsonInspect
