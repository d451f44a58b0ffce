import Mathlib.Data.Rat.Floor
import JsonInspect.Proofs.Number.Value

/-! # Rounding to the nearest binary64 number

`Near d x` says that `x` lies among the values that round to `d`: half a step above it, and half
a step below it, or a quarter of one below a power of two, where the steps are half as wide. The
main statements are that `nearest` and `ofDecimal` give `d` for every such value. -/

namespace JsonInspect

/-! ## Whole numbers and powers of two -/

/-- A quotient within half of `m`, the halves themselves only for an even `m`, rounds to `m`. -/
theorem roundEven_eq {num den m : ℕ} (hden : 0 < den)
    (hlow : (m : ℚ) - 1 / 2 ≤ (num : ℚ) / den) (hhigh : (num : ℚ) / den ≤ m + 1 / 2)
    (hodd : m % 2 = 1 → (m : ℚ) - 1 / 2 < (num : ℚ) / den ∧ (num : ℚ) / den < m + 1 / 2) :
    roundEven num den = m := by
  have hd : (0 : ℚ) < den := by exact_mod_cast hden
  have hsplit : (num : ℚ) / den = (num / den : ℕ) + ((num % den : ℕ) : ℚ) / den := by
    have h : (num : ℚ) = den * (num / den : ℕ) + (num % den : ℕ) := by
      exact_mod_cast (Nat.div_add_mod num den).symm
    rw [div_eq_iff hd.ne', add_mul, div_mul_cancel₀ _ hd.ne', mul_comm]
    exact h
  have hf0 : (0 : ℚ) ≤ ((num % den : ℕ) : ℚ) / den := by positivity
  have hf1 : ((num % den : ℕ) : ℚ) / den < 1 := by
    rw [div_lt_one hd]
    exact_mod_cast Nat.mod_lt num hden
  have hlt : 2 * (num % den) < den ↔ ((num % den : ℕ) : ℚ) / den < 1 / 2 := by
    rw [div_lt_div_iff₀ hd two_pos, one_mul, mul_comm]
    exact_mod_cast Iff.rfl
  have heq : 2 * (num % den) = den ↔ ((num % den : ℕ) : ℚ) / den = 1 / 2 := by
    rw [div_eq_div_iff hd.ne' two_ne_zero, one_mul, mul_comm]
    exact_mod_cast Iff.rfl
  unfold roundEven
  rw [hsplit] at hlow hhigh hodd
  simp only [hlt, heq]
  generalize ((num % den : ℕ) : ℚ) / den = f at *
  generalize num / den = q at *
  have hqm : q = m ∨ q + 1 = m := by
    have h1 : m < q + 2 := by exact_mod_cast (by linarith : (m : ℚ) < q + 2)
    have h2 : q < m + 1 := by exact_mod_cast (by linarith : (q : ℚ) < m + 1)
    omega
  rcases hqm with rfl | rfl
  · split
    · rfl
    · rename_i hup
      have hfle : f ≤ 1 / 2 := by linarith
      have hfeq : f = 1 / 2 := le_antisymm hfle (not_lt.mp fun h => hup (.inl h))
      have hqodd : q % 2 = 1 := by
        have : ¬ q % 2 = 0 := fun h => hup (.inr ⟨hfeq, h⟩)
        omega
      linarith [(hodd hqodd).2]
  · push_cast at hlow hhigh hodd
    have hfge : 1 / 2 ≤ f := by linarith
    split
    · rename_i hdown
      rcases hdown with hlt | ⟨hfeq, heven⟩
      · linarith
      · linarith [(hodd (by omega)).1]
    · rfl

/-- The quotient's binary logarithm, rounded down. -/
theorem floorLog2_eq {num den : ℕ} (hnum : 0 < num) (hden : 0 < den) :
    floorLog2 num den = Int.log 2 ((num : ℚ) / den) := by
  have hn : (0 : ℚ) < num := by exact_mod_cast hnum
  have hd : (0 : ℚ) < den := by exact_mod_cast hden
  have hx : (0 : ℚ) < (num : ℚ) / den := div_pos hn hd
  have two : (2 : ℚ) ≠ 0 := two_ne_zero
  have hnlow : (2 : ℚ) ^ (Nat.log2 num : ℤ) ≤ num := by
    exact_mod_cast Nat.log2_self_le hnum.ne'
  have hnhigh : (num : ℚ) < 2 ^ ((Nat.log2 num : ℤ) + 1) := by
    exact_mod_cast (Nat.lt_log2_self : num < 2 ^ (Nat.log2 num + 1))
  have hdlow : (2 : ℚ) ^ (Nat.log2 den : ℤ) ≤ den := by
    exact_mod_cast Nat.log2_self_le hden.ne'
  have hdhigh : (den : ℚ) < 2 ^ ((Nat.log2 den : ℤ) + 1) := by
    exact_mod_cast (Nat.lt_log2_self : den < 2 ^ (Nat.log2 den + 1))
  obtain ⟨k, hk⟩ : ∃ k : ℤ, k = (Nat.log2 num : ℤ) - Nat.log2 den := ⟨_, rfl⟩
  have hbelow : (2 : ℚ) ^ (k - 1) < (num : ℚ) / den := by
    rw [lt_div_iff₀ hd]
    calc (2 : ℚ) ^ (k - 1) * den < 2 ^ (k - 1) * 2 ^ ((Nat.log2 den : ℤ) + 1) :=
          mul_lt_mul_of_pos_left hdhigh (Double.two_zpow_pos _)
      _ = 2 ^ (Nat.log2 num : ℤ) := by rw [← zpow_add₀ two, hk]; congr 1; omega
      _ ≤ num := hnlow
  have habove : (num : ℚ) / den < 2 ^ (k + 1) := by
    rw [div_lt_iff₀ hd]
    calc (num : ℚ) < 2 ^ ((Nat.log2 num : ℤ) + 1) := hnhigh
      _ = 2 ^ (k + 1) * 2 ^ (Nat.log2 den : ℤ) := by rw [← zpow_add₀ two, hk]; congr 1; omega
      _ ≤ 2 ^ (k + 1) * den := mul_le_mul_of_nonneg_left hdlow (Double.two_zpow_pos _).le
  have hlow : k - 1 ≤ Int.log 2 ((num : ℚ) / den) :=
    (Int.zpow_le_iff_le_log (by decide) hx).mp (by exact_mod_cast hbelow.le)
  have hhigh : Int.log 2 ((num : ℚ) / den) < k + 1 :=
    (Int.lt_zpow_iff_log_lt (by decide) hx).mp (by exact_mod_cast habove)
  have hpow := pow_div_pow (by decide : 0 < 2) k
  have hreach : (if 0 ≤ k then decide (den * Nat.pow 2 k.toNat ≤ num)
      else decide (den ≤ num * Nat.pow 2 (-k).toNat)) = true ↔
      k ≤ Int.log 2 ((num : ℚ) / den) := by
    rw [← Int.zpow_le_iff_le_log (by decide) hx, le_div_iff₀ hd, ← hpow]
    split
    · have hz : (-k).toNat = 0 := by omega
      rw [hz, decide_eq_true_eq, show Nat.pow 2 0 = 1 from rfl, Nat.cast_one, div_one, mul_comm]
      exact_mod_cast Iff.rfl
    · have hz : k.toNat = 0 := by omega
      have hpos : (0 : ℚ) < (Nat.pow 2 (-k).toNat : ℕ) := by
        exact_mod_cast pow_pos_nat (by decide) _
      rw [hz, decide_eq_true_eq, show Nat.pow 2 0 = 1 from rfl, Nat.cast_one, div_mul_eq_mul_div,
        one_mul, div_le_iff₀ hpos]
      exact_mod_cast Iff.rfl
  unfold floorLog2
  rw [← hk]
  dsimp only
  by_cases hr : k ≤ Int.log 2 ((num : ℚ) / den)
  · rw [if_pos (hreach.mpr hr)]
    omega
  · rw [if_neg (fun h => hr (hreach.mp h))]
    omega

namespace Double

/-! ## The values that round to a number -/

/-- How far below a number values still round to it, in steps. -/
def gapBelow (d : Double) : ℚ := if d.rank % binade = 0 ∧ binade < d.rank then 1 / 4 else 1 / 2

/-- `x` is one of the absolute values that round to `d`. -/
structure Near (d : Double) (x : ℚ) : Prop where
  low : (d.significand - d.gapBelow) * 2 ^ d.scale ≤ x
  high : x ≤ (d.significand + 1 / 2) * 2 ^ d.scale
  odd : d.significand % 2 = 1 →
    (d.significand - d.gapBelow) * 2 ^ d.scale < x ∧ x < (d.significand + 1 / 2) * 2 ^ d.scale

theorem gapBelow_pos (d : Double) : 0 < d.gapBelow := by
  unfold gapBelow
  split <;> norm_num

theorem gapBelow_le (d : Double) : d.gapBelow ≤ 1 / 2 := by
  unfold gapBelow
  split <;> norm_num

/-- Strictly inside is near, whatever the parity of the significand. -/
theorem Near.of_lt {d : Double} {x : ℚ} (hlow : (d.significand - d.gapBelow) * 2 ^ d.scale < x)
    (hhigh : x < (d.significand + 1 / 2) * 2 ^ d.scale) : d.Near x :=
  ⟨hlow.le, hhigh.le, fun _ => ⟨hlow, hhigh⟩⟩

/-- A number rounds to itself. -/
theorem near_magnitude (d : Double) : d.Near d.magnitude :=
  .of_lt (mul_lt_mul_of_pos_right (by linarith [d.gapBelow_pos]) (two_zpow_pos _))
    (mul_lt_mul_of_pos_right (by linarith) (two_zpow_pos _))

/-- A near value is at least half a step. -/
theorem Near.half_step_le {d : Double} {x : ℚ} (h : d.Near x) (hd : 0 < d.rank) :
    2 ^ d.scale / 2 ≤ x := by
  have hm : (1 : ℚ) ≤ d.significand := by exact_mod_cast significand_pos hd
  have hg := d.gapBelow_le
  calc (2 : ℚ) ^ d.scale / 2 = 1 / 2 * 2 ^ d.scale := by ring
    _ ≤ (d.significand - d.gapBelow) * 2 ^ d.scale :=
      mul_le_mul_of_nonneg_right (by linarith) (two_zpow_pos _).le
    _ ≤ x := h.low

theorem Near.pos {d : Double} {x : ℚ} (h : d.Near x) (hd : 0 < d.rank) : 0 < x :=
  lt_of_lt_of_le (by linarith [two_zpow_pos d.scale]) (h.half_step_le hd)

/-! ## Rounding -/

/-- Rounding counts steps of the scale that the value's logarithm picks. -/
theorem nearest_eq_clamped {num den : ℕ} (negative : Bool) (steps : ℕ) (scale : ℤ)
    (hnum : 0 < num) (hden : 0 < den)
    (hscale : max (-1074) (Int.log 2 ((num : ℚ) / den) - 52) = scale)
    (hlow : (steps - 1 / 2) * 2 ^ scale ≤ (num : ℚ) / den)
    (hhigh : (num : ℚ) / den ≤ (steps + 1 / 2) * 2 ^ scale)
    (hodd : steps % 2 = 1 →
      (steps - 1 / 2) * 2 ^ scale < (num : ℚ) / den ∧
        (num : ℚ) / den < (steps + 1 / 2) * 2 ^ scale) :
    nearest negative num den = clamped negative ((scale + 1074).toNat * binade + steps) := by
  have hs := two_zpow_pos scale
  have hpow := pow_div_pow (by decide : 0 < 2) scale
  rw [← le_div_iff₀ hs] at hlow
  rw [← div_le_iff₀ hs] at hhigh
  rw [← lt_div_iff₀ hs, ← div_lt_iff₀ hs] at hodd
  unfold nearest
  rw [if_neg hnum.ne', floorLog2_eq hnum hden]
  dsimp only
  rw [hscale]
  congr 2
  split
  · have hz : (-scale).toNat = 0 := by omega
    rw [hz, show Nat.pow 2 0 = 1 from rfl, Nat.cast_one, div_one] at hpow
    have hq : (num : ℚ) / den / 2 ^ scale = num / (den * Nat.pow 2 scale.toNat : ℕ) := by
      rw [div_div, Nat.cast_mul, hpow, Nat.cast_ofNat]
    rw [hq] at hlow hhigh hodd
    exact roundEven_eq (Nat.mul_pos hden (pow_pos_nat (by decide) _)) hlow hhigh hodd
  · have hz : scale.toNat = 0 := by omega
    rw [hz, show Nat.pow 2 0 = 1 from rfl, Nat.cast_one, one_div, Nat.cast_ofNat] at hpow
    have hq : (num : ℚ) / den / 2 ^ scale = (num * Nat.pow 2 (-scale).toNat : ℕ) / den := by
      rw [← hpow, div_inv_eq_mul, Nat.cast_mul, div_mul_eq_mul_div]
    rw [hq] at hlow hhigh hodd
    exact roundEven_eq hden hlow hhigh hodd

/-- A significand at a power of two above the first binade has half-width steps below it. -/
theorem gapBelow_of_significand_eq {d : Double} (hm : d.significand = binade)
    (hs : -1074 < d.scale) : d.gapBelow = 1 / 4 := by
  unfold gapBelow
  refine if_pos ?_
  unfold significand at hm
  unfold scale at hs
  have hb : 0 < binade := by decide
  split at hm
  · omega
  · rename_i hr
    rw [if_neg hr] at hs
    have hq : 2 ≤ d.rank / binade := by omega
    have := (Nat.le_div_iff_mul_le hb).mp hq
    omega

/-- Away from the lower end of its binade a near value picks the number's own scale. -/
theorem Near.scale_eq {d : Double} {x : ℚ} (h : d.Near x) (hd : 0 < d.rank)
    (hx : d.scale = -1074 ∨ binade * 2 ^ d.scale ≤ x) :
    max (-1074) (Int.log 2 x - 52) = d.scale := by
  have hpos := h.pos hd
  have hm : (d.significand : ℚ) + 1 ≤ 2 * binade := by exact_mod_cast d.significand_lt
  have hbinade : (binade : ℚ) = 2 ^ (52 : ℤ) := by norm_num [binade_eq]
  have hlt : x < (2 : ℕ) ^ (53 + d.scale) := by
    calc x ≤ (d.significand + 1 / 2) * 2 ^ d.scale := h.high
      _ < 2 * binade * 2 ^ d.scale :=
        mul_lt_mul_of_pos_right (by linarith) (two_zpow_pos _)
      _ = (2 : ℕ) ^ (53 + d.scale) := by
        rw [hbinade, Nat.cast_ofNat, zpow_add₀ two_ne_zero]
        norm_num
  have hlog : Int.log 2 x < 53 + d.scale := (Int.lt_zpow_iff_log_lt (by decide) hpos).mp hlt
  rcases hx with hs | hge
  · omega
  · have hge' : ((2 : ℕ) : ℚ) ^ (52 + d.scale) ≤ x := by
      rw [Nat.cast_ofNat, zpow_add₀ two_ne_zero, ← hbinade]
      exact hge
    have := (Int.zpow_le_iff_le_log (by decide) hpos).mp hge'
    have := d.scale_ge
    omega

/-- Every value near a finite number other than zero rounds to it. -/
theorem nearest_of_near {d : Double} {num den : ℕ} (hfin : d.isFinite = true) (hd : 0 < d.rank)
    (hden : 0 < den) (h : d.Near ((num : ℚ) / den)) : nearest d.negative num den = d := by
  have hpos := h.pos hd
  have hnum : 0 < num := by
    rcases Nat.eq_zero_or_pos num with rfl | hn
    · simp at hpos
    · exact hn
  have hs := two_zpow_pos d.scale
  by_cases hx : d.scale = -1074 ∨ binade * 2 ^ d.scale ≤ (num : ℚ) / den
  · have hg := d.gapBelow_le
    have hmul : (d.significand - 1 / 2) * 2 ^ d.scale ≤
        ((d.significand : ℚ) - d.gapBelow) * 2 ^ d.scale :=
      mul_le_mul_of_nonneg_right (by linarith) hs.le
    rw [nearest_eq_clamped d.negative d.significand d.scale hnum hden (h.scale_eq hd hx)
      (hmul.trans h.low) h.high (fun ho => ⟨hmul.trans_lt (h.odd ho).1, (h.odd ho).2⟩),
      ← rank_eq, clamped_rank hfin]
  · -- The value lies below a power of two: the steps there are those of the scale below.
    rw [not_or, not_le] at hx
    obtain ⟨hscale, hlt⟩ := hx
    have hge := d.scale_ge
    have hm : d.significand = binade := by
      have hle : ¬ d.significand < binade := fun hm => hscale (scale_eq_of_significand_lt hm)
      have hnot : ¬ binade + 1 ≤ d.significand := fun hm => by
        have hm' : (binade : ℚ) + 1 ≤ d.significand := by exact_mod_cast hm
        have := mul_le_mul_of_nonneg_right
          (by linarith [d.gapBelow_le] : (binade : ℚ) ≤ d.significand - d.gapBelow) hs.le
        linarith [h.low]
      omega
    have hgap := gapBelow_of_significand_eq hm (by omega)
    have hlow := h.low
    rw [hgap, hm] at hlow
    have hstep : (2 : ℚ) ^ d.scale = 2 * 2 ^ (d.scale - 1) := by
      rw [zpow_sub_one₀ two_ne_zero]
      ring
    have hs' := two_zpow_pos (d.scale - 1)
    have hbinade : (binade : ℚ) = 2 ^ (52 : ℤ) := by norm_num [binade_eq]
    have hlog : Int.log 2 ((num : ℚ) / den) = 51 + d.scale := by
      have h1 : Int.log 2 ((num : ℚ) / den) < 52 + d.scale := by
        refine (Int.lt_zpow_iff_log_lt (by decide) hpos).mp ?_
        rw [Nat.cast_ofNat, zpow_add₀ two_ne_zero, ← hbinade]
        exact hlt
      have h2 : 51 + d.scale ≤ Int.log 2 ((num : ℚ) / den) := by
        refine (Int.zpow_le_iff_le_log (by decide) hpos).mp (le_trans ?_ hlow)
        rw [Nat.cast_ofNat, zpow_add₀ two_ne_zero]
        refine mul_le_mul_of_nonneg_right ?_ hs.le
        rw [hbinade]
        norm_num
      omega
    have hrank := d.rank_eq
    rw [hm] at hrank
    rw [nearest_eq_clamped d.negative (2 * binade) (d.scale - 1) hnum hden
      (by rw [hlog]; omega)]
    · rw [show (d.scale - 1 + 1074).toNat * binade + 2 * binade = d.rank by
        rw [hrank, show (d.scale + 1074).toNat = (d.scale - 1 + 1074).toNat + 1 by omega]
        ring, clamped_rank hfin]
    · rw [hstep] at hlow
      push_cast
      linarith
    · rw [hstep] at hlt
      push_cast
      linarith
    · intro ho
      omega

/-! ## Decimals -/

/-- Every finite number is below `10 ^ 309`. -/
theorem two_pow_lt_overflow : 2 ^ 53 * 2 ^ 971 < 10 ^ 309 := by decide +kernel

/-- Half of the least number is above `10 ^ (-324)`. -/
theorem two_pow_lt_underflow : 2 ^ 1074 * 2 < 10 ^ 324 := by decide +kernel

theorem Near.lt_overflow {d : Double} {x : ℚ} (h : d.Near x) (hfin : d.isFinite = true) :
    x < 10 ^ (309 : ℤ) := by
  have hm : (d.significand : ℚ) + 1 ≤ 2 * binade := by exact_mod_cast d.significand_lt
  have hs : (2 : ℚ) ^ d.scale ≤ 2 ^ (971 : ℤ) :=
    zpow_le_zpow_right₀ one_le_two (scale_le hfin)
  calc x ≤ (d.significand + 1 / 2) * 2 ^ d.scale := h.high
    _ ≤ 2 * binade * 2 ^ (971 : ℤ) :=
      mul_le_mul (by linarith) hs (two_zpow_pos _).le (mul_nonneg zero_le_two (Nat.cast_nonneg _))
    _ = ((2 ^ 53 * 2 ^ 971 : ℕ) : ℚ) := by
      rw [Nat.cast_mul, show 2 ^ 53 = 2 * binade from rfl, Nat.cast_mul, Nat.cast_pow,
        Nat.cast_ofNat, zpow_ofNat]
    _ < ((10 ^ 309 : ℕ) : ℚ) := Nat.cast_lt.mpr two_pow_lt_overflow
    _ = 10 ^ (309 : ℤ) := by rw [Nat.cast_pow, Nat.cast_ofNat, zpow_ofNat]

theorem Near.gt_underflow {d : Double} {x : ℚ} (h : d.Near x) (hd : 0 < d.rank) :
    10 ^ (-324 : ℤ) < x := by
  have hs : (2 : ℚ) ^ (-1074 : ℤ) ≤ 2 ^ d.scale := zpow_le_zpow_right₀ one_le_two d.scale_ge
  calc (10 : ℚ) ^ (-324 : ℤ) = ((10 ^ 324 : ℕ) : ℚ)⁻¹ := by
        rw [zpow_neg, zpow_ofNat, Nat.cast_pow, Nat.cast_ofNat]
    _ < ((2 ^ 1074 * 2 : ℕ) : ℚ)⁻¹ :=
      inv_strictAnti₀ (Nat.cast_pos.mpr (by positivity)) (Nat.cast_lt.mpr two_pow_lt_underflow)
    _ = 2 ^ (-1074 : ℤ) / 2 := by
        rw [zpow_neg, zpow_ofNat, Nat.cast_mul, mul_inv, div_eq_mul_inv, Nat.cast_pow,
          Nat.cast_ofNat]
    _ ≤ 2 ^ d.scale / 2 := div_le_div_of_nonneg_right hs zero_le_two
    _ ≤ x := h.half_step_le hd

theorem lt_ten_pow_length (n : ℕ) : n < 10 ^ (Nat.toDigits 10 n).length :=
  (Nat.length_toDigits_le_iff (by decide) Nat.length_toDigits_pos).mp le_rfl

theorem ten_pow_length_le {n : ℕ} (hn : 0 < n) : 10 ^ ((Nat.toDigits 10 n).length - 1) ≤ n := by
  rcases Nat.eq_zero_or_pos ((Nat.toDigits 10 n).length - 1) with h | h
  · rw [h, pow_zero]
    exact hn
  · refine not_lt.mp fun hlt => ?_
    have := (Nat.length_toDigits_le_iff (by decide) h).mpr hlt
    omega

/-- Every decimal near a finite number other than zero reads as that number. -/
theorem ofDecimal_of_near {d : Double} {digits : ℕ} {e : ℤ} (hfin : d.isFinite = true)
    (hd : 0 < d.rank) (h : d.Near (digits * 10 ^ e)) : ofDecimal d.negative digits e = d := by
  have hten : (0 : ℚ) < 10 ^ e := zpow_pos (by norm_num) e
  have hpos := h.pos hd
  have hdig : 0 < digits := by
    rcases Nat.eq_zero_or_pos digits with rfl | hn
    · simp at hpos
    · exact hn
  have hlen := Nat.length_toDigits_pos (b := 10) (n := digits)
  have hsmall : e + (Nat.toDigits 10 digits).length ≤ 310 := by
    have hle : (10 : ℚ) ^ (((Nat.toDigits 10 digits).length : ℤ) - 1) ≤ digits := by
      have := ten_pow_length_le hdig
      rw [show ((Nat.toDigits 10 digits).length : ℤ) - 1 =
        ((Nat.toDigits 10 digits).length - 1 : ℕ) by omega]
      exact_mod_cast this
    have hlt : (10 : ℚ) ^ (((Nat.toDigits 10 digits).length : ℤ) - 1 + e) < 10 ^ (309 : ℤ) := by
      rw [zpow_add₀ (by norm_num)]
      exact (mul_le_mul_of_nonneg_right hle hten.le).trans_lt (h.lt_overflow hfin)
    have := (zpow_lt_zpow_iff_right₀ (by norm_num : (1 : ℚ) < 10)).mp hlt
    omega
  have hlarge : -330 ≤ e + (Nat.toDigits 10 digits).length := by
    have hlt : (digits : ℚ) < 10 ^ ((Nat.toDigits 10 digits).length : ℤ) := by
      exact_mod_cast lt_ten_pow_length digits
    have hlt : (10 : ℚ) ^ (-324 : ℤ) < 10 ^ (((Nat.toDigits 10 digits).length : ℤ) + e) := by
      rw [zpow_add₀ (by norm_num) (_ : ℤ) e]
      exact (h.gt_underflow hd).trans (mul_lt_mul_of_pos_right hlt hten)
    have := (zpow_lt_zpow_iff_right₀ (by norm_num : (1 : ℚ) < 10)).mp hlt
    omega
  have hpow := pow_div_pow (by decide : 0 < 10) e
  unfold ofDecimal
  rw [if_neg hdig.ne']
  dsimp only
  rw [if_neg (by omega), if_neg (by omega)]
  split
  · have hz : (-e).toNat = 0 := by omega
    rw [hz, show Nat.pow 10 0 = 1 from rfl, Nat.cast_one, div_one, Nat.cast_ofNat] at hpow
    refine nearest_of_near hfin hd one_pos ?_
    rw [Nat.cast_mul, hpow, Nat.cast_one, div_one]
    exact h
  · have hz : e.toNat = 0 := by omega
    rw [hz, show Nat.pow 10 0 = 1 from rfl, Nat.cast_one, one_div, Nat.cast_ofNat] at hpow
    refine nearest_of_near hfin hd (pow_pos_nat (by decide) _) ?_
    rw [div_eq_mul_inv, hpow]
    exact h

/-- The integer that a finite number other than zero stands for reads as that number. -/
theorem ofInt_of_magnitude {d : Double} {i : ℤ} (hfin : d.isFinite = true) (hd : 0 < d.rank)
    (h : d.toRat = i) : ofInt i = d := by
  have hpos := magnitude_pos hd
  have hsign : decide (i < 0) = d.negative ∧ (i.natAbs : ℚ) = d.magnitude := by
    unfold toRat at h
    rw [Nat.cast_natAbs, Int.cast_abs, ← h]
    split at h
    · rename_i hn
      have : (i : ℚ) < 0 := by linarith
      simp only [hn, if_true, abs_neg, abs_of_pos hpos, and_true, decide_eq_true_eq]
      exact_mod_cast this
    · rename_i hn
      have : ¬ (i : ℚ) < 0 := by linarith
      simp only [Bool.not_eq_true] at hn
      simp only [hn, Bool.false_eq_true, if_false, abs_of_pos hpos, and_true,
        decide_eq_false_iff_not]
      exact_mod_cast this
  unfold ofInt
  rw [hsign.1]
  refine nearest_of_near hfin hd one_pos ?_
  rw [hsign.2, Nat.cast_one, div_one]
  exact d.near_magnitude

end Double

end JsonInspect
