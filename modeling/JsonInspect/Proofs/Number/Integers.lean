import JsonInspect.Proofs.Number.Value
import Mathlib.Tactic.Ring

/-! # The binary64 numbers nearest to integers

Rounding to the nearest binary64 number never reverses the order of two integers
(`orderKey_ofInt_mono`), and it keeps integers of at most `2 ^ 53` apart (`ofInt_inj`).
Beyond that, neighbours may be rounded to the same number. -/

namespace JsonInspect

/-! ## Rounding quotients -/

theorem roundEven_mul {den : ℕ} (hden : 0 < den) (n : ℕ) : roundEven (n * den) den = n := by
  unfold roundEven
  rw [Nat.mul_mod_left, Nat.mul_div_cancel n hden]
  exact if_pos (.inl (by omega))

theorem roundEven_mono {num num' : ℕ} (den : ℕ) (h : num ≤ num') :
    roundEven num den ≤ roundEven num' den := by
  have hq : num / den ≤ num' / den := Nat.div_le_div_right h
  have hnum := Nat.div_add_mod num den
  have hnum' := Nat.div_add_mod num' den
  unfold roundEven
  dsimp only
  rcases hq.lt_or_eq with hlt | heq
  · split <;> split <;> omega
  · rw [heq] at hnum ⊢
    split <;> split <;> omega

section

variable {num den n : ℕ}

theorem le_roundEven (hden : 0 < den) (h : n * den ≤ num) : n ≤ roundEven num den :=
  roundEven_mul hden n ▸ roundEven_mono den h

theorem roundEven_le (hden : 0 < den) (h : num ≤ n * den) : roundEven num den ≤ n :=
  roundEven_mul hden n ▸ roundEven_mono den h

end

namespace Double

/-! ## The rank of the nearest number -/

/-- How many steps of its binade the number nearest to a positive integer is above zero. A step is
less than 1 below `2 ^ 52`. -/
def integerSteps (n : ℕ) : ℕ := roundEven (n * 2 ^ (52 - n.log2)) (2 ^ (n.log2 - 52))

/-- The rank of the number nearest to an integer, as if no number were the largest. -/
def integerRank (n : ℕ) : ℕ := if n = 0 then 0 else (n.log2 + 1022) * binade + integerSteps n

theorem floorLog2_one {n : ℕ} (hn : n ≠ 0) : floorLog2 n 1 = n.log2 := by
  have hlog : (n.log2 : ℤ) - Nat.log2 1 = n.log2 := Int.sub_zero _
  have hreached : 1 * Nat.pow 2 (n.log2 : ℤ).toNat ≤ n := by
    rw [Nat.one_mul, Int.toNat_natCast]
    exact Nat.log2_self_le hn
  unfold floorLog2
  dsimp only
  rw [hlog, if_pos (Int.natCast_nonneg _), decide_eq_true hreached]
  rfl

theorem nearest_integer (negative : Bool) (n : ℕ) :
    nearest negative n 1 = clamped negative (integerRank n) := by
  unfold nearest integerRank
  by_cases hn : n = 0
  · rw [if_pos hn, if_pos hn]
    rfl
  · rw [if_neg hn, if_neg hn, floorLog2_one hn]
    have hscale : max (-1074) ((n.log2 : ℤ) - 52) = n.log2 - 52 := by omega
    have hbinades : ((n.log2 : ℤ) - 52 + 1074).toNat = n.log2 + 1022 := by omega
    have hup : ((n.log2 : ℤ) - 52).toNat = n.log2 - 52 := by omega
    have hdown : (-((n.log2 : ℤ) - 52)).toNat = 52 - n.log2 := by omega
    dsimp only
    rw [hscale, hbinades, hup, hdown, integerSteps]
    -- One of the two powers is 1, and rounding leaves it out.
    split
    · rename_i hwide
      have hzero : 52 - n.log2 = 0 := by omega
      rw [hzero, Nat.pow_zero, Nat.mul_one, Nat.one_mul]
      rfl
    · rename_i hnarrow
      have hzero : n.log2 - 52 = 0 := by omega
      rw [hzero, Nat.pow_zero]
      rfl

/-- The numbers nearest to the integers between two powers of two are in one binade, the power above
being the first of the next. -/
theorem integerSteps_bounds {n : ℕ} (hn : n ≠ 0) :
    binade ≤ integerSteps n ∧ integerSteps n ≤ 2 * binade := by
  have hpow : 2 ^ 52 * 2 ^ (n.log2 - 52) = 2 ^ n.log2 * 2 ^ (52 - n.log2) := by
    rw [← Nat.pow_add, ← Nat.pow_add]
    congr 1
    omega
  have hden : 0 < 2 ^ (n.log2 - 52) := Nat.two_pow_pos _
  have hlow : 2 ^ n.log2 ≤ n := Nat.log2_self_le hn
  have hhigh : n < 2 ^ (n.log2 + 1) := Nat.lt_log2_self
  rw [binade_eq]
  constructor
  · refine le_roundEven hden ?_
    rw [hpow]
    exact Nat.mul_le_mul_right _ hlow
  · refine roundEven_le hden ?_
    rw [Nat.mul_assoc, hpow, ← Nat.mul_assoc, Nat.mul_comm 2, ← Nat.pow_succ]
    exact Nat.mul_le_mul_right _ hhigh.le

theorem integerSteps_mono {n n' : ℕ} (h : n ≤ n') (hlog : n.log2 = n'.log2) :
    integerSteps n ≤ integerSteps n' := by
  unfold integerSteps
  rw [hlog]
  exact roundEven_mono _ (Nat.mul_le_mul_right _ h)

/-- Below `2 ^ 53` steps are at most 1, so nothing is rounded. -/
theorem integerSteps_eq {n : ℕ} (hn : n < 2 ^ 53) : integerSteps n = n * 2 ^ (52 - n.log2) := by
  have hlog : n.log2 ≤ 52 := by
    rcases Nat.eq_zero_or_pos n with rfl | hpos
    · decide
    · exact Nat.le_of_lt_succ ((Nat.log2_lt hpos.ne').mpr hn)
  unfold integerSteps
  rw [Nat.sub_eq_zero_of_le hlog, Nat.pow_zero]
  simpa using roundEven_mul one_pos (n * 2 ^ (52 - n.log2))

theorem integerRank_of_ne_zero {n : ℕ} (hn : n ≠ 0) :
    integerRank n = (n.log2 + 1022) * binade + integerSteps n := if_neg hn

theorem integerRank_pos {n : ℕ} (hn : n ≠ 0) : 0 < integerRank n := by
  have hsteps := (integerSteps_bounds hn).1
  have hbinade : 0 < binade := by decide
  rw [integerRank_of_ne_zero hn]
  omega

/-- What is rounded from one binade is at most the first number of a later one. -/
theorem binades_le {n n' : ℕ} (hn' : n' ≠ 0) (hlog : n.log2 < n'.log2) :
    (n.log2 + 1022) * binade + 2 * binade ≤ integerRank n' := by
  have hsteps := (integerSteps_bounds hn').1
  rw [integerRank_of_ne_zero hn']
  calc (n.log2 + 1022) * binade + 2 * binade = (n.log2 + 1 + 1022) * binade + binade := by ring
    _ ≤ (n'.log2 + 1022) * binade + integerSteps n' :=
      Nat.add_le_add (Nat.mul_le_mul_right _ (by omega)) hsteps

theorem log2_mono {n n' : ℕ} (hn : n ≠ 0) (h : n ≤ n') : n.log2 ≤ n'.log2 :=
  (Nat.le_log2 (by omega)).mpr ((Nat.log2_self_le hn).trans h)

theorem integerRank_mono {n n' : ℕ} (h : n ≤ n') : integerRank n ≤ integerRank n' := by
  by_cases hn : n = 0
  · subst hn
    exact Nat.zero_le _
  · have hn' : n' ≠ 0 := by omega
    rw [integerRank_of_ne_zero hn]
    rcases (log2_mono hn h).lt_or_eq with hlt | heq
    · exact (Nat.add_le_add_left (integerSteps_bounds hn).2 _).trans (binades_le hn' hlt)
    · rw [integerRank_of_ne_zero hn', heq]
      exact Nat.add_le_add_left (integerSteps_mono h heq) _

/-- Integers below `2 ^ 53` keep apart from all larger ones. -/
theorem integerRank_lt {n n' : ℕ} (h : n < n') (hsmall : n < 2 ^ 53) :
    integerRank n < integerRank n' := by
  have hn' : n' ≠ 0 := by omega
  by_cases hn : n = 0
  · subst hn
    exact integerRank_pos hn'
  · rw [integerRank_of_ne_zero hn]
    rcases (log2_mono hn h.le).lt_or_eq with hlt | heq
    · refine lt_of_lt_of_le (Nat.add_lt_add_left ?_ _) (binades_le hn' hlt)
      have hlog : n.log2 < 53 := (Nat.log2_lt hn).mpr hsmall
      have hpow : 2 ^ (n.log2 + 1) * 2 ^ (52 - n.log2) = 2 * binade := by
        rw [binade_eq, ← Nat.pow_add, ← Nat.pow_succ']
        congr 1
        omega
      rw [integerSteps_eq hsmall, ← hpow]
      exact Nat.mul_lt_mul_of_pos_right Nat.lt_log2_self (Nat.two_pow_pos _)
    · have hsmall' : n' < 2 ^ 53 := by
        rwa [← Nat.log2_lt hn', ← heq, Nat.log2_lt hn]
      rw [integerRank_of_ne_zero hn', heq, integerSteps_eq hsmall, integerSteps_eq hsmall', heq]
      exact Nat.add_lt_add_left (Nat.mul_lt_mul_of_pos_right h (Nat.two_pow_pos _)) _

/-! ## The order of the nearest numbers -/

section

variable {i j : ℤ}

theorem rank_ofInt (i : ℤ) : (ofInt i).rank = min (integerRank i.natAbs) infinityRank := by
  rw [ofInt, nearest_integer]
  rfl

theorem negative_ofInt (i : ℤ) : (ofInt i).negative = decide (i < 0) := by
  rw [ofInt, nearest_integer]
  rfl

theorem rank_ofInt_pos (hi : i ≠ 0) : 0 < (ofInt i).rank := by
  have hpos := integerRank_pos (Int.natAbs_ne_zero.mpr hi)
  have hinf : 0 < infinityRank := by decide
  rw [rank_ofInt]
  omega

/-- Rounding does not reverse the order of integers. -/
theorem orderKey_ofInt_mono (h : i ≤ j) : (ofInt i).orderKey ≤ (ofInt j).orderKey := by
  unfold orderKey
  simp only [negative_ofInt, rank_ofInt, decide_eq_true_eq]
  split <;> split
  · have := integerRank_mono (by omega : j.natAbs ≤ i.natAbs)
    omega
  · omega
  · omega
  · have := integerRank_mono (by omega : i.natAbs ≤ j.natAbs)
    omega

/-- Integers of at most `2 ^ 53` are kept apart. -/
theorem orderKey_ofInt_lt (hi : i.natAbs ≤ 2 ^ 53) (hj : j.natAbs ≤ 2 ^ 53) (h : i < j) :
    (ofInt i).orderKey < (ofInt j).orderKey := by
  have hinf : integerRank (2 ^ 53) < infinityRank := by decide +kernel
  have hrank : ∀ {n n' : ℕ}, n < n' → n' ≤ 2 ^ 53 →
      min (integerRank n) infinityRank < min (integerRank n') infinityRank := by
    intro n n' hlt hle
    have hnext := integerRank_lt hlt (by omega)
    have hlast := integerRank_mono hle
    omega
  unfold orderKey
  simp only [negative_ofInt, rank_ofInt, decide_eq_true_eq]
  split <;> split
  · have := hrank (by omega : j.natAbs < i.natAbs) hi
    omega
  · have := hrank (by omega : 0 < i.natAbs) hi
    omega
  · omega
  · have := hrank (by omega : i.natAbs < j.natAbs) hj
    omega

/-- No integer is rounded to the negative zero, so equally placed numbers are the same. -/
theorem orderKey_ofInt_inj : (ofInt i).orderKey = (ofInt j).orderKey ↔ ofInt i = ofInt j := by
  refine ⟨fun h => ?_, congrArg orderKey⟩
  have hpos : ∀ {k : ℤ}, k < 0 → 0 < (ofInt k).rank := fun hk => rank_ofInt_pos hk.ne
  unfold orderKey at h
  simp only [negative_ofInt, decide_eq_true_eq] at h
  have hsign : i < 0 ↔ j < 0 := by
    constructor <;> intro hneg <;> by_contra hother <;> have := hpos hneg <;>
      simp only [hneg, hother, if_true, if_false] at h <;> omega
  refine ext_rank ?_ ?_
  · rw [negative_ofInt, negative_ofInt, decide_eq_decide]
    exact hsign
  · simp only [hsign] at h
    split at h <;> omega

/-- Different integers of at most `2 ^ 53` are not rounded to one number. -/
theorem ofInt_inj (hi : i.natAbs ≤ 2 ^ 53) (hj : j.natAbs ≤ 2 ^ 53) (h : ofInt i = ofInt j) :
    i = j := by
  have hkeys := orderKey_ofInt_inj.mpr h
  by_contra hne
  rcases lt_or_gt_of_ne hne with hlt | hgt
  · exact absurd hkeys (orderKey_ofInt_lt hi hj hlt).ne
  · exact absurd hkeys (orderKey_ofInt_lt hj hi hgt).ne'

theorem isFinite_ofInt (h : i.natAbs ≤ 2 ^ 63) : (ofInt i).isFinite = true := by
  have hinf : integerRank (2 ^ 63) < infinityRank := by decide +kernel
  have hrank := integerRank_mono h
  rw [isFinite, decide_eq_true_eq, rank_ofInt]
  omega

end

end Double

end JsonInspect
