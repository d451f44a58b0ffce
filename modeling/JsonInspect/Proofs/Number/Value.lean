import Mathlib.Data.Int.Log
import Mathlib.Data.Nat.Cast.Field
import Mathlib.Tactic.FieldSimp
import Mathlib.Tactic.Linarith
import Mathlib.Tactic.Positivity
import JsonInspect.Number.Basic

/-! # What numbers stand for

Finite binary64 numbers stand for rationals, `significand * 2 ^ scale` up to the sign. The
definitions split a power into a numerator and a denominator by the sign of its exponent;
`pow_div_pow` puts the two together again, and what follows is about rationals. Numbers are equal
when none is a NaN and they stand at one place of the order (`same_iff`). -/

namespace JsonInspect

/-- A power of a natural number, written as a fraction one part of which is 1. -/
theorem pow_div_pow {b : ℕ} (hb : 0 < b) (k : ℤ) :
    ((Nat.pow b k.toNat : ℕ) : ℚ) / (Nat.pow b (-k).toNat : ℕ) = (b : ℚ) ^ k := by
  have hne : (b : ℚ) ≠ 0 := by exact_mod_cast hb.ne'
  simp only [Nat.pow_eq, Nat.cast_pow]
  rw [← zpow_natCast, ← zpow_natCast, ← zpow_sub₀ hne]
  congr 1
  omega

theorem pow_pos_nat {b : ℕ} (hb : 0 < b) (n : ℕ) : 0 < Nat.pow b n := Nat.pow_pos hb

namespace Double

/-- The exact absolute value of a finite number. -/
def magnitude (d : Double) : ℚ := d.significand * 2 ^ d.scale

/-- The exact value of a finite number. Both zeros are 0. -/
def toRat (d : Double) : ℚ := if d.negative then -d.magnitude else d.magnitude

theorem two_zpow_pos (k : ℤ) : (0 : ℚ) < 2 ^ k := zpow_pos (by norm_num) k

/-! ## Significand and scale -/

theorem binade_eq : binade = 2 ^ 52 := by decide

theorem infinityRank_eq : infinityRank = 2047 * binade := by decide

theorem significand_pos {d : Double} (h : 0 < d.rank) : 0 < d.significand := by
  unfold significand
  split
  · exact h
  · have : 0 < binade := by decide
    omega

theorem significand_lt (d : Double) : d.significand < 2 * binade := by
  have hb : 0 < binade := by decide
  have hm := Nat.mod_lt d.rank hb
  unfold significand
  split <;> omega

theorem scale_ge (d : Double) : -1074 ≤ d.scale := by
  unfold scale
  split
  · exact le_refl _
  · rename_i h
    have : 1 ≤ d.rank / binade := (Nat.one_le_div_iff (by decide)).mpr (by omega)
    omega

theorem scale_le {d : Double} (h : d.isFinite = true) : d.scale ≤ 971 := by
  have hr : d.rank < 2047 * binade := by simpa [isFinite, infinityRank_eq] using h
  unfold scale
  split
  · omega
  · have := (Nat.div_lt_iff_lt_mul (by decide : 0 < binade)).mpr hr
    omega

/-- The rank counts the steps below a number: all of the binades under it and its own. -/
theorem rank_eq (d : Double) : d.rank = (d.scale + 1074).toNat * binade + d.significand := by
  unfold scale significand
  split
  · simp
  · rename_i h
    have h1 : 1 ≤ d.rank / binade := (Nat.one_le_div_iff (by decide)).mpr (by omega)
    have hd := Nat.div_add_mod d.rank binade
    have hs : (((d.rank / binade : ℕ) : ℤ) - 1075 + 1074).toNat = d.rank / binade - 1 := by omega
    obtain ⟨q, hq⟩ : ∃ q, d.rank / binade = q + 1 := ⟨d.rank / binade - 1, by omega⟩
    rw [hs]
    rw [hq] at hd ⊢
    simp only [Nat.add_sub_cancel]
    rw [Nat.mul_succ, Nat.mul_comm] at hd
    omega

/-- Below the first binade the scale is the least one. -/
theorem scale_eq_of_significand_lt {d : Double} (h : d.significand < binade) :
    d.scale = -1074 := by
  unfold significand at h
  unfold scale
  split
  · rfl
  · rename_i hr
    rw [if_neg hr] at h
    omega

/-- Equal signs and ranks make equal numbers. -/
theorem ext_rank {a b : Double} (hs : a.negative = b.negative) (hr : a.rank = b.rank) : a = b := by
  obtain ⟨_, _, _⟩ := a
  obtain ⟨_, _, _⟩ := b
  simp_all

theorem clamped_rank {d : Double} (h : d.isFinite = true) :
    clamped d.negative d.rank = d := by
  have hr : d.rank < infinityRank := by simpa [isFinite] using h
  exact ext_rank rfl (Nat.min_eq_left hr.le)

theorem magnitude_pos {d : Double} (h : 0 < d.rank) : 0 < d.magnitude :=
  mul_pos (by exact_mod_cast significand_pos h) (two_zpow_pos _)

/-- A whole part is the exact absolute value. -/
theorem magnitude_of_wholePart? {d : Double} {n : ℕ} (h : d.wholePart? = some n) :
    d.magnitude = n := by
  have hp := pow_div_pow (by decide : 0 < 2) d.scale
  unfold wholePart? at h
  split at h
  · rename_i hs
    have hz : (-d.scale).toNat = 0 := by omega
    obtain rfl := Option.some.inj h
    rw [hz] at hp
    rw [magnitude, Nat.cast_mul]
    have h1 : Nat.pow 2 0 = 1 := rfl
    rw [h1, Nat.cast_one, div_one] at hp
    rw [hp, Nat.cast_ofNat]
  · rename_i hs
    have hz : d.scale.toNat = 0 := by omega
    dsimp only at h
    split at h
    · rename_i hmod
      obtain rfl := Option.some.inj h
      have hdvd := Nat.dvd_of_mod_eq_zero hmod
      have hne : ((Nat.pow 2 (-d.scale).toNat : ℕ) : ℚ) ≠ 0 := by
        exact_mod_cast (pow_pos_nat (by decide) _).ne'
      rw [hz] at hp
      have h1 : Nat.pow 2 0 = 1 := rfl
      rw [h1, Nat.cast_one, Nat.cast_ofNat] at hp
      rw [Nat.cast_div hdvd hne, magnitude, ← hp, mul_one_div]
    · exact absurd h (by simp)

/-- Without a whole part the value lies strictly between the multiples of its step that are
whole numbers. -/
theorem not_whole_of_wholePart?_none {d : Double} (h : d.wholePart? = none) :
    d.scale < 0 ∧ ¬ Nat.pow 2 (-d.scale).toNat ∣ d.significand := by
  unfold wholePart? at h
  split at h
  · exact absurd h (by simp)
  · rename_i hs
    dsimp only at h
    split at h
    · exact absurd h (by simp)
    · rename_i hmod
      exact ⟨by omega, fun hd => hmod (Nat.mod_eq_zero_of_dvd hd)⟩

/-! ## Equality -/

section

variable {a b c d : Double}

theorem isNaN_of_isFinite (h : d.isFinite = true) : d.isNaN = false :=
  decide_eq_false (of_decide_eq_true h).le.not_gt

theorem same_iff :
    a.same b = true ↔ a.isNaN = false ∧ b.isNaN = false ∧ a.orderKey = b.orderKey := by
  simp [same, and_assoc]

theorem same_self_iff : d.same d = true ↔ d.isNaN = false := by
  rw [same_iff, and_self_left, and_iff_left rfl]

theorem same_comm (a b : Double) : a.same b = b.same a := by
  rw [Bool.eq_iff_iff, same_iff, same_iff, and_left_comm, eq_comm (a := a.orderKey)]

theorem same_trans (h : a.same b = true) (h' : b.same c = true) : a.same c = true := by
  rw [same_iff] at h h' ⊢
  exact ⟨h.1, h'.2.1, h.2.2.trans h'.2.2⟩

theorem natAbs_orderKey (d : Double) : d.orderKey.natAbs = d.rank := by
  unfold orderKey
  split <;> omega

end

end Double

end JsonInspect
