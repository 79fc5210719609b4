import Mathlib.Data.Int.Log
import Mathlib.Data.Rat.Floor
import Mathlib.Tactic.Positivity

/-!
# Rounding to double precision

`round64` rounds a rational number to the nearest one with a significand of 53 bits, ties to even.
It is the rounding of IEEE binary64 for numbers in its normal range, where an operation on doubles
is the exact operation followed by the rounding.
-/

namespace Binary64

/-- The nearest integer, the even one of two that are equally near. -/
def roundEven (x : ℚ) : ℤ :=
  let fract := x - ⌊x⌋
  if fract < 1 / 2 then ⌊x⌋
  else if 1 / 2 < fract then ⌊x⌋ + 1
  else if ⌊x⌋ % 2 = 0 then ⌊x⌋ else ⌊x⌋ + 1

theorem abs_roundEven_sub_le (x : ℚ) : |(roundEven x : ℚ) - x| ≤ 1 / 2 := by
  have hle := Int.floor_le x
  have hlt := Int.lt_floor_add_one x
  unfold roundEven
  simp only []
  rw [abs_le]
  split_ifs <;> push_cast <;> constructor <;> linarith

variable {x : ℚ}

theorem le_roundEven {n : ℤ} (h : (n : ℚ) ≤ x) : n ≤ roundEven x := by
  have hfloor : n ≤ ⌊x⌋ := Int.le_floor.mpr h
  unfold roundEven
  simp only []
  split_ifs <;> omega

/-- The unit in the last place of a normal number with 53 bits. -/
def ulp (x : ℚ) : ℚ := 2 ^ (Int.log 2 x - 52)

theorem ulp_pos (x : ℚ) : 0 < ulp x := zpow_pos (by norm_num) _

/-- A number as it is rounded to 53 bits. -/
def round64 (x : ℚ) : ℚ := roundEven (x / ulp x) * ulp x

theorem ulp_le (hx : 0 < x) : ulp x ≤ x / 2 ^ 52 := by
  have hlog := Int.zpow_log_le_self (b := 2) (by omega) hx
  rw [ulp, zpow_sub₀ (by norm_num)]
  exact div_le_div_of_nonneg_right hlog (by positivity)

/-- The relative error of rounding is at most half a unit. -/
theorem abs_round64_sub_le (hx : 0 < x) : |round64 x - x| ≤ x / 2 ^ 53 := by
  have hulp := ulp_pos x
  have hdist : round64 x - x = ((roundEven (x / ulp x) : ℚ) - x / ulp x) * ulp x := by
    rw [round64, sub_mul, div_mul_cancel₀ _ hulp.ne']
  have hround := abs_roundEven_sub_le (x / ulp x)
  have hsmall := ulp_le hx
  rw [hdist, abs_mul, abs_of_pos hulp]
  calc |(roundEven (x / ulp x) : ℚ) - x / ulp x| * ulp x
      ≤ 1 / 2 * ulp x := mul_le_mul_of_nonneg_right hround hulp.le
    _ ≤ 1 / 2 * (x / 2 ^ 52) := mul_le_mul_of_nonneg_left hsmall (by norm_num)
    _ = x / 2 ^ 53 := by ring

@[simp] theorem round64_zero : round64 0 = 0 := by simp [round64, roundEven]

theorem round64_le (hx : 0 < x) : round64 x ≤ x * (1 + 1 / 2 ^ 53) := by
  have := (abs_le.mp (abs_round64_sub_le hx)).2
  linarith

theorem le_round64 (hx : 0 < x) : x * (1 - 1 / 2 ^ 53) ≤ round64 x := by
  have := (abs_le.mp (abs_round64_sub_le hx)).1
  linarith

/-- Rounding does not pass below an integer. -/
theorem natCast_le_round64 {n : ℕ} (hn : (n : ℚ) ≤ x) (hlt : x < 2 ^ 53) : (n : ℚ) ≤ round64 x := by
  rcases eq_or_lt_of_le ((Nat.cast_nonneg n).trans hn) with rfl | hx
  · simpa using hn
  have hulp := ulp_pos x
  have hlog : Int.log 2 x ≤ 52 := by
    have : Int.log 2 x < 53 := (Int.lt_zpow_iff_log_lt (by omega) hx).mp (by exact_mod_cast hlt)
    omega
  obtain ⟨k, hk⟩ : ∃ k : ℕ, 52 - Int.log 2 x = k := Int.eq_ofNat_of_zero_le (by omega)
  -- The integers are multiples of the distance, since that is one over a power of two.
  have hmul : (n : ℚ) / ulp x = ((n * 2 ^ k : ℤ) : ℚ) := by
    have hinv : ulp x = (2 ^ k : ℚ)⁻¹ := by
      rw [ulp, ← zpow_natCast, ← zpow_neg]
      congr 1
      omega
    rw [hinv, div_inv_eq_mul]
    push_cast
    ring
  have hle : ((n * 2 ^ k : ℤ) : ℚ) ≤ x / ulp x := by
    rw [← hmul]
    exact div_le_div_of_nonneg_right hn hulp.le
  have hround : ((n * 2 ^ k : ℤ) : ℚ) ≤ roundEven (x / ulp x) := by exact_mod_cast le_roundEven hle
  calc (n : ℚ) = n / ulp x * ulp x := (div_mul_cancel₀ _ hulp.ne').symm
    _ ≤ roundEven (x / ulp x) * ulp x := by
      rw [hmul]
      exact mul_le_mul_of_nonneg_right hround hulp.le

end Binary64
