import Nerva.MersenneTwister

/-!
# Draws stay in their range

`HC128_U32` returns a number below its bound, and below the height it is given even where that is
cut to 32 bits. `mersenne_twister::next` returns a number of its range, both ends included: the
three roundings of its double arithmetic are far too small to leave it.
-/

namespace Nerva

open Traced Binary64

variable {P : HeightEvent → Prop} {d : UInt32 × Rng}

theorem Rng.u32Loop_le {mask max : UInt32} : ∀ {draws : ℕ} {rng : Rng},
    Rng.u32Loop mask max draws rng = some d → d.1 ≤ max
  | draws + 1, rng, h => by
    simp only [Rng.u32Loop] at h
    split at h
    · exact Rng.u32Loop_le h
    · rename_i hle
      cases h
      exact UInt32.not_lt.mp hle

theorem Rng.u32_le {max : UInt32} {rng : Rng} (h : rng.u32 max = some d) : d.1 ≤ max - 1 :=
  Rng.u32Loop_le h

theorem Rng.u32_lt {max : UInt64} (hmax : max ≠ 0) {rng : Rng} (h : rng.u32 max.toUInt32 = some d) :
    d.1.toNat < max.toNat := by
  have hle : d.1.toNat ≤ (max.toUInt32 - 1).toNat := UInt32.le_iff_toNat_le.mp (Rng.u32_le h)
  have hpos : 0 < max.toNat := by
    rw [Nat.pos_iff_ne_zero]
    exact fun h0 => hmax (UInt64.toNat_inj.mp h0)
  rw [UInt32.toNat_sub, UInt64.toNat_toUInt32] at hle
  simp only [UInt32.toNat_one] at hle
  omega

theorem drawBelow_sat {max : UInt64} (hmax : max ≠ 0) (hP : P (.sub max.toUInt32.toNat 1))
    (rng : Rng) : (drawBelow rng max).Sat P fun d => d.1.toNat < max.toNat :=
  (Sat.emit hP).bind fun _ _ => Sat.lift fun _ h => Rng.u32_lt hmax h

theorem quotient_bounds {r d : ℕ} (hr : r ≤ 0xffffffff) (hd : 0 < d) (hlt : d < 2 ^ 32) :
    0 ≤ round64 (r / round64 (0xffffffff / d)) ∧
      round64 (r / round64 (0xffffffff / d)) ≤ (d : ℚ) + 1 / 4 := by
  have hdQ : (0 : ℚ) < d := by exact_mod_cast hd
  have hltQ : (d : ℚ) ≤ 2 ^ 32 := by exact_mod_cast hlt.le
  have hrQ : (r : ℚ) ≤ 0xffffffff := by exact_mod_cast hr
  have hx : (0 : ℚ) < 0xffffffff / d := by positivity
  have hdiv := le_round64 hx
  have hdivpos : 0 < round64 (0xffffffff / d) := lt_of_lt_of_le (by positivity) hdiv
  -- The quotient of the largest word is the length, up to one rounding.
  have hquot : (r : ℚ) / round64 (0xffffffff / d) ≤ d / (1 - 1 / 2 ^ 53) := by
    rw [div_le_div_iff₀ hdivpos (by norm_num)]
    calc (r : ℚ) * (1 - 1 / 2 ^ 53) ≤ 0xffffffff * (1 - 1 / 2 ^ 53) :=
          mul_le_mul_of_nonneg_right hrQ (by norm_num)
      _ = d * (0xffffffff / d * (1 - 1 / 2 ^ 53)) := by field_simp
      _ ≤ d * round64 (0xffffffff / d) := mul_le_mul_of_nonneg_left hdiv hdQ.le
  have hupper : (d : ℚ) / (1 - 1 / 2 ^ 53) * (1 + 1 / 2 ^ 53) ≤ d + 1 / 4 := by
    rw [div_mul_eq_mul_div, div_le_iff₀ (by norm_num)]
    linarith
  have hnonneg : (0 : ℚ) ≤ r / round64 (0xffffffff / d) := by positivity
  refine ⟨?_, ?_⟩
  · refine natCast_le_round64 (n := 0) (by exact_mod_cast hnonneg) (lt_of_le_of_lt hquot ?_)
    linarith
  · rcases eq_or_lt_of_le hnonneg with hzero | hpos
    · rw [← hzero, round64_zero]
      positivity
    · refine (round64_le hpos).trans (le_trans ?_ hupper)
      exact mul_le_mul_of_nonneg_right hquot (by norm_num)

namespace MersenneTwister

/-- A draw scaled in floating point stays within its bounds. -/
theorem scale_bounds (r min max : UInt32) (hle : min ≤ max) :
    (min.toNat : ℚ) ≤ scale r min (max - min) ∧ scale r min (max - min) < max.toNat + 1 := by
  have hnat : min.toNat ≤ max.toNat := UInt32.le_iff_toNat_le.mp hle
  have hlength : (max - min).toNat = max.toNat - min.toNat := UInt32.toNat_sub_of_le _ _ hle
  have hmaxlt : (max.toNat : ℚ) < 2 ^ 32 := by exact_mod_cast max.toNat_lt
  -- The word scaled to the length, before the lower end is added.
  obtain ⟨q, hq, hq0, hq1⟩ : ∃ q : ℚ, scale r min (max - min) = round64 (q + min.toNat) ∧ 0 ≤ q ∧
      q + min.toNat ≤ max.toNat + 1 / 4 := by
    refine ⟨_, rfl, ?_⟩
    by_cases hzero : max - min = 0
    · rw [if_pos hzero]
      refine ⟨le_refl _, ?_⟩
      have : (min.toNat : ℚ) ≤ max.toNat := by exact_mod_cast hnat
      linarith
    · rw [if_neg hzero]
      have hpos : 0 < (max - min).toNat := by
        rw [Nat.pos_iff_ne_zero]
        exact fun h => hzero (UInt32.toNat_inj.mp h)
      obtain ⟨h0, h1⟩ := quotient_bounds (Nat.le_of_lt_succ r.toNat_lt) hpos (max - min).toNat_lt
      refine ⟨h0, ?_⟩
      have hsum : ((max - min).toNat : ℚ) + min.toNat = max.toNat := by
        rw [hlength]
        exact_mod_cast Nat.sub_add_cancel hnat
      linarith
  rw [hq]
  have hge : (min.toNat : ℚ) ≤ q + min.toNat := by linarith
  refine ⟨natCast_le_round64 hge (by linarith), ?_⟩
  rcases eq_or_lt_of_le ((Nat.cast_nonneg min.toNat).trans hge) with hzero | hpos
  · rw [← hzero, round64_zero]
    positivity
  · have := round64_le hpos
    linarith

/-- A draw is within its bounds, and the only subtraction is that of the bounds. -/
theorem next_sat {min max : UInt32} (hP : P (.sub max.toNat min.toNat)) (g : MersenneTwister) :
    (g.next min max).Sat P fun d => min ≤ max → min ≤ d.1 ∧ d.1 ≤ max := by
  unfold next
  rcases g.generateUint with ⟨r, g'⟩
  refine (Sat.emit hP).bind fun _ _ => Sat.pure fun hle => ?_
  obtain ⟨hlower, hupper⟩ := scale_bounds r min max hle
  have hfloor : ⌊scale r min (max - min)⌋₊ ≤ max.toNat := by
    refine Nat.lt_succ_iff.mp ((Nat.floor_lt ?_).mpr (by exact_mod_cast hupper))
    exact (Nat.cast_nonneg _).trans hlower
  have hnat : (UInt32.ofNat ⌊scale r min (max - min)⌋₊).toNat = ⌊scale r min (max - min)⌋₊ :=
    UInt32.toNat_ofNat_of_lt' (lt_of_le_of_lt hfloor max.toNat_lt)
  rw [UInt32.le_iff_toNat_le, UInt32.le_iff_toNat_le, hnat]
  exact ⟨Nat.le_floor hlower, hfloor⟩

end MersenneTwister

end Nerva
