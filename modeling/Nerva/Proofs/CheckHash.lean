import Nerva.Difficulty
import Mathlib.Tactic.Ring

/-!
# The check of a proof of work is exact

`check_hash` multiplies the hash by the difficulty word by word and looks at the carry. The product
of two words is taken apart into those of half words.
-/

namespace Nerva

section

variable (v : UInt64)

include v

theorem toNat_shiftRight_dword : (v >>> 32).toNat = v.toNat / 2 ^ 32 := by
  simp [Nat.shiftRight_eq_div_pow]

theorem toNat_shiftLeft_dword : (v <<< 32).toNat = v.toNat % 2 ^ 32 * 2 ^ 32 := by
  simp [Nat.shiftLeft_eq]
  omega

theorem toNat_hiDword : (hiDword v).toNat = v.toNat / 2 ^ 32 :=
  toNat_shiftRight_dword v

theorem toNat_loDword : (loDword v).toNat = v.toNat % 2 ^ 32 := by
  exact Nat.and_two_pow_sub_one_eq_mod _ 32

theorem toNat_hiDword_lt : (hiDword v).toNat < 2 ^ 32 := by
  have := v.toNat_lt
  rw [toNat_hiDword]
  omega

theorem toNat_loDword_lt : (loDword v).toNat < 2 ^ 32 := by
  rw [toNat_loDword]
  omega

end

theorem toNat_shift_or (a : UInt64) {b : UInt64} (hb : b.toNat < 2 ^ 32) :
    (a <<< 32 ||| b).toNat = a.toNat % 2 ^ 32 * 2 ^ 32 + b.toNat := by
  rw [UInt64.toNat_or, toNat_shiftLeft_dword, ← Nat.shiftLeft_eq,
    ← Nat.shiftLeft_add_eq_or_of_lt hb, Nat.shiftLeft_eq]

theorem toNat_mul_dwords {a b : UInt64} (ha : a.toNat < 2 ^ 32) (hb : b.toNat < 2 ^ 32) :
    (a * b).toNat = a.toNat * b.toNat ∧ (a * b).toNat ≤ (2 ^ 32 - 1) * (2 ^ 32 - 1) := by
  have hle : a.toNat * b.toNat ≤ (2 ^ 32 - 1) * (2 ^ 32 - 1) :=
    Nat.mul_le_mul (by omega) (by omega)
  have heq : (a * b).toNat = a.toNat * b.toNat := by
    rw [UInt64.toNat_mul]
    exact Nat.mod_eq_of_lt (by omega)
  exact ⟨heq, heq ▸ hle⟩

/-- The product of two words, in two words. -/
theorem toNat_mul (x86 : Bool) (a b : UInt64) :
    (mul x86 a b).1.toNat + 2 ^ 64 * (mul x86 a b).2.toNat = a.toNat * b.toNat := by
  obtain ⟨hac, hacle⟩ := toNat_mul_dwords (toNat_hiDword_lt a) (toNat_hiDword_lt b)
  obtain ⟨had, hadle⟩ := toNat_mul_dwords (toNat_hiDword_lt a) (toNat_loDword_lt b)
  obtain ⟨hbc, hbcle⟩ := toNat_mul_dwords (toNat_loDword_lt a) (toNat_hiDword_lt b)
  obtain ⟨hbd, hbdle⟩ := toNat_mul_dwords (toNat_loDword_lt a) (toNat_loDword_lt b)
  have hprod : a.toNat * b.toNat = 2 ^ 64 * (hiDword a * hiDword b).toNat +
      2 ^ 32 * ((hiDword a * loDword b).toNat + (loDword a * hiDword b).toNat) +
      (loDword a * loDword b).toNat := by
    rw [hac, had, hbc, hbd, toNat_hiDword, toNat_hiDword, toNat_loDword, toNat_loDword]
    conv_lhs => rw [← Nat.div_add_mod a.toNat (2 ^ 32), ← Nat.div_add_mod b.toNat (2 ^ 32)]
    ring
  rw [hprod]
  simp only [mul, mul128]
  clear hprod hac had hbc hbd
  generalize hiDword a * hiDword b = ac at *
  generalize hiDword a * loDword b = ad at *
  generalize loDword a * hiDword b = bc at *
  generalize loDword a * loDword b = bd at *
  cases x86 with
  | true =>
    simp only [if_true, UInt64.toNat_add, toNat_shiftLeft_dword, toNat_shiftRight_dword,
      UInt64.lt_iff_toNat_lt]
    split_ifs <;> simp only [UInt64.toNat_zero, UInt64.toNat_one] <;> omega
  | false =>
    simp only [Bool.false_eq_true, if_false]
    rw [toNat_shift_or _ (toNat_loDword_lt _), UInt64.or_comm,
      toNat_shift_or _ (toNat_loDword_lt _)]
    simp only [UInt64.toNat_add, toNat_hiDword, toNat_loDword]
    omega

/-- One step of the long division. -/
theorem divWithReminder_spec {x : UInt64} {d r : UInt32} (hx : x.toNat < 2 ^ 32)
    (hr : r.toNat < d.toNat) :
    ∃ q r', divWithReminder x d r = (q, r') ∧ q.toNat < 2 ^ 32 ∧ r'.toNat < d.toNat ∧
      q.toNat * d.toNat + r'.toNat = r.toNat * 2 ^ 32 + x.toNat := by
  have hd := d.toNat_lt
  have hdividend : (x ||| r.toUInt64 <<< 32).toNat = r.toNat * 2 ^ 32 + x.toNat := by
    rw [UInt64.or_comm, toNat_shift_or _ hx, UInt32.toNat_toUInt64, Nat.mod_eq_of_lt (by omega)]
  have hmod := Nat.mod_lt (r.toNat * 2 ^ 32 + x.toNat) (Nat.zero_lt_of_lt hr)
  refine ⟨_, _, rfl, ?_, ?_, ?_⟩
  · rw [UInt64.toNat_div, hdividend, UInt32.toNat_toUInt64, Nat.div_lt_iff_lt_mul (by omega)]
    calc r.toNat * 2 ^ 32 + x.toNat < (r.toNat + 1) * 2 ^ 32 := by omega
      _ ≤ 2 ^ 32 * d.toNat := by rw [Nat.mul_comm]; exact Nat.mul_le_mul_left _ hr
  all_goals
    rw [UInt64.toNat_toUInt32, UInt64.toNat_mod, hdividend, UInt32.toNat_toUInt64,
      Nat.mod_eq_of_lt (hmod.trans hd)]
  · exact hmod
  · rw [UInt64.toNat_div, hdividend, UInt32.toNat_toUInt64]
    exact Nat.div_add_mod' _ _

theorem divWord_spec (word : UInt64) {d r : UInt32} (hr : r.toNat < d.toNat) :
    ∃ q₁ r₁ q₀ r₀, divWithReminder (hiDword word) d r = (q₁, r₁) ∧
      divWithReminder (loDword word) d r₁ = (q₀, r₀) ∧ r₀.toNat < d.toNat ∧
      (q₁ <<< 32 ||| q₀).toNat * d.toNat + r₀.toNat = r.toNat * 2 ^ 64 + word.toNat := by
  obtain ⟨q₁, r₁, h₁, hq₁, hr₁, heq₁⟩ := divWithReminder_spec (toNat_hiDword_lt word) hr
  obtain ⟨q₀, r₀, h₀, hq₀, hr₀, heq₀⟩ := divWithReminder_spec (toNat_loDword_lt word) hr₁
  refine ⟨q₁, r₁, q₀, r₀, h₁, h₀, hr₀, ?_⟩
  rw [toNat_hiDword] at heq₁
  rw [toNat_loDword] at heq₀
  rw [toNat_shift_or _ hq₀, Nat.mod_eq_of_lt hq₁, Nat.add_mul, Nat.mul_right_comm]
  omega

/-- The portable product and quotient lose nothing. -/
theorem wide_arithmetic_exact (a b hi lo : UInt64) {d : UInt32} (hd : d ≠ 0) :
    (mul128 a b).2.toNat = a.toNat * b.toNat / 2 ^ 64 ∧
    (mul128 a b).1.toNat = a.toNat * b.toNat % 2 ^ 64 ∧
    ∃ qHi qLo r, div128By32 hi lo d = (qHi, qLo, r) ∧
      qHi.toNat * 2 ^ 64 + qLo.toNat = (hi.toNat * 2 ^ 64 + lo.toNat) / d.toNat ∧
      r.toNat = (hi.toNat * 2 ^ 64 + lo.toNat) % d.toNat := by
  have hproduct := toNat_mul true a b
  have hlow := (mul true a b).1.toNat_lt
  simp only [mul, if_true] at hproduct hlow
  have hpos : (0 : UInt32).toNat < d.toNat :=
    Nat.pos_of_ne_zero fun h => hd (UInt32.toNat_inj.mp h)
  obtain ⟨q₃, r₃, q₂, r₂, h₃, h₂, hr₂, hhi⟩ := divWord_spec hi hpos
  obtain ⟨q₁, r₁, q₀, r₀, h₁, h₀, hr₀, hlo⟩ := divWord_spec lo hr₂
  rw [UInt32.toNat_zero] at hhi
  obtain ⟨hquot, hrem⟩ := (Nat.div_mod_unique hpos).mpr ⟨(by
    rw [Nat.mul_comm, Nat.add_mul, Nat.mul_right_comm]
    omega : r₀.toNat + d.toNat * ((q₃ <<< 32 ||| q₂).toNat * 2 ^ 64 + (q₁ <<< 32 ||| q₀).toNat) =
      hi.toNat * 2 ^ 64 + lo.toNat), hr₀⟩
  refine ⟨by omega, by omega, _, _, r₀, ?_, hquot.symm, hrem.symm⟩
  simp only [div128By32, h₃, h₂, h₁, h₀]

theorem wide_arithmetic_exact_ten : ∃ qHi qLo r, div128By32 1 5 10 = (qHi, qLo, r) ∧
    r.toNat = ((1 : UInt64).toNat * 2 ^ 64 + (5 : UInt64).toNat) % (10 : UInt32).toNat := by
  obtain ⟨qHi, qLo, r, h, -, hr⟩ := (@wide_arithmetic_exact 3 4 1 5 10 (by decide)).2.2
  exact ⟨qHi, qLo, r, h, hr⟩

theorem toNat_cadc (a b : UInt64) (c : Bool) :
    (cadc a b c).toNat = (a.toNat + b.toNat + c.toNat) / 2 ^ 64 := by
  have := a.toNat_lt
  have := b.toNat_lt
  have := c.toNat_le
  have hiff : cadc a b c ↔ 2 ^ 64 ≤ a.toNat + b.toNat + c.toNat := by
    cases c <;> simp [cadc, UInt64.lt_iff_toNat_lt, ← UInt64.toNat_inj] <;> omega
  cases hcarry : cadc a b c <;> simp only [hcarry, Bool.false_eq_true, false_iff, true_iff] at hiff
    <;> simp <;> omega

theorem cadd_eq (a b : UInt64) : cadd a b = cadc a b false := by
  simp [cadd, cadc]

theorem toNat_eq_hashWords (hash : BitVec 256) : hash.toNat = (hashWord hash 0).toNat +
    2 ^ 64 * (hashWord hash 1).toNat + 2 ^ 128 * (hashWord hash 2).toNat +
    2 ^ 192 * (hashWord hash 3).toNat := by
  simp [hashWord, Nat.shiftRight_eq_div_pow]
  omega

/-- A proof of work passes for a difficulty just when their product is below `2 ^ 256`. -/
theorem checkHash_iff (x86 : Bool) (hash : BitVec 256) (difficulty : UInt64) :
    checkHash x86 hash difficulty ↔ hash.toNat * difficulty.toNat < 2 ^ 256 := by
  rw [toNat_eq_hashWords, Nat.add_mul, Nat.add_mul, Nat.add_mul, Nat.mul_assoc, Nat.mul_assoc,
    Nat.mul_assoc, ← toNat_mul x86, ← toNat_mul x86, ← toNat_mul x86, ← toNat_mul x86]
  unfold checkHash
  obtain ⟨low0, cur⟩ := mul x86 (hashWord hash 0) difficulty
  obtain ⟨low1, high1⟩ := mul x86 (hashWord hash 1) difficulty
  obtain ⟨low2, high2⟩ := mul x86 (hashWord hash 2) difficulty
  obtain ⟨top, high⟩ := mul x86 (hashWord hash 3) difficulty
  have := low0.toNat_lt
  by_cases hhigh : high = 0
  · have hcarry := toNat_cadc cur low1 false
    have hcarry' := toNat_cadc high1 low2 (cadc cur low1 false)
    have hout := toNat_cadc high2 top (cadc high1 low2 (cadc cur low1 false))
    simp only [hhigh, ne_eq, not_true, if_false, cadd_eq, Bool.not_eq_true', UInt64.toNat_zero,
      ← Bool.toNat_eq_zero]
    rw [Bool.toNat_false] at hcarry
    omega
  · have : high.toNat ≠ 0 := fun h => hhigh (UInt64.toNat_inj.mp h)
    simp only [ne_eq, hhigh, not_false_iff, if_true, Bool.false_eq_true, false_iff]
    omega

end Nerva
