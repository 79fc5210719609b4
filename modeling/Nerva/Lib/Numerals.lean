import Mathlib.Data.Nat.Digits.Lemmas

/-!
# Numerals of a fixed length

`numerals b n v` are the last `n` digits of `v` in base `b`, the lowest one in front. On values
below `b ^ n` and lists of `n` digits it is the inverse of `Nat.ofDigits`. `leBytes` are the
numerals in base 256, as bytes.
-/

namespace Numerals

/-- The lowest digits of a number in a base, lowest first. -/
def numerals (b : ℕ) : (n v : ℕ) → List ℕ
  | 0, _ => []
  | n + 1, v => v % b :: numerals b n (v / b)

variable {b : ℕ}

@[simp] theorem length_numerals : ∀ (n v : ℕ), (numerals b n v).length = n
  | 0, _ => rfl
  | n + 1, v => congrArg (· + 1) (length_numerals n (v / b))

theorem lt_of_mem_numerals (hb : 0 < b) : ∀ {n v d : ℕ}, d ∈ numerals b n v → d < b
  | 0, _, _, h => by cases h
  | n + 1, v, d, h => by
    rcases List.mem_cons.mp h with rfl | h
    · exact Nat.mod_lt v hb
    · exact lt_of_mem_numerals hb h

/-- Digits give back the number, up to those that were left out. -/
theorem ofDigits_numerals : ∀ (n v : ℕ), Nat.ofDigits b (numerals b n v) = v % b ^ n
  | 0, v => by simp [numerals, Nat.mod_one]
  | n + 1, v => by
    rw [numerals, Nat.ofDigits_cons, ofDigits_numerals n (v / b), pow_succ', Nat.mod_mul]

/-- Digits are given back by the number they make. -/
theorem numerals_ofDigits : ∀ {ds : List ℕ}, (∀ d ∈ ds, d < b) →
    numerals b ds.length (Nat.ofDigits b ds) = ds
  | [], _ => rfl
  | d :: ds, h => by
    have hd := h d List.mem_cons_self
    have hpos : 0 < b := Nat.zero_lt_of_lt hd
    have hrest := numerals_ofDigits fun x hx => h x (List.mem_cons_of_mem d hx)
    rw [List.length_cons, numerals, Nat.ofDigits_cons, Nat.add_mul_mod_self_left,
      Nat.mod_eq_of_lt hd, Nat.add_mul_div_left _ _ hpos, Nat.div_eq_of_lt hd, Nat.zero_add, hrest]

theorem numerals_zero (n : ℕ) : numerals b n 0 = List.replicate n 0 := by
  induction n with
  | zero => rfl
  | succ n ih => rw [numerals, Nat.zero_mod, Nat.zero_div, ih, List.replicate_succ]

section Bytes

/-- The number that bytes encode, lowest byte first. -/
def leNat : List UInt8 → ℕ
  | [] => 0
  | b :: bs => b.toNat + 256 * leNat bs

/-- A number in a given count of bytes, lowest byte first. -/
def leBytes : ℕ → ℕ → List UInt8
  | 0, _ => []
  | n + 1, x => UInt8.ofNat (x % 256) :: leBytes n (x / 256)

theorem length_leBytes : ∀ (n x : ℕ), (leBytes n x).length = n
  | 0, _ => rfl
  | n + 1, x => congrArg (· + 1) (length_leBytes n (x / 256))

/-- Bytes give back the number that fits into them. -/
theorem leNat_leBytes : ∀ (n x : ℕ), leNat (leBytes n x) = x % 256 ^ n
  | 0, x => by simp [leBytes, leNat, Nat.mod_one]
  | n + 1, x => by
    have hlow : (UInt8.ofNat (x % 256)).toNat = x % 256 := by
      rw [UInt8.toNat_ofNat']
      omega
    rw [leBytes, leNat, leNat_leBytes n (x / 256), hlow, Nat.pow_succ', Nat.mod_mul]

variable {n x : ℕ}

theorem leNat_take (after : List UInt8) (hx : x < 256 ^ n) :
    leNat ((leBytes n x ++ after).take n) = x := by
  rw [List.take_append_of_le_length (Nat.le_of_eq (length_leBytes n x).symm),
    List.take_of_length_le (Nat.le_of_eq (length_leBytes n x)), leNat_leBytes, Nat.mod_eq_of_lt hx]

theorem drop_leBytes (k n x : ℕ) (after : List UInt8) :
    (leBytes n x ++ after).drop (k + n) = after.drop k := by
  rw [List.drop_append, length_leBytes, List.drop_of_length_le (by rw [length_leBytes]; omega),
    Nat.add_sub_cancel, List.nil_append]

end Bytes

end Numerals
