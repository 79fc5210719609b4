import Nerva.Serialization
import Mathlib.Tactic.Ring

/-!
# The archive's codecs are lawful

A varint without a cut is written as it was read: all bytes but the last have the continuation bit,
and the last is not zero unless it is the only one. One that is cut off has the continuation bit in
all its bytes, which `write_varint` never leaves.
-/

namespace Nerva.Archive

open Codec List Option

set_option maxRecDepth 4096 in
theorem and_continuation (byte : UInt8) : byte &&& 0x80 = 0 ↔ byte.toNat < 128 := by
  cases byte with
  | ofBitVec byte =>
    cases byte with
    | ofFin byte =>
      revert byte
      decide

set_option maxRecDepth 4096 in
theorem continuation_of_le (byte : UInt8) (h : 128 ≤ byte.toNat) :
    byte &&& 0x7f ||| 0x80 = byte := by
  cases byte with
  | ofBitVec byte =>
    cases byte with
    | ofFin byte =>
      revert byte
      decide

set_option maxRecDepth 4096 in
theorem low_continued (byte : UInt8) :
    128 ≤ (byte &&& 0x7f ||| 0x80).toNat ∧ (byte &&& 0x7f ||| 0x80) &&& 0x7f = byte &&& 0x7f := by
  cases byte with
  | ofBitVec byte =>
    cases byte with
    | ofFin byte =>
      revert byte
      decide

theorem toNat_and_low (byte : UInt8) : (byte &&& 0x7f).toNat = byte.toNat % 128 := by
  exact Nat.and_two_pow_sub_one_eq_mod byte.toNat 7

theorem ofNat_and_low {i j : ℕ} (h : i % 128 = j % 128) :
    UInt8.ofNat i &&& 0x7f = UInt8.ofNat j &&& 0x7f := by
  apply UInt8.toNat_inj.mp
  rw [toNat_and_low, toNat_and_low, UInt8.toNat_ofNat', UInt8.toNat_ofNat']
  omega

variable {bits : ℕ} {lenient : Bool}

/-- A varint that is read strictly is the one that is written. -/
theorem writeVarint_of_readVarint : ∀ {s rest : Blob} {shift write v : ℕ},
    readVarint false bits shift write s = some (v, rest) → write < 2 ^ shift → shift < bits →
    ∃ i, v = write + 2 ^ shift * i ∧ i < 2 ^ (bits - shift) ∧ (shift ≠ 0 → i ≠ 0) ∧
      ∀ fuel, i < 128 ^ (fuel + 1) → s = writeVarint fuel i ++ rest
  | [], _, _, _, _, h, _, _ => by simp [readVarint] at h
  | byte :: s, rest, shift, write, v, h, hwrite, hshift => by
    simp only [readVarint] at h
    split_ifs at h with hover hzero hlast
    all_goals
      rw [toNat_and_low, Nat.or_comm, ← Nat.shiftLeft_add_eq_or_of_lt hwrite, Nat.shiftLeft_eq] at h
      rw [Nat.shiftLeft_eq, one_mul] at hover
    · have hbyte := (and_continuation byte).mp hlast
      obtain ⟨rfl, rfl⟩ := h
      refine ⟨byte.toNat, ?_, ?_, ?_, ?_⟩
      · rw [Nat.mod_eq_of_lt hbyte]
        ring
      · by_cases hfits : bits ≤ shift + 7
        · exact lt_of_not_ge fun hle => hover ⟨hfits, hle⟩
        · calc byte.toNat < 2 ^ 7 := hbyte
            _ ≤ 2 ^ (bits - shift) := Nat.pow_le_pow_right (by decide) (by omega)
      · intro hne hbyte0
        exact hzero ⟨UInt8.toNat_inj.mp hbyte0, hne⟩
      · intro fuel _
        cases fuel <;> simp [writeVarint, Nat.not_le.mpr hbyte]
    · have hbyte : 128 ≤ byte.toNat := by
        have := mt (and_continuation byte).mpr hlast
        omega
      -- a byte with the continuation bit has passed the overflow check, so that seven bits are left
      have hleft : shift + 7 < bits := by
        by_contra hge
        have hpow : 2 ^ (bits - shift) ≤ 2 ^ 7 := Nat.pow_le_pow_right (by decide) (by omega)
        exact hover ⟨by omega, by omega⟩
      have hnext : byte.toNat % 128 * 2 ^ shift + write < 2 ^ (shift + 7) := by
        have hlow : byte.toNat % 128 * 2 ^ shift ≤ 127 * 2 ^ shift :=
          Nat.mul_le_mul_right _ (by omega)
        rw [pow_add]
        omega
      obtain ⟨i, rfl, hi, hne, hs⟩ := writeVarint_of_readVarint h hnext hleft
      refine ⟨byte.toNat % 128 + 128 * i, by ring, ?_, by omega, fun fuel hfuel => ?_⟩
      · have hsplit : bits - shift = (bits - (shift + 7)) + 7 := by omega
        rw [hsplit, pow_add]
        omega
      · cases fuel with
        | zero => omega
        | succ fuel =>
          have hshr : (byte.toNat % 128 + 128 * i) >>> 7 = i := by
            omega
          have hhead : UInt8.ofNat (byte.toNat % 128 + 128 * i) &&& 0x7f ||| 0x80 = byte := by
            rw [ofNat_and_low (show (byte.toNat % 128 + 128 * i) % 128 = byte.toNat % 128 by omega),
              UInt8.ofNat_toNat, continuation_of_le byte hbyte]
          have hrest := hs fuel (by rw [pow_succ] at hfuel; omega)
          rw [writeVarint, if_pos (by omega), hshr, hhead, cons_append, ← hrest]

/-- What only the lenient reader takes is cut off. -/
theorem readVarint_lenient : ∀ {s rest : Blob} {shift write v : ℕ},
    readVarint true bits shift write s = some (v, rest) →
    readVarint false bits shift write s = some (v, rest) ∨
      rest = [] ∧ readVarint false bits shift write s = none ∧ ∀ byte ∈ s, 128 ≤ byte.toNat
  | [], _, _, _, _, h => by
    simp only [readVarint, if_true, some.injEq, Prod.mk.injEq] at h
    exact .inr ⟨h.2.symm, by simp [readVarint], by simp⟩
  | byte :: s, rest, shift, write, v, h => by
    simp only [readVarint] at h ⊢
    split_ifs at h ⊢ with hover hzero hlast
    · exact .inl h
    · have hbyte := mt (and_continuation byte).mpr hlast
      rcases readVarint_lenient h with hstrict | ⟨hrest, hnone, hall⟩
      · exact .inl hstrict
      · exact .inr ⟨hrest, hnone, by simpa using ⟨Nat.le_of_not_lt hbyte, hall⟩⟩

theorem suffix_of_readVarint : ∀ {s rest : Blob} {byte : UInt8}
    {shift write v : ℕ},
      readVarint lenient bits shift write (byte :: s) = some (v, rest) → rest <:+ s
  | s, rest, byte, shift, write, v, h => by
    rw [readVarint] at h
    split_ifs at h with hover hzero hlast
    · cases h
      exact suffix_rfl
    · cases s with
      | nil =>
        simp only [readVarint, ite_none_right_eq_some, some.injEq, Prod.mk.injEq] at h
        exact h.2.2 ▸ suffix_rfl
      | cons byte' s => exact (suffix_of_readVarint h).trans (suffix_cons byte' s)

theorem exists_last_writeVarint : ∀ (fuel : ℕ) {i : ℕ}, i < 128 ^ (fuel + 1) →
    ∃ byte ∈ writeVarint fuel i, byte.toNat < 128
  | 0, i, h => ⟨UInt8.ofNat i, by simp [writeVarint], by rw [UInt8.toNat_ofNat']; omega⟩
  | fuel + 1, i, h => by
    rw [writeVarint]
    split_ifs with hi
    · have hshr : i >>> 7 < 128 ^ (fuel + 1) := by
        omega
      obtain ⟨byte, hmem, hbyte⟩ := exists_last_writeVarint fuel hshr
      exact ⟨byte, mem_cons_of_mem _ hmem, hbyte⟩
    · exact ⟨UInt8.ofNat i, by simp, by rw [UInt8.toNat_ofNat']; omega⟩

/-- Bytes without an end are read while they are few enough. -/
theorem isSome_readVarint_iff : ∀ {s : Blob} {shift write : ℕ},
    (∀ byte ∈ s, 128 ≤ byte.toNat) → shift < bits →
    ((readVarint true bits shift write s).isSome ↔ shift + 7 * s.length < bits)
  | [], shift, write, _, hshift => by simpa [readVarint] using hshift
  | byte :: s, shift, write, hall, hshift => by
    have hbyte := hall byte mem_cons_self
    have hcontinued : ¬byte &&& 0x80 = 0 := mt (and_continuation byte).mp (not_lt.mpr hbyte)
    have hzero : ¬(byte = 0 ∧ shift ≠ 0) := by
      rintro ⟨rfl, -⟩
      exact absurd hbyte (by decide)
    rw [readVarint, length_cons, if_neg hzero]
    simp only [if_neg hcontinued]
    rcases Nat.lt_or_ge (shift + 7) bits with hroom | hroom
    · rw [if_neg fun h => absurd h.1 (Nat.not_le.mpr hroom),
        isSome_readVarint_iff (fun b hb => hall b (mem_cons_of_mem _ hb)) hroom]
      omega
    · have hpow : 2 ^ (bits - shift) ≤ 2 ^ 7 := Nat.pow_le_pow_right (by decide) (by omega)
      rw [if_pos ⟨hroom, by omega⟩]
      simp only [isSome_none, Bool.false_eq_true, false_iff]
      omega

theorem readVarint_last {i shift write : ℕ} {rest : Blob} (hi : i < 128)
    (hfits : i < 2 ^ (bits - shift)) (hne : shift ≠ 0 → i ≠ 0) (hwrite : write < 2 ^ shift) :
    readVarint lenient bits shift write (UInt8.ofNat i :: rest) =
      some (write + 2 ^ shift * i, rest) := by
  have hbyte : (UInt8.ofNat i).toNat = i := by
    rw [UInt8.toNat_ofNat']
    omega
  have hover : ¬(bits ≤ shift + 7 ∧ 1 <<< (bits - shift) ≤ (UInt8.ofNat i).toNat) := by
    omega
  have hzero : ¬(UInt8.ofNat i = 0 ∧ shift ≠ 0) := by
    rintro ⟨hbyte0, hshift⟩
    rw [hbyte0] at hbyte
    exact hne hshift hbyte.symm
  rw [readVarint, if_neg hover, if_neg hzero]
  simp only [if_pos ((and_continuation (UInt8.ofNat i)).mpr (by omega))]
  rw [toNat_and_low, hbyte, Nat.mod_eq_of_lt hi, Nat.or_comm,
    ← Nat.shiftLeft_add_eq_or_of_lt hwrite, Nat.shiftLeft_eq, Nat.add_comm, Nat.mul_comm]

/-- A written varint is read. -/
theorem readVarint_writeVarint {rest : Blob} :
    ∀ {fuel i shift write : ℕ}, i < 128 ^ (fuel + 1) → i < 2 ^ (bits - shift) →
      (shift ≠ 0 → i ≠ 0) → write < 2 ^ shift →
      readVarint lenient bits shift write (writeVarint fuel i ++ rest) =
        some (write + 2 ^ shift * i, rest)
  | 0, i, shift, write, hfuel, hfits, hne, hwrite =>
    readVarint_last (by simpa using hfuel) hfits hne hwrite
  | fuel + 1, i, shift, write, hfuel, hfits, hne, hwrite => by
    rw [writeVarint]
    split_ifs with hlarge
    · obtain ⟨hhigh, hlow⟩ := low_continued (UInt8.ofNat i)
      have hvalue : ((UInt8.ofNat i &&& 0x7f ||| 0x80) &&& 0x7f).toNat = i % 128 := by
        rw [hlow, toNat_and_low, UInt8.toNat_ofNat']
        omega
      generalize UInt8.ofNat i &&& 0x7f ||| 0x80 = byte at hhigh hvalue ⊢
      -- a number of more than seven bits is below the overflow check
      have hroom : shift + 7 < bits := by
        by_contra hge
        have hpow : 2 ^ (bits - shift) ≤ 2 ^ 7 := Nat.pow_le_pow_right (by decide) (by omega)
        omega
      have hsplit : 2 ^ (bits - shift) = 2 ^ (bits - (shift + 7)) * 128 := by
        rw [show bits - shift = bits - (shift + 7) + 7 by omega, pow_add]
        rfl
      have hzero : ¬(byte = 0 ∧ shift ≠ 0) := by
        rintro ⟨rfl, -⟩
        exact absurd hhigh (by decide)
      have hshr : i >>> 7 = i / 128 := Nat.shiftRight_eq_div_pow i 7
      have hnext : write + 2 ^ shift * (i % 128) < 2 ^ (shift + 7) := by
        have hle : 2 ^ shift * (i % 128) ≤ 2 ^ shift * 127 := Nat.mul_le_mul_left _ (by omega)
        rw [pow_add]
        omega
      rw [cons_append, readVarint, if_neg fun h => absurd h.1 (Nat.not_le.mpr hroom),
        if_neg hzero]
      simp only [if_neg (mt (and_continuation byte).mp (not_lt.mpr hhigh))]
      have hor : write ||| (byte &&& 0x7f).toNat <<< shift = write + 2 ^ shift * (i % 128) := by
        rw [hvalue, Nat.or_comm, ← Nat.shiftLeft_add_eq_or_of_lt hwrite, Nat.shiftLeft_eq]
        ring
      have hfuel' : i / 128 < 128 ^ (fuel + 1) := by
        omega
      have hfits' : i / 128 < 2 ^ (bits - (shift + 7)) := by omega
      rw [hor, hshr, readVarint_writeVarint hfuel' hfits' (by omega) hnext]
      have hdiv := Nat.div_add_mod i 128
      congr 2
      calc write + 2 ^ shift * (i % 128) + 2 ^ (shift + 7) * (i / 128)
          = write + 2 ^ shift * (128 * (i / 128) + i % 128) := by
            ring
        _ = write + 2 ^ shift * i := by rw [hdiv]
    · exact readVarint_last (by omega) hfits hne hwrite

theorem two_pow_lt_fuel (bits : ℕ) : 2 ^ bits < 128 ^ (bits + 1) :=
  calc 2 ^ bits ≤ 128 ^ bits := Nat.pow_le_pow_left (by decide) _
    _ < 128 ^ (bits + 1) := Nat.pow_lt_pow_right (by decide) (by omega)

/-- A varint is written as it is read. -/
theorem lawful_varint (hbits : 0 < bits) : (varint bits).Lawful where
  strict {s v rest} h := by
    simp only [varint, map_eq_some_iff, Prod.exists] at h
    obtain ⟨i, rest, hread, rfl, rfl⟩ := h
    obtain ⟨i, rfl, hi, -, hs⟩ := writeVarint_of_readVarint hread (by simp) hbits
    rw [Nat.sub_zero] at hi
    refine ⟨_, rfl, ?_⟩
    rw [hs bits (hi.trans (two_pow_lt_fuel bits)), BitVec.toNat_ofNat, pow_zero, one_mul, zero_add,
      Nat.mod_eq_of_lt hi]
  lenient {s v rest} h := by
    simp only [varint, map_eq_some_iff, Prod.mk.injEq, Prod.exists] at h ⊢
    obtain ⟨i, rest, hread, rfl, rfl⟩ := h
    rcases readVarint_lenient hread with hstrict | ⟨hrest, hnone, hall⟩
    · exact .inl ⟨i, rest, hstrict, rfl, rfl⟩
    · refine .inr ⟨hrest, by simp [hnone], fun w hw hpre => ?_⟩
      obtain ⟨byte, hmem, hbyte⟩ := exists_last_writeVarint bits
        ((BitVec.ofNat bits i).isLt.trans (two_pow_lt_fuel bits))
      simp only [some.injEq] at hw
      have := hall byte (hpre.subset (hw ▸ hmem))
      omega

theorem readVarintBytes_eq_some {s : Blob} {n : ℕ} {v : BitVec bits} :
    readVarintBytes bits s = some (n, v) ↔ ∃ i rest, readVarint true bits 0 0 s = some (i, rest) ∧
      s.length - rest.length = n ∧ BitVec.ofNat bits i = v := by
  simp only [readVarintBytes, varint, map_eq_some_iff, Prod.mk.injEq, Prod.exists]
  constructor
  · rintro ⟨v, rest, ⟨i, rest, hread, rfl, rfl⟩, rfl, rfl⟩
    exact ⟨i, rest, hread, rfl, rfl⟩
  · rintro ⟨i, rest, hread, rfl, rfl⟩
    exact ⟨_, rest, ⟨i, rest, hread, rfl, rfl⟩, rfl, rfl⟩

/-- A positive result of `read_varint` stands for the bytes of `write_varint`, unless the input is
cut off within a number. -/
theorem readVarintBytes_exact_iff (hbits : 0 < bits) (s : Blob) :
    (∀ n v, readVarintBytes bits s = some (n, v) ∧ 0 < n ↔
      n ≤ s.length ∧ s.take n = writeVarint bits v.toNat) ↔
    s = [] ∨ (∃ byte ∈ s, byte.toNat < 128) ∨ bits ≤ 7 * s.length := by
  simp only [readVarintBytes_eq_some]
  have hlast : ∀ {n} {v : BitVec bits}, s.take n = writeVarint bits v.toNat →
      ∃ byte ∈ s.take n, byte.toNat < 128 := fun {n v} h =>
    h ▸ exists_last_writeVarint bits (v.isLt.trans (two_pow_lt_fuel bits))
  constructor
  · intro h
    by_contra! hcut
    obtain ⟨hne, hall, hroom⟩ := hcut
    obtain ⟨⟨i, rest⟩, hread⟩ := isSome_iff_exists.mp
      ((@isSome_readVarint_iff bits s 0 0 hall hbits).mpr (by omega))
    have hpos : 0 < s.length - rest.length := by
      obtain ⟨byte, s, rfl⟩ := exists_cons_of_ne_nil hne
      have := (suffix_of_readVarint hread).length_le
      rw [length_cons]
      omega
    obtain ⟨byte, hmem, hbyte⟩ := hlast ((h _ _).mp ⟨⟨i, rest, hread, rfl, rfl⟩, hpos⟩).2
    exact absurd (hall byte (mem_of_mem_take hmem)) (by omega)
  · intro hwhole n v
    constructor
    · rintro ⟨⟨i, rest, hread, rfl, rfl⟩, hpos⟩
      rcases readVarint_lenient hread with hstrict | ⟨rfl, -, hall⟩
      · have hread' : (varint bits).read false s = some (BitVec.ofNat bits i, rest) := by
          simp [varint, hstrict]
        obtain ⟨w, hw, rfl⟩ := (lawful_varint hbits).strict hread'
        rw [Option.some.inj hw]
        simp
      · rcases hwhole with rfl | ⟨byte, hmem, hbyte⟩ | hlong
        · exact absurd hpos (by simp)
        · exact absurd (hall byte hmem) (by omega)
        · have := (isSome_readVarint_iff hall hbits).mp (isSome_of_mem hread)
          omega
    · rintro ⟨hle, htake⟩
      obtain ⟨byte, hmem, -⟩ := hlast htake
      have hpos := length_pos_of_mem hmem
      rw [length_take] at hpos
      have hread : readVarint true bits 0 0 (writeVarint bits v.toNat ++ s.drop n) =
          some (0 + 2 ^ 0 * v.toNat, s.drop n) :=
        readVarint_writeVarint (v.isLt.trans (two_pow_lt_fuel bits)) v.isLt (by simp) (by simp)
      rw [← htake, take_append_drop] at hread
      refine ⟨⟨_, _, hread, ?_, by simp⟩, by omega⟩
      rw [length_drop]
      omega

theorem readVarintBytes_exact_two :
    readVarintBytes 64 [0x80, 0x01] = some (2, 128) ∧ 0 < 2 ↔
      2 ≤ 2 ∧ [0x80, 0x01] = writeVarint 64 128 :=
  (readVarintBytes_exact_iff (by decide) [0x80, 0x01]).mpr (.inr (.inl ⟨1, by decide, by decide⟩))
    2 128

/-- A single byte with the continuation bit is read as zero. -/
theorem readVarintBytes_cut : ¬∀ n v, readVarintBytes 64 [0x80] = some (n, v) ∧ 0 < n ↔
    n ≤ 1 ∧ [(0x80 : UInt8)].take n = writeVarint 64 v.toNat :=
  fun h => absurd ((h 1 0).mp (by decide)) (by decide)

theorem writeUint_of_readUint : ∀ {width shift ret v : ℕ} {s rest : Blob},
    readUint width shift ret s = some (v, rest) →
    ∃ i, v = ret + 2 ^ shift * i ∧ i < 256 ^ width ∧ s = writeUint width i ++ rest
  | 0, shift, ret, v, s, rest, h => by
    simp only [readUint, some.injEq, Prod.mk.injEq] at h
    exact ⟨0, by simp [h.1], by simp, by simp [writeUint, h.2]⟩
  | width + 1, shift, ret, v, [], rest, h => by simp [readUint] at h
  | width + 1, shift, ret, v, byte :: s, rest, h => by
    obtain ⟨i, rfl, hi, rfl⟩ := writeUint_of_readUint (by simpa only [readUint] using h)
    have hbyte := byte.toNat_lt
    refine ⟨byte.toNat + 256 * i, ?_, ?_, ?_⟩
    · rw [Nat.shiftLeft_eq]
      ring
    · rw [pow_succ]
      omega
    · have hlow : (byte.toNat + 256 * i) &&& 0xff = byte.toNat := by
        rw [show (0xff : ℕ) = 2 ^ 8 - 1 from rfl, Nat.and_two_pow_sub_one_eq_mod]
        omega
      have hhigh : (byte.toNat + 256 * i) >>> 8 = i := by
        omega
      rw [writeUint, hlow, hhigh, UInt8.ofNat_toNat, cons_append]

theorem closed_uint (width : ℕ) : (uint width).Closed := fun _ _ h => h

theorem lawful_uint (width : ℕ) : (uint width).Lawful where
  strict {s v rest} h := by
    simp only [uint, map_eq_some_iff, Prod.exists] at h
    obtain ⟨i, rest, hread, rfl, rfl⟩ := h
    obtain ⟨i, rfl, hi, rfl⟩ := writeUint_of_readUint hread
    refine ⟨_, rfl, ?_⟩
    have hpow : 2 ^ (8 * width) = 256 ^ width := pow_mul 2 8 width
    rw [BitVec.toNat_ofNat, pow_zero, one_mul, zero_add, hpow, Nat.mod_eq_of_lt hi]
  lenient h := .inl h

theorem hungry_uint {width : ℕ} (h : width ≠ 0) : (uint width).Hungry := by
  obtain ⟨width, rfl⟩ := Nat.exists_eq_succ_of_ne_zero h
  simp [Hungry, uint, readUint]

theorem closed_blob (n : ℕ) : (blob n).Closed := fun _ _ h => h

theorem lawful_blob (n : ℕ) : (blob n).Lawful where
  strict {s v rest} h := by
    simp only [blob] at h
    split_ifs at h with hlen
    obtain ⟨rfl, rfl⟩ := h
    exact ⟨_, rfl, (take_append_drop n s).symm⟩
  lenient h := .inl h

theorem hungry_blob {n : ℕ} (h : n ≠ 0) : (blob n).Hungry := by
  simp [Hungry, blob, h]

theorem lawful_uint8 : uint8.Lawful := (lawful_uint 1).map fun _ _ => rfl

theorem closed_uint8 : uint8.Closed := (closed_uint 1).map

theorem hungry_uint8 : uint8.Hungry := (hungry_uint (by decide)).map

theorem lawful_uint32 : uint32.Lawful := (lawful_uint 4).map fun _ _ => rfl

theorem lawful_varint8 : varint8.Lawful := (lawful_varint (by decide)).map fun _ _ => rfl

theorem lawful_varint64 : varint64.Lawful := (lawful_varint (by decide)).map fun _ _ => rfl

section Container

variable {α : Type} {element : Codec UInt8 α}

theorem lawful_container (h : element.Lawful) : (container element).Lawful := by
  have hcount : (varint 64).Lawful := lawful_varint (by decide)
  refine Lawful.map ((hcount.room _).seq fun cnt => h.array _) fun x hx => ?_
  rw [length_of_reads_array hx.of_seq.2, BitVec.ofNat_toNat, BitVec.setWidth_eq]

/-- The alternative is lawful and is told by its tag. -/
def LawfulAlternative (tag : α → UInt8) (x : UInt8 × Codec UInt8 α) : Prop :=
  x.2.Lawful ∧ ∀ v, x.2.Reads v → tag v = x.1

theorem lawfulAlternative {β : Type} {tag : β → UInt8} {t : UInt8} {mk : α → β}
    {get : β → Option α} (h : element.Lawful) (hget : ∀ a, get (mk a) = some a)
    (htag : ∀ a, tag (mk a) = t) : LawfulAlternative tag (alternative t element mk get) := by
  simp only [LawfulAlternative, alternative]
  constructor
  · refine h.emap fun {a v} _ hv => ?_
    obtain rfl : mk a = v := by simpa using hv
    exact hget a
  · intro v hv
    obtain ⟨a, -, hv⟩ := hv.of_emap
    obtain rfl : mk a = v := by simpa using hv
    exact htag a

/-- A variant of lawful alternatives is lawful. -/
theorem lawful_variant {alternatives : List (UInt8 × Codec UInt8 α)} {tag : α → UInt8}
    (h : ∀ x ∈ alternatives, LawfulAlternative tag x) : (variant alternatives tag).Lawful := by
  have hlookup : ∀ {t c}, alternatives.lookup t = some c → LawfulAlternative tag (t, c) := by
    intro t c hc
    obtain ⟨l₁, l₂, rfl, -⟩ := List.lookup_eq_some_iff.mp hc
    exact h _ (by simp)
  refine Lawful.map (lawful_uint8.seq fun t => ?_) fun x hx => ?_
  · rcases hc : alternatives.lookup t with _ | c
    · exact lawful_fail
    · exact (hlookup hc).1
  · have hread := hx.of_seq.2
    rcases hc : alternatives.lookup x.1 with _ | c <;> rw [hc] at hread
    · obtain ⟨lenient, s, rest, hread⟩ := hread
      cases hread
    · rw [(hlookup hc).2 x.2 hread]

end Container

end Nerva.Archive
