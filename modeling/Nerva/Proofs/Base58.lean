import Mathlib.Data.List.GetD
import Nerva.Base58
import Nerva.Lib.Numerals
import Nerva.Proofs.Serialization

/-!
# Base58 is a bijection

A block of bytes and its letters are the digits of one number, in base 256 and in base 58, and the
reader refuses the numbers that do not fit the bytes. So blocks correspond one to one, and strings
do block by block; addresses do up to the tags that `read_varint` takes from an input cut short.
-/

namespace Nerva.Base58

open Archive Numerals List

theorem reverseAlphabet_letter : ∀ d < 58, reverseAlphabet (letter d) = some d := by decide

theorem mem_reverseAlphabetData : ∀ x ∈ reverseAlphabetData.zipIdx, x.1.all fun d =>
    decide (d < 58 ∧ letter d = UInt8.ofNat (x.2 + (letter 0).toNat)) := by decide

variable {d : ℕ} {x e : Blob}

/-- The reverse table is inverse to the alphabet. -/
theorem letter_of_reverseAlphabet {c : UInt8} (h : reverseAlphabet c = some d) :
    d < 58 ∧ letter d = c := by
  unfold reverseAlphabet at h
  split_ifs at h with hlt
  have hle : (letter 0).toNat ≤ c.toNat := UInt8.le_iff_toNat_le.mp (UInt8.not_lt.mp hlt)
  obtain ⟨i, hi⟩ : ∃ i, c.toNat - (letter 0).toNat = i := ⟨_, rfl⟩
  have hmem : (some d, i) ∈ reverseAlphabetData.zipIdx := by
    rw [mk_mem_zipIdx_iff_getElem?]
    cases hget : reverseAlphabetData[i]? <;> simp_all
  have hall := mem_reverseAlphabetData _ hmem
  rw [← hi, Nat.sub_add_cancel hle] at hall
  simpa using hall

theorem letter_injOn {d' : ℕ} (hd : d < 58) (hd' : d' < 58) (h : letter d = letter d') :
    d = d' := by
  have heq := reverseAlphabet_letter d hd
  rw [h, reverseAlphabet_letter d' hd'] at heq
  exact (Option.some.inj heq).symm

def encodedSize (n : ℕ) : ℕ := encodedBlockSizes.getD n 0

theorem forall_decodedBlockSizes : ∀ m < 12, (decodedBlockSizes m).all fun n =>
    decide (n ≤ 8 ∧ encodedSize n = m) := by decide

theorem decodedBlockSizes_eq_some {m n : ℕ} (h : decodedBlockSizes m = some n) :
    n ≤ 8 ∧ encodedSize n = m := by
  rcases Nat.lt_or_ge m 12 with hm | hm
  · have hall := forall_decodedBlockSizes m hm
    rw [h] at hall
    simpa using hall
  · have hlen : decodedBlockSizesData.length = 12 := by decide
    rw [decodedBlockSizes, getD_eq_default _ _ (by omega)] at h
    cases h

theorem decodedBlockSizes_encodedSize : ∀ n ≤ 8, decodedBlockSizes (encodedSize n) = some n := by
  decide

theorem encodedSize_le : ∀ n ≤ 8, encodedSize n ≤ 11 := by decide

theorem pow_le_pow_encodedSize : ∀ n ≤ 8, 256 ^ n ≤ 58 ^ encodedSize n := by decide

/-- The number that a block of bytes encodes, highest byte first. -/
def byteValue (data : Blob) : ℕ := Nat.ofDigits 256 (data.reverse.map UInt8.toNat)

theorem byteValue_lt (data : Blob) : byteValue data < 256 ^ data.length := by
  have h := Nat.ofDigits_lt_base_pow_length (b := 256) (l := data.reverse.map UInt8.toNat)
    (by decide) fun d hd => by
      obtain ⟨byte, -, rfl⟩ := mem_map.mp hd
      exact byte.toNat_lt
  rwa [length_map, length_reverse] at h

theorem byteValue_concat (data : Blob) (byte : UInt8) :
    byteValue (data ++ [byte]) = byte.toNat + 256 * byteValue data := by
  simp [byteValue, Nat.ofDigits_cons]

theorem toNat_uint8beTo64 (data : Blob) (h : data.length ≤ 8) :
    (uint8beTo64 data).toNat = byteValue data := by
  induction data using reverseRecOn with
  | nil => rfl
  | append_singleton data byte ih =>
    rw [length_append, length_singleton] at h
    have hlt := byteValue_lt (data ++ [byte])
    have hpow : 256 ^ (data ++ [byte]).length ≤ 256 ^ 8 :=
      Nat.pow_le_pow_right (by decide) (by simpa using h)
    rw [byteValue_concat] at hlt ⊢
    rw [uint8beTo64, foldl_concat, ← uint8beTo64, UInt64.toNat_add, UInt64.toNat_mul,
      ih (by omega)]
    have h256 : (256 : UInt64).toNat = 256 := rfl
    have hbyte : byte.toUInt64.toNat = byte.toNat := rfl
    rw [h256, hbyte]
    omega

theorem uint64To8be_eq : ∀ (size : ℕ) (num : UInt64),
    uint64To8be num size = ((numerals 256 size num.toNat).map UInt8.ofNat).reverse
  | 0, _ => rfl
  | size + 1, num => by
    have hlast : num.toUInt8 = UInt8.ofNat (num.toNat % 256) := by
      apply UInt8.toNat_inj.mp
      rw [UInt8.toNat_ofNat', UInt64.toNat_toUInt8]
      omega
    rw [uint64To8be, uint64To8be_eq size (num / 256), numerals, map_cons, reverse_cons,
      hlast]
    rfl

theorem length_uint64To8be (num : UInt64) (size : ℕ) : (uint64To8be num size).length = size := by
  rw [uint64To8be_eq, length_reverse, length_map, length_numerals]

/-- The bytes of a number that fits have its value. -/
theorem byteValue_uint64To8be {num : UInt64} {size : ℕ} (h : num.toNat < 256 ^ size) :
    byteValue (uint64To8be num size) = num.toNat := by
  have hid : ((numerals 256 size num.toNat).map UInt8.ofNat).map UInt8.toNat =
      numerals 256 size num.toNat := by
    rw [map_map]
    refine (map_congr_left fun d hd => ?_).trans (map_id _)
    have hlt := lt_of_mem_numerals (by decide) hd
    rw [Function.comp_apply, UInt8.toNat_ofNat', Nat.mod_eq_of_lt hlt, id]
  rw [byteValue, uint64To8be_eq, reverse_reverse, hid, ofDigits_numerals, Nat.mod_eq_of_lt h]

/-- A number gives back the bytes it was read from. -/
theorem uint64To8be_byteValue {data : Blob} (num : UInt64) (h : num.toNat = byteValue data) :
    uint64To8be num data.length = data := by
  have hdigits : numerals 256 (data.reverse.map UInt8.toNat).length (byteValue data) =
      data.reverse.map UInt8.toNat := by
    refine numerals_ofDigits fun d hd => ?_
    obtain ⟨byte, -, rfl⟩ := mem_map.mp hd
    exact byte.toNat_lt
  rw [length_map, length_reverse] at hdigits
  rw [uint64To8be_eq, h, hdigits, map_map]
  have hid : data.reverse.map (UInt8.ofNat ∘ UInt8.toNat) = data.reverse :=
    (map_congr_left fun byte _ => UInt8.ofNat_toNat).trans (map_id _)
  rw [hid, reverse_reverse]

theorem encodeDigits_eq : ∀ (i : ℕ) (num : UInt64),
    encodeDigits i num = ((numerals 58 i num.toNat).map letter).reverse
  | 0, _ => rfl
  | i + 1, num => by
    rw [encodeDigits]
    split_ifs with hpos
    · rw [encodeDigits_eq i (num / 58), numerals, map_cons, reverse_cons]
      rfl
    · have hzero : num.toNat = 0 := by
        have hnot := mt UInt64.lt_iff_toNat_lt.mpr hpos
        exact Nat.eq_zero_of_not_pos hnot
      rw [hzero, numerals_zero, map_replicate, reverse_replicate]

/-- The code's two tests find exactly the overflows. -/
theorem overflows_iff (resNum : UInt64) (product : ℕ) :
    (resNum + UInt64.ofNat product < resNum ∨ product / 2 ^ 64 ≠ 0) ↔
      2 ^ 64 ≤ resNum.toNat + product := by
  rw [UInt64.lt_iff_toNat_lt, UInt64.toNat_add, UInt64.toNat_ofNat']
  omega

theorem exists_digits_cons (hd : d < 58) {l : Blob} {P : List ℕ → Prop} :
    (∃ ds, letter d :: l = ds.map letter ∧ (∀ x ∈ ds, x < 58) ∧ P ds) ↔
      ∃ ds, l = ds.map letter ∧ (∀ x ∈ ds, x < 58) ∧ P (d :: ds) := by
  constructor
  · rintro ⟨ds, hds, hlt, hP⟩
    cases ds with
    | nil => cases hds
    | cons d' ds =>
      rw [map_cons, cons.injEq] at hds
      obtain rfl := letter_injOn hd (hlt d' mem_cons_self) hds.1
      exact ⟨ds, hds.2, fun x hx => hlt x (mem_cons_of_mem _ hx), hP⟩
  · rintro ⟨ds, rfl, hlt, hP⟩
    refine ⟨d :: ds, rfl, fun x hx => ?_, hP⟩
    rcases mem_cons.mp hx with rfl | hx
    · exact hd
    · exact hlt x hx

/-- Decoding succeeds for letters whose value fits, and returns it. -/
theorem decodeDigits_eq_some_iff {v : UInt64} : ∀ {l : Blob} {resNum order : UInt64} {k : ℕ},
    (l ≠ [] → order.toNat = 58 ^ k) → l.length + k ≤ 11 →
    (decodeDigits l resNum order = some v ↔
      ∃ ds, l = ds.map letter ∧ (∀ d ∈ ds, d < 58) ∧
        v.toNat = resNum.toNat + 58 ^ k * Nat.ofDigits 58 ds)
  | [], resNum, order, k, _, _ => by
    rw [decodeDigits]
    constructor
    · rintro ⟨⟩
      exact ⟨[], rfl, by simp, by simp⟩
    · rintro ⟨ds, hds, -, hv⟩
      obtain rfl : ds = [] := by simpa using hds.symm
      rw [UInt64.toNat_inj.mp (hv.trans (by simp) : v.toNat = resNum.toNat)]
  | c :: l, resNum, order, k, horder, hlen => by
    have hk := horder (cons_ne_nil c l)
    rw [length_cons] at hlen
    rw [decodeDigits]
    cases hdigit : reverseAlphabet c with
    | none =>
      simp only [reduceCtorEq, false_iff]
      rintro ⟨ds, hds, hlt, -⟩
      obtain ⟨d, ds, rfl⟩ : ∃ d ds', ds = d :: ds' := by
        cases ds with
        | nil => cases hds
        | cons d ds => exact ⟨d, ds, rfl⟩
      rw [map_cons, cons.injEq] at hds
      rw [hds.1, reverseAlphabet_letter d (hlt d mem_cons_self)] at hdigit
      cases hdigit
    | some digit =>
      obtain ⟨hdlt, rfl⟩ := letter_of_reverseAlphabet hdigit
      simp only [overflows_iff, hk]
      rw [exists_digits_cons hdlt]
      simp only [Nat.ofDigits_cons]
      have hsum : ∀ n, resNum.toNat + 58 ^ k * (digit + 58 * n) =
          resNum.toNat + 58 ^ k * digit + 58 ^ (k + 1) * n := by
        intro n
        ring
      simp only [hsum]
      split_ifs with hover
      · simp only [false_iff]
        rintro ⟨ds, -, -, hv⟩
        have hvlt := v.toNat_lt
        omega
      · have hprod : (UInt64.ofNat (58 ^ k * digit)).toNat = 58 ^ k * digit := by
          rw [UInt64.toNat_ofNat', Nat.mod_eq_of_lt (by omega)]
        have htmp : (resNum + UInt64.ofNat (58 ^ k * digit)).toNat =
            resNum.toNat + 58 ^ k * digit := by
          rw [UInt64.toNat_add, hprod, Nat.mod_eq_of_lt (by omega)]
        have hnext : l ≠ [] → (order * 58).toNat = 58 ^ (k + 1) := by
          intro hne
          have hpos := length_pos_iff.mpr hne
          have hpow : 58 ^ (k + 1) ≤ 58 ^ 10 := Nat.pow_le_pow_right (by decide) (by omega)
          have h58 : (58 : UInt64).toNat = 58 := rfl
          rw [UInt64.toNat_mul, hk, h58, ← pow_succ, Nat.mod_eq_of_lt (by omega)]
        rw [decodeDigits_eq_some_iff hnext (by omega), htmp]

theorem length_encodeBlock (x : Blob) : (encodeBlock x).length = encodedSize x.length := by
  rw [encodeBlock, encodeDigits_eq, length_reverse, length_map, length_numerals]
  rfl

theorem byteValue_lt_encodedSize (h : x.length ≤ 8) : byteValue x < 58 ^ encodedSize x.length :=
  (byteValue_lt x).trans_le (pow_le_pow_encodedSize x.length h)

/-- A block is encoded by the digits of its value. -/
theorem encodeBlock_eq_iff (hx : x.length ≤ 8) :
    encodeBlock x = e ↔ e.length = encodedSize x.length ∧
      ∃ ds, e.reverse = ds.map letter ∧ (∀ d ∈ ds, d < 58) ∧ Nat.ofDigits 58 ds = byteValue x := by
  have hencode : encodeBlock x =
      ((numerals 58 (encodedSize x.length) (byteValue x)).map letter).reverse := by
    rw [encodeBlock, encodeDigits_eq, toNat_uint8beTo64 x hx]
    rfl
  constructor
  · rintro rfl
    refine ⟨length_encodeBlock x, _, by rw [hencode, reverse_reverse],
      fun d => lt_of_mem_numerals (by decide), ?_⟩
    rw [ofDigits_numerals, Nat.mod_eq_of_lt (byteValue_lt_encodedSize hx)]
  · rintro ⟨hlen, ds, hds, hlt, hvalue⟩
    have hds_len : ds.length = encodedSize x.length := by
      have hlens := congrArg length hds
      rw [length_reverse, length_map] at hlens
      exact hlens.symm.trans hlen
    rw [hencode, ← hds_len, ← hvalue, numerals_ofDigits hlt, ← hds, reverse_reverse]

theorem fits_iff {n : ℕ} (hn : n + 1 ≤ 8) (num : UInt64) :
    ¬(n + 1 < fullBlockSize ∧ 1 <<< (8 * (n + 1)) ≤ num.toNat) ↔ num.toNat < 256 ^ (n + 1) := by
  have hpow : 1 <<< (8 * (n + 1)) = 256 ^ (n + 1) := by
    rw [Nat.shiftLeft_eq, one_mul, pow_mul]
    rfl
  have hlt := num.toNat_lt
  rw [hpow, fullBlockSize]
  rcases Nat.lt_or_ge (n + 1) 8 with h | h
  · simp only [h, true_and, not_le]
  · obtain rfl : n = 7 := by omega
    omega

/-- A block is decoded exactly to what is encoded as it. -/
theorem decodeBlock_eq_some_iff :
    decodeBlock e = some x ↔ (1 ≤ x.length ∧ x.length ≤ 8) ∧ encodeBlock x = e := by
  unfold decodeBlock
  split
  · rename_i hsize
    simp only [reduceCtorEq, false_iff]
    rintro ⟨⟨-, hx⟩, rfl⟩
    rw [length_encodeBlock, decodedBlockSizes_encodedSize _ hx] at hsize
    cases hsize
  · rename_i hsize
    simp only [reduceCtorEq, false_iff]
    rintro ⟨⟨hpos, hx⟩, rfl⟩
    rw [length_encodeBlock, decodedBlockSizes_encodedSize _ hx] at hsize
    have hzero := Option.some.inj hsize
    omega
  · rename_i n hsize
    obtain ⟨hn, hencoded⟩ := decodedBlockSizes_eq_some hsize
    have hlen : e.reverse.length + 0 ≤ 11 := by
      rw [length_reverse, ← hencoded]
      exact encodedSize_le _ hn
    have hdigits (v : UInt64) : decodeDigits e.reverse 0 1 = some v ↔
        ∃ ds, e.reverse = ds.map letter ∧ (∀ d ∈ ds, d < 58) ∧
          v.toNat = 0 + 58 ^ 0 * Nat.ofDigits 58 ds :=
      decodeDigits_eq_some_iff (fun _ => rfl) hlen
    simp only [Option.bind_eq_some_iff, hdigits, pow_zero, one_mul, zero_add]
    constructor
    · rintro ⟨num, ⟨ds, hds, hlt, hvalue⟩, hresult⟩
      split_ifs at hresult with hover
      cases hresult
      have hsmall := (fits_iff hn num).mp hover
      refine ⟨by rw [length_uint64To8be]; omega, ?_⟩
      refine (encodeBlock_eq_iff (by rw [length_uint64To8be]; exact hn)).mpr ⟨?_, ds, hds, hlt, ?_⟩
      · rw [length_uint64To8be, hencoded]
      · rw [byteValue_uint64To8be hsmall, hvalue]
    · rintro ⟨⟨-, hx⟩, hencode⟩
      obtain ⟨hlen', ds, hds, hlt, hvalue⟩ := (encodeBlock_eq_iff hx).mp hencode
      have hsame : x.length = n + 1 := by
        rw [hlen', decodedBlockSizes_encodedSize _ hx] at hsize
        exact Option.some.inj hsize
      have hnum := toNat_uint8beTo64 x hx
      refine ⟨uint8beTo64 x, ⟨ds, hds, hlt, hnum.trans hvalue.symm⟩, ?_⟩
      have hsmall : (uint8beTo64 x).toNat < 256 ^ (n + 1) := by
        rw [hnum, ← hsame]
        exact byteValue_lt x
      rw [if_neg ((fits_iff hn _).mpr hsmall), ← hsame, uint64To8be_byteValue _ hnum]

section Split

variable {x y : Blob} {size : ℕ}

variable (h : x.length = size)

include h

theorem blockAt_append_zero : blockAt size (x ++ y) 0 = x := by
  rw [blockAt, Nat.zero_mul, drop_zero, ← h, take_left]

theorem blockAt_append_succ (i : ℕ) : blockAt size (x ++ y) (i + 1) = blockAt size y i := by
  have hdrop : (i + 1) * size = x.length + i * size := by
    rw [h]
    ring
  rw [blockAt, hdrop, ← drop_drop, drop_left, blockAt]

theorem length_append_div (hsize : 0 < size) : (x ++ y).length / size = y.length / size + 1 := by
  rw [length_append, h, Nat.add_div_left _ hsize]

theorem length_append_mod : (x ++ y).length % size = y.length % size := by
  rw [length_append, h, Nat.add_mod_left]

theorem drop_append_blocks (n : ℕ) : (x ++ y).drop ((n + 1) * size) = y.drop (n * size) := by
  have hdrop : (n + 1) * size = x.length + n * size := by
    rw [h]
    ring
  rw [hdrop, ← drop_drop, drop_left]

end Split

theorem encode_append {y : Blob} (h : x.length = 8) :
    encode (x ++ y) = encodeBlock x ++ encode y := by
  have hne : x ++ y ≠ [] := by
    intro hnil
    simp [(append_eq_nil_iff.mp hnil).1] at h
  have hy : encode y = ((range (y.length / 8)).flatMap fun i => encodeBlock (blockAt 8 y i)) ++
      if 0 < y.length % 8 then encodeBlock (y.drop (y.length / 8 * 8)) else [] := by
    by_cases hynil : y = []
    · subst hynil
      rfl
    · rw [encode, if_neg hynil]
      rfl
  rw [encode, if_neg hne, hy]
  simp only [fullBlockSize, length_append_div h (by decide), length_append_mod h,
    drop_append_blocks h, range_succ_eq_map, flatMap_cons, flatMap_map,
    blockAt_append_zero h, blockAt_append_succ h, append_assoc]

theorem encode_short (hpos : 0 < x.length) (h : x.length < 8) : encode x = encodeBlock x := by
  rw [encode, if_neg (length_pos_iff.mp hpos)]
  simp only [fullBlockSize, Nat.div_eq_of_lt h, Nat.mod_eq_of_lt h, if_pos hpos, range_zero,
    flatMap_nil, nil_append, Nat.zero_mul, drop_zero]

theorem decode_eq (enc : Blob) :
    decode enc = (decodedBlockSizes (enc.length % 11)).bind fun _ =>
      ((range (enc.length / 11)).mapM fun i => decodeBlock (blockAt 11 enc i)).bind fun blocks =>
      (if 0 < enc.length % 11 then decodeBlock (enc.drop (enc.length / 11 * 11)) else some []).map
        fun last => blocks.flatten ++ last := by
  by_cases hnil : enc = []
  · subst hnil
    rfl
  · rw [decode, if_neg hnil]
    rfl

/-- Decoding goes on behind a full block. -/
theorem decode_append {f : Blob} (h : e.length = 11) :
    decode (e ++ f) = (decodeBlock e).bind fun a => (decode f).map (a ++ ·) := by
  rw [decode_eq, decode_eq f]
  simp only [length_append_div h (by decide), length_append_mod h, drop_append_blocks h,
    range_succ_eq_map, mapM_cons, mapM_map, blockAt_append_zero h,
    Function.comp_def, blockAt_append_succ h]
  cases decodedBlockSizes (f.length % 11) with
  | none => cases decodeBlock e <;> rfl
  | some _ =>
    cases decodeBlock e with
    | none => rfl
    | some a =>
      cases (range (f.length / 11)).mapM fun i => decodeBlock (blockAt 11 f i) with
      | none => rfl
      | some blocks =>
        generalize (if 0 < f.length % 11 then decodeBlock (f.drop (f.length / 11 * 11))
          else some []) = last
        cases last with
        | none => rfl
        | some last => simp [append_assoc]

theorem decode_short (hpos : 0 < e.length) (h : e.length < 11) : decode e = decodeBlock e := by
  rw [decode_eq, Nat.mod_eq_of_lt h, Nat.div_eq_of_lt h, if_pos hpos]
  simp only [Nat.zero_mul, drop_zero]
  unfold decodeBlock
  cases decodedBlockSizes e.length with
  | none => rfl
  | some n => simp

theorem decode_eq_some_of_encode : ∀ (n : ℕ) (x : Blob), x.length ≤ n → decode (encode x) = some x
  | 0, x, h => by
    obtain rfl := length_eq_zero_iff.mp (Nat.le_zero.mp h)
    rfl
  | n + 1, x, h => by
    rcases Nat.lt_or_ge x.length 8 with hshort | hlong
    · rcases Nat.eq_zero_or_pos x.length with hzero | hpos
      · obtain rfl := length_eq_zero_iff.mp hzero
        rfl
      · have hlen := length_encodeBlock x
        have hsizes : ∀ m < 8, 0 < m → 0 < encodedSize m ∧ encodedSize m < 11 := by decide
        have hsize := hsizes _ hshort hpos
        rw [encode_short hpos hshort, decode_short (by omega) (by omega)]
        exact decodeBlock_eq_some_iff.mpr ⟨⟨hpos, by omega⟩, rfl⟩
    · have hhead : (x.take 8).length = 8 := length_take_of_le hlong
      have hrest := decode_eq_some_of_encode n (x.drop 8) (by rw [length_drop]; omega)
      have hblock : decodeBlock (encodeBlock (x.take 8)) = some (x.take 8) :=
        decodeBlock_eq_some_iff.mpr ⟨by omega, rfl⟩
      have hlen : (encodeBlock (x.take 8)).length = 11 := by
        rw [length_encodeBlock, hhead]
        rfl
      have hencode : encode x = encodeBlock (x.take 8) ++ encode (x.drop 8) := by
        rw [← encode_append hhead, take_append_drop]
      rw [hencode, decode_append hlen, hblock, hrest]
      simp

theorem encode_eq_of_decode :
    ∀ (n : ℕ) {e x : Blob}, e.length ≤ n → decode e = some x → encode x = e
  | 0, e, x, hlen, h => by
    obtain rfl := length_eq_zero_iff.mp (Nat.le_zero.mp hlen)
    cases h
    rfl
  | n + 1, e, x, hlen, h => by
    rcases Nat.lt_or_ge e.length 11 with hshort | hlong
    · rcases Nat.eq_zero_or_pos e.length with hzero | hpos
      · obtain rfl := length_eq_zero_iff.mp hzero
        cases h
        rfl
      · rw [decode_short hpos hshort] at h
        obtain ⟨⟨hxpos, hx⟩, hblock⟩ := decodeBlock_eq_some_iff.mp h
        have hsmall : x.length < 8 := by
          by_contra hfull
          have hlen8 : x.length = 8 := by omega
          have hencoded := length_encodeBlock x
          rw [hblock, hlen8] at hencoded
          have heleven : encodedSize 8 = 11 := rfl
          omega
        rw [encode_short hxpos hsmall, hblock]
    · have hhead : (e.take 11).length = 11 := length_take_of_le hlong
      rw [← take_append_drop 11 e, decode_append hhead] at h
      obtain ⟨a, ha, hmap⟩ := Option.bind_eq_some_iff.mp h
      obtain ⟨b, hb, rfl⟩ := Option.map_eq_some_iff.mp hmap
      have hrest := encode_eq_of_decode n (by rw [length_drop]; omega) hb
      obtain ⟨⟨hapos, ha8⟩, hblock⟩ := decodeBlock_eq_some_iff.mp ha
      have hsizes : ∀ m ≤ 8, encodedSize m = 11 → m = 8 := by decide
      have hlen8 : a.length = 8 := by
        refine hsizes _ ha8 ?_
        rw [← length_encodeBlock, hblock, hhead]
      rw [encode_append hlen8, hblock, hrest, take_append_drop]

/-- Decoding is inverse to encoding. -/
theorem decode_eq_some_iff : decode e = some x ↔ encode x = e :=
  ⟨encode_eq_of_decode _ le_rfl, fun h => h ▸ decode_eq_some_of_encode _ x le_rfl⟩

theorem encode_injective {y : Blob} (h : encode x = encode y) : x = y :=
  Option.some.inj ((decode_eq_some_iff.mpr h).symm.trans (decode_eq_some_iff.mpr rfl))

section Addr

variable {cnFastHash : Blob → Bytes 32} {e q : Blob} {tag : UInt64} {data : Blob}

/-- Bytes that are all of a varint that is cut off. -/
def CutOff (q : Blob) : Prop := q ≠ [] ∧ q.length ≤ 9 ∧ ∀ byte ∈ q, 128 ≤ byte.toNat

theorem length_addrChecksum (cnFastHash : Blob → Bytes 32) (q : Blob) :
    (addrChecksum cnFastHash q).length = 4 := by
  rw [addrChecksum, length_take, (cnFastHash q).2]
  rfl

theorem payload_injective {q q' : Blob}
    (h : encode (q ++ addrChecksum cnFastHash q) = encode (q' ++ addrChecksum cnFastHash q')) :
    q = q' := by
  have happ := encode_injective h
  have hlen := congrArg length happ
  rw [length_append, length_append, length_addrChecksum, length_addrChecksum] at hlen
  exact (append_inj happ (by omega)).1

/-- An address is accepted when it has its checksum and starts with a varint, be it cut off. -/
theorem decodeAddr_eq_some_iff :
    decodeAddr cnFastHash e = some (tag, data) ↔
      ∃ q t, e = encode (q ++ addrChecksum cnFastHash q) ∧ q ≠ [] ∧
        readVarint true 64 0 0 q = some (t, data) ∧ tag = UInt64.ofNat t := by
  -- what remains of a payload after its tag
  have hrest : ∀ {q rest : Blob} {t : ℕ}, q ≠ [] → readVarint true 64 0 0 q = some (t, rest) →
      q.length - rest.length ≠ 0 ∧ q.drop (q.length - rest.length) = rest := by
    intro q rest t hne hread
    obtain ⟨byte, s, rfl⟩ := exists_cons_of_ne_nil hne
    have hsuffix := suffix_of_readVarint hread
    have hlen := hsuffix.length_le
    refine ⟨by rw [length_cons]; omega, ?_⟩
    exact (suffix_iff_eq_drop.mp (hsuffix.trans (suffix_cons byte s))).symm
  unfold decodeAddr
  simp only [Option.bind_eq_some_iff, decode_eq_some_iff]
  have hsize : addrChecksumSize = 4 := rfl
  constructor
  · rintro ⟨p, rfl, h⟩
    split_ifs at h with hshort hsum
    obtain ⟨⟨t, rest⟩, hread, h⟩ := Option.bind_eq_some_iff.mp h
    have hne : p.take (p.length - addrChecksumSize) ≠ [] := by
      refine length_pos_iff.mp ?_
      rw [length_take]
      omega
    obtain ⟨hpos, hdrop⟩ := hrest hne hread
    simp only [hdrop, if_neg hpos] at h
    obtain ⟨rfl, rfl⟩ := h
    refine ⟨p.take (p.length - addrChecksumSize), t, ?_, hne, hread, rfl⟩
    rw [not_not.mp hsum, take_append_drop]
  · rintro ⟨q, t, rfl, hne, hread, rfl⟩
    have hchecksum := length_addrChecksum cnFastHash q
    have hlen : (q ++ addrChecksum cnFastHash q).length = q.length + addrChecksumSize := by
      rw [length_append, hchecksum, hsize]
    obtain ⟨hread0, hdrop⟩ := hrest hne hread
    refine ⟨_, rfl, ?_⟩
    rw [hlen, if_neg (by omega), Nat.add_sub_cancel]
    simp only [take_left, drop_left, ne_eq, not_true, if_false, hread, Option.bind_some,
      hdrop, if_neg hread0]

theorem readVarint_tag (lenient : Bool) (tag : UInt64) (data : Blob) :
    readVarint lenient 64 0 0 (writeVarint 64 tag.toNat ++ data) = some (tag.toNat, data) := by
  have h : readVarint lenient 64 0 0 (writeVarint 64 tag.toNat ++ data) =
      some (0 + 2 ^ 0 * tag.toNat, data) :=
    readVarint_writeVarint (tag.toNat_lt.trans (two_pow_lt_fuel 64)) tag.toNat_lt
      (fun h => absurd rfl h) (by decide)
  simpa using h

/-- An encoded address is decoded. -/
theorem decodeAddr_encodeAddr (tag : UInt64) (data : Blob) :
    decodeAddr cnFastHash (encodeAddr cnFastHash tag data) = some (tag, data) := by
  refine decodeAddr_eq_some_iff.mpr ⟨_, tag.toNat, rfl, ?_, readVarint_tag true tag data,
    UInt64.ofNat_toNat.symm⟩
  intro hnil
  have hread := readVarint_tag false tag data
  rw [hnil] at hread
  cases hread

theorem writeVarint_append_of_readVarint {t : ℕ} (h : readVarint true 64 0 0 q = some (t, data))
    (hne : q ≠ []) (hcut : ¬CutOff q) : q = writeVarint 64 (UInt64.ofNat t).toNat ++ data := by
  rcases readVarint_lenient h with hstrict | ⟨rfl, -, hall⟩
  · obtain ⟨i, rfl, hi, -, hq⟩ := writeVarint_of_readVarint hstrict (by decide) (by decide)
    rw [pow_zero, one_mul, zero_add, UInt64.toNat_ofNat', Nat.mod_eq_of_lt hi]
    exact hq 64 (hi.trans (two_pow_lt_fuel 64))
  · have hroom := (isSome_readVarint_iff hall (by decide)).mp (Option.isSome_of_eq_some h)
    exact absurd ⟨hne, by omega, hall⟩ hcut

theorem not_cutOff_writeVarint (tag : UInt64) (data : Blob) :
    ¬CutOff (writeVarint 64 tag.toNat ++ data) := by
  rintro ⟨-, -, hall⟩
  obtain ⟨byte, hmem, hbyte⟩ := exists_last_writeVarint 64
    (tag.toNat_lt.trans (two_pow_lt_fuel 64))
  exact absurd (hall byte (mem_append_left _ hmem)) (Nat.not_le.mpr hbyte)

theorem CutOff.decodeAddr (cnFastHash : Blob → Bytes 32) (h : CutOff q) :
    ∃ tag, decodeAddr cnFastHash (encode (q ++ addrChecksum cnFastHash q)) = some (tag, []) := by
  have hshort := h.2.1
  have hsome : (readVarint true 64 0 0 q).isSome :=
    (isSome_readVarint_iff h.2.2 (by decide)).mpr (by omega)
  obtain ⟨⟨t, rest⟩, hread⟩ := Option.isSome_iff_exists.mp hsome
  obtain rfl : rest = [] := by
    rcases readVarint_lenient hread with hstrict | ⟨hrest, -⟩
    · obtain ⟨i, -, hi, -, hq⟩ := writeVarint_of_readVarint hstrict (by decide) (by decide)
      obtain ⟨byte, hmem, hbyte⟩ := exists_last_writeVarint 64 (hi.trans (two_pow_lt_fuel 64))
      have hin := hq 64 (hi.trans (two_pow_lt_fuel 64)) ▸ mem_append_left rest hmem
      exact absurd (h.2.2 byte hin) (Nat.not_le.mpr hbyte)
    · exact hrest
  exact ⟨_, decodeAddr_eq_some_iff.mpr ⟨q, t, rfl, h.1, hread, rfl⟩⟩

/-- Decoding an address is exact unless its payload is a varint that is cut off. -/
theorem decodeAddr_exact_iff :
    (∀ tag data, decodeAddr cnFastHash e = some (tag, data) ↔ encodeAddr cnFastHash tag data = e) ↔
      ∀ q, CutOff q → encode (q ++ addrChecksum cnFastHash q) ≠ e := by
  constructor
  · rintro h q hcut rfl
    obtain ⟨tag, hdecode⟩ := hcut.decodeAddr cnFastHash
    have hencode := (h tag []).mp hdecode
    rw [← payload_injective hencode] at hcut
    exact not_cutOff_writeVarint tag [] hcut
  · intro h tag data
    constructor
    · intro hdecode
      obtain ⟨q, t, rfl, hne, hread, rfl⟩ := decodeAddr_eq_some_iff.mp hdecode
      have hcut : ¬CutOff q := fun hcut => h q hcut rfl
      rw [encodeAddr, ← writeVarint_append_of_readVarint hread hne hcut]
    · rintro rfl
      exact decodeAddr_encodeAddr tag data

end Addr

/-- Strings correspond one to one to the strings that the reader accepts. Addresses do at every
string but those of a payload that is cut off. -/
theorem encode_decode_bijective (cnFastHash : Blob → Bytes 32) :
    (∀ x, decode (encode x) = some x) ∧ (∀ e x, decode e = some x → encode x = e) ∧
    (∀ tag data, decodeAddr cnFastHash (encodeAddr cnFastHash tag data) = some (tag, data)) ∧
    ∀ e, (∀ tag data, decodeAddr cnFastHash e = some (tag, data) ↔
        encodeAddr cnFastHash tag data = e) ↔
      ∀ q, CutOff q → encode (q ++ addrChecksum cnFastHash q) ≠ e :=
  ⟨fun _ => decode_eq_some_iff.mpr rfl, fun _ _ => decode_eq_some_iff.mp, decodeAddr_encodeAddr,
    fun _ => decodeAddr_exact_iff⟩

def zeroHash (_ : Blob) : Bytes 32 := ⟨replicate 32 0, rfl⟩

/-- The payload of the one byte 0x80 is accepted as the tag 0 without data, whatever the hash. -/
theorem decodeAddr_accepts_cutOff :
    decodeAddr zeroHash (encode [0x80, 0, 0, 0, 0]) = some (0, []) ∧
      ¬∃ tag data, encodeAddr zeroHash tag data = encode [0x80, 0, 0, 0, 0] := by
  refine ⟨decodeAddr_eq_some_iff.mpr ⟨[0x80], 0, rfl, by decide, by decide, rfl⟩, ?_⟩
  rintro ⟨tag, data, h⟩
  have hpayload :
      encodeAddr zeroHash tag data = encode ([0x80] ++ addrChecksum zeroHash [0x80]) := h
  have hcut : CutOff (writeVarint 64 tag.toNat ++ data) := by
    rw [payload_injective hpayload]
    exact ⟨by simp, by simp, by simp⟩
  exact not_cutOff_writeVarint tag data hcut

end Nerva.Base58
