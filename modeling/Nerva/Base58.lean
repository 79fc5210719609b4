import Mathlib.Algebra.Ring.Nat
import Nerva.Serialization

/-!
# Base58

Blocks of eight bytes are written as eleven digits, the last block with as many as its size needs.
An address is a tag as a varint, its data and four bytes of a hash of both, in base58.
-/

namespace Nerva.Base58

open Archive

def alphabet : Blob :=
  ['1', '2', '3', '4', '5', '6', '7', '8', '9', 'A', 'B', 'C', 'D', 'E', 'F', 'G', 'H', 'J', 'K',
    'L', 'M', 'N', 'P', 'Q', 'R', 'S', 'T', 'U', 'V', 'W', 'X', 'Y', 'Z', 'a', 'b', 'c', 'd', 'e',
    'f', 'g', 'h', 'i', 'j', 'k', 'm', 'n', 'o', 'p', 'q', 'r', 's', 't', 'u', 'v', 'w', 'x', 'y',
    'z'].map fun c => UInt8.ofNat c.toNat

def alphabetSize : ℕ := 58

def letter (digit : ℕ) : UInt8 := alphabet.getD digit 0

def encodedBlockSizes : List ℕ := [0, 2, 3, 5, 6, 7, 9, 10, 11]

def fullBlockSize : ℕ := 8

def fullEncodedBlockSize : ℕ := 11

def addrChecksumSize : ℕ := 4

def reverseAlphabetData : List (Option ℕ) :=
  alphabet.zipIdx.foldl (fun data x => data.set (x.1.toNat - (letter 0).toNat) (some x.2))
    (List.replicate ((letter (alphabetSize - 1)).toNat - (letter 0).toNat + 1) none)

/-- `reverse_alphabet`; none is -1. -/
def reverseAlphabet (c : UInt8) : Option ℕ :=
  if c < letter 0 then none else (reverseAlphabetData.getD (c.toNat - (letter 0).toNat) none)

def decodedBlockSizesData : List (Option ℕ) :=
  encodedBlockSizes.zipIdx.foldl (fun data x => data.set x.1 (some x.2))
    (List.replicate (fullEncodedBlockSize + 1) none)

/-- `decoded_block_sizes`; none is -1. -/
def decodedBlockSizes (encodedBlockSize : ℕ) : Option ℕ :=
  decodedBlockSizesData.getD encodedBlockSize none

def uint8beTo64 (data : Blob) : UInt64 := data.foldl (fun num byte => num * 256 + byte.toUInt64) 0

/-- `uint_64_to_8be`: the last `size` bytes of the number. -/
def uint64To8be (num : UInt64) : (size : ℕ) → Blob
  | 0 => []
  | size + 1 => uint64To8be (num / 256) size ++ [num.toUInt8]

/-- The loop of `encode_block`, with `i` letters left in front. They have been set to the first one
of the alphabet. -/
def encodeDigits : (i : ℕ) → (num : UInt64) → Blob
  | 0, _ => []
  | i + 1, num =>
    if 0 < num then encodeDigits i (num / 58) ++ [letter (num % 58).toNat]
    else List.replicate (i + 1) (letter 0)

def encodeBlock (block : Blob) : Blob :=
  encodeDigits (encodedBlockSizes.getD block.length 0) (uint8beTo64 block)

/-- The loop of `decode_block`, over the letters from the last one on. -/
def decodeDigits : Blob → (resNum order : UInt64) → Option UInt64
  | [], resNum, _ => some resNum
  | c :: rest, resNum, order =>
    match reverseAlphabet c with
    | none => none -- Invalid symbol
    | some digit =>
      let product := order.toNat * digit
      let tmp := resNum + UInt64.ofNat product
      if tmp < resNum ∨ product / 2 ^ 64 ≠ 0 then none -- Overflow
      else decodeDigits rest tmp (order * 58)

def decodeBlock (block : Blob) : Option Blob :=
  match decodedBlockSizes block.length with
  | none | some 0 => none -- Invalid block size
  | some (resSize + 1) =>
    (decodeDigits block.reverse 0 1).bind fun resNum =>
      if resSize + 1 < fullBlockSize ∧ 1 <<< (8 * (resSize + 1)) ≤ resNum.toNat then
        none -- Overflow
      else some (uint64To8be resNum (resSize + 1))

def blockAt (size : ℕ) (data : Blob) (i : ℕ) : Blob := (data.drop (i * size)).take size

def encode (data : Blob) : Blob :=
  if data = [] then []
  else
    let fullBlockCount := data.length / fullBlockSize
    let lastBlockSize := data.length % fullBlockSize
    ((List.range fullBlockCount).flatMap fun i => encodeBlock (blockAt fullBlockSize data i)) ++
      if 0 < lastBlockSize then encodeBlock (data.drop (fullBlockCount * fullBlockSize)) else []

def decode (enc : Blob) : Option Blob :=
  if enc = [] then some []
  else
    let fullBlockCount := enc.length / fullEncodedBlockSize
    let lastBlockSize := enc.length % fullEncodedBlockSize
    (decodedBlockSizes lastBlockSize).bind fun _ => -- Invalid enc length
    ((List.range fullBlockCount).mapM fun i =>
      decodeBlock (blockAt fullEncodedBlockSize enc i)).bind fun blocks =>
    (if 0 < lastBlockSize then decodeBlock (enc.drop (fullBlockCount * fullEncodedBlockSize))
      else some []).map fun last => blocks.flatten ++ last

section Addr

variable (cnFastHash : Blob → Bytes 32)

def addrChecksum (buf : Blob) : Blob := (cnFastHash buf).1.take addrChecksumSize

def encodeAddr (tag : UInt64) (data : Blob) : Blob :=
  let buf := writeVarint 64 tag.toNat ++ data
  encode (buf ++ addrChecksum cnFastHash buf)

/-- `decode_addr`. At the end of its input `read_varint` returns the bytes it has read, as it does
for a number that ends. -/
def decodeAddr (addr : Blob) : Option (UInt64 × Blob) :=
  (decode addr).bind fun addrData =>
  if addrData.length ≤ addrChecksumSize then none
  else
    let checksum := addrData.drop (addrData.length - addrChecksumSize)
    let addrData := addrData.take (addrData.length - addrChecksumSize)
    if addrChecksum cnFastHash addrData ≠ checksum then none
    else
      (readVarint true 64 0 0 addrData).bind fun (tag, rest) =>
        let read := addrData.length - rest.length
        if read = 0 then none else some (UInt64.ofNat tag, addrData.drop read)

end Addr

end Nerva.Base58
