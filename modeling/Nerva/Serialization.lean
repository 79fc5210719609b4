import Nerva.Basic
import Nerva.Lib.Codec

/-!
# The binary archive

The readers and writers of `binary_archive`, `do_serialize_container` and the variant serializer.
The lenient reader of each codec is the archive's: `read_varint` at the end of its input returns
what it has so far, and no error. The strict reader is the same one with an error there.
-/

namespace Nerva

/-- A type with a `BLOB_SERIALIZER`. -/
abbrev Bytes (n : ℕ) := { data : Blob // data.length = n }

instance (n : ℕ) : Inhabited (Bytes n) := ⟨List.replicate n 0, List.length_replicate⟩

namespace Archive

/-- `read_varint`, in the loop at `shift` with the value `write`. -/
def readVarint (lenient : Bool) (bits : ℕ) : (shift write : ℕ) → Blob → Option (ℕ × Blob)
  | _, write, [] => if lenient then some (write, []) else none
  | shift, write, byte :: s =>
    if bits ≤ shift + 7 ∧ 1 <<< (bits - shift) ≤ byte.toNat then none -- EVARINT_OVERFLOW
    else if byte = 0 ∧ shift ≠ 0 then none -- EVARINT_REPRESENT
    else
      let write := write ||| (byte &&& 0x7f).toNat <<< shift
      if byte &&& 0x80 = 0 then some (write, s) else readVarint lenient bits (shift + 7) write s

/-- `write_varint`, for at most `fuel` bytes with the continuation bit. -/
def writeVarint : (fuel i : ℕ) → Blob
  | 0, i => [UInt8.ofNat i]
  | fuel + 1, i =>
    if 0x80 ≤ i then (UInt8.ofNat i &&& 0x7f ||| 0x80) :: writeVarint fuel (i >>> 7)
    else [UInt8.ofNat i]

/-- `serialize_uvarint` for an unsigned type of the given width. -/
def varint (bits : ℕ) : Codec UInt8 (BitVec bits) where
  read lenient s := (readVarint lenient bits 0 0 s).map fun x => (BitVec.ofNat bits x.1, x.2)
  write v := some (writeVarint bits v.toNat)

/-- What `read_varint` returns, the number of bytes it has read, with the value; none for an error
code. -/
def readVarintBytes (bits : ℕ) (s : Blob) : Option (ℕ × BitVec bits) :=
  ((varint bits).read true s).map fun x => (s.length - x.2.length, x.1)

/-- `serialize_uint`, in the loop at `shift` with the value `ret`. -/
def readUint : (width shift ret : ℕ) → Blob → Option (ℕ × Blob)
  | 0, _, ret, s => some (ret, s)
  | _ + 1, _, _, [] => none
  | width + 1, shift, ret, byte :: s => readUint width (shift + 8) (ret + byte.toNat <<< shift) s

def writeUint : (width v : ℕ) → Blob
  | 0, _ => []
  | width + 1, v => UInt8.ofNat (v &&& 0xff) :: writeUint width (v >>> 8)

def uint (width : ℕ) : Codec UInt8 (BitVec (8 * width)) where
  read _ s := (readUint width 0 0 s).map fun x => (BitVec.ofNat (8 * width) x.1, x.2)
  write v := some (writeUint width v.toNat)

def blob (n : ℕ) : Codec UInt8 (Bytes n) where
  read _ s :=
    if h : n ≤ s.length then some (⟨s.take n, List.length_take_of_le h⟩, s.drop n) else none
  write v := some v.1

def uint8 : Codec UInt8 UInt8 := (uint 1).map UInt8.ofBitVec UInt8.toBitVec

def uint32 : Codec UInt8 UInt32 := (uint 4).map UInt32.ofBitVec UInt32.toBitVec

def varint8 : Codec UInt8 UInt8 := (varint 8).map UInt8.ofBitVec UInt8.toBitVec

def varint64 : Codec UInt8 UInt64 := (varint 64).map UInt64.ofBitVec UInt64.toBitVec

def container {α : Type} (element : Codec UInt8 α) : Codec UInt8 (List α) :=
  (((varint 64).room fun cnt remaining => cnt.toNat ≤ remaining).seq fun cnt =>
    element.array cnt.toNat).map Prod.snd fun v => (BitVec.ofNat 64 v.length, v)

/-- One type of a variant: its `VARIANT_TAG`, its serializer, and how its values stand in the
variant. -/
def alternative {α β : Type} (t : UInt8) (c : Codec UInt8 α) (mk : α → β) (get : β → Option α) :
    UInt8 × Codec UInt8 β :=
  (t, c.emap (fun a => some (mk a)) get)

/-- The variant serializer: the readers of the alternatives by their tags, and a value's tag. -/
def variant {α : Type} (alternatives : List (UInt8 × Codec UInt8 α)) (tag : α → UInt8) :
    Codec UInt8 α :=
  (uint8.seq fun t => (alternatives.lookup t).getD .fail).map Prod.snd fun v => (tag v, v)

end Archive

end Nerva
