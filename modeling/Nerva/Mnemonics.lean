import Nerva.Basic
import Nerva.Lib.Numerals

/-!
# Mnemonic seeds

Three words of a list spell four bytes of a key, and one more word is a checksum.
-/

namespace Nerva

/-- `Language::Base`, with the prefix of a word taken before it is looked up among the trimmed ones,
and with `checksum_test` for this language. -/
structure Language where
  wordListLength : UInt32
  wordMap : Blob → Option UInt32
  trimmedWordMap : Blob → Option UInt32
  checksumTest : List Blob → Bool

def Language.matchIndices (l : Language) (seed : List Blob) (hasChecksum : Bool) :
    Option (List UInt32) :=
  seed.mapM (if hasChecksum then l.trimmedWordMap else l.wordMap)

/-- `find_seed_language`, from one of the languages on. The indices of a fallback were cleared. -/
def findSeedLanguage (seed : List Blob) (hasChecksum : Bool) :
    List Language → Option Language → Option (Language × List UInt32)
  | [], fallback => fallback.map (·, [])
  | l :: ls, fallback =>
    match l.matchIndices seed hasChecksum with
    | none => findSeedLanguage seed hasChecksum ls fallback
    | some matchedIndices =>
      if hasChecksum ∧ l.checksumTest seed = false then
        findSeedLanguage seed hasChecksum ls (some l)
      else some (l, matchedIndices)

/-- The loop of `words_to_bytes`; none for a triple that overflows. -/
def decodeTriples (n : UInt32) : List UInt32 → Option Blob
  | w₁ :: w₂ :: w₃ :: rest =>
    let w₀ := w₁ + n * ((n - w₁ + w₂) % n) + n * n * ((n - w₂ + w₃) % n)
    if w₀ % n = w₁ then (decodeTriples n rest).map (Numerals.leBytes 4 w₀.toNat ++ ·) else none
  | _ => some []

def wordsToBytes (languages : List Language) (seed : List Blob) (len : ℕ) (duplicate : Bool) :
    Option Blob := do
  guard (len % 4 = 0)
  let expected := len * 8 * 3 / 32
  guard (len = 0 ∨ seed.length = expected / 2 ∨ seed.length = expected ∨
    seed.length = expected + 1)
  let hasChecksum := decide (len = 0 ∨ seed.length = expected + 1)
  let found ← findSeedLanguage seed hasChecksum languages none
  guard (hasChecksum → found.1.checksumTest seed)
  let words := if hasChecksum then seed.dropLast else seed
  let dst ← decodeTriples found.1.wordListLength (found.2.take words.length)
  let expected := len * 3 / 32
  return if 0 < len ∧ duplicate ∧ words.length = expected / 2 then dst ++ dst else dst

def wordsToSecretKey (languages : List Language) (seed : List Blob) : Option Blob :=
  (wordsToBytes languages seed 32 true).filter (·.length = 32)

end Nerva
