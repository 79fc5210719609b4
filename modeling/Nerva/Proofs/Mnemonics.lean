import Nerva.Lib.Lists
import Nerva.Mnemonics

/-!
# Seeds of twelve words

Whether the data of a phrase is repeated is tested with a length in other units than the one its
number of words is tested with.
-/

namespace Nerva

open List

variable {seed : List Blob} {hasChecksum : Bool} {language : Language} {matched : List UInt32}
  {languages : List Language} {data : Blob}

/-- The language found is the one whose words they are. -/
theorem findSeedLanguage_eq (hmatch : language.matchIndices seed hasChecksum = some matched)
    (hsum : hasChecksum = true → language.checksumTest seed = true) :
    ∀ {languages : List Language} (fallback : Option Language), language ∈ languages →
      (∀ l ∈ languages, (l.matchIndices seed hasChecksum).isSome → l = language) →
      findSeedLanguage seed hasChecksum languages fallback = some (language, matched)
  | l :: ls, fallback, hmem, honly => by
    unfold findSeedLanguage
    cases hl : l.matchIndices seed hasChecksum with
    | none =>
      have hne : language ≠ l := fun heq => by rw [← heq, hmatch] at hl; cases hl
      exact findSeedLanguage_eq hmatch hsum fallback ((mem_cons.1 hmem).resolve_left hne)
        fun l' hl' => honly l' (mem_cons_of_mem _ hl')
    | some indices =>
      obtain rfl := honly l mem_cons_self (by rw [hl]; rfl)
      obtain rfl := Option.some.inj (hl.symm.trans hmatch)
      exact if_neg fun hnot => by simp [hsum hnot.1] at hnot

theorem length_decodeTriples {n : UInt32} : ∀ {ws : List UInt32} {dst : Blob},
    decodeTriples n ws = some dst → dst.length = 4 * (ws.length / 3)
  | [], _, h | [_], _, h | [_, _], _, h => by
    cases h
    simp
  | w₁ :: w₂ :: w₃ :: ws, _, h => by
    simp only [decodeTriples] at h
    split_ifs at h
    obtain ⟨dst, hdst, rfl⟩ := Option.map_eq_some_iff.1 h
    rw [length_append, Numerals.length_leBytes, length_decodeTriples hdst]
    simp only [length_cons]
    omega

/-- The words are of one language, with the right checksum if they have one, and spell `data`. -/
def Spells (languages : List Language) (seed : List Blob) (data : Blob) : Prop :=
  ∃ l ∈ languages, ∃ matched, l.matchIndices seed (seed.length = 25) = some matched ∧
    (∀ l' ∈ languages, (l'.matchIndices seed (seed.length = 25)).isSome → l' = l) ∧
    (seed.length = 25 → l.checksumTest seed = true) ∧
    decodeTriples l.wordListLength (matched.take 24) = some data

/-- A phrase of 12 words never becomes a key. -/
theorem wordsToSecretKey_eq_iff (hlen : seed.length = 12 ∨ seed.length = 24 ∨ seed.length = 25)
    (hspells : Spells languages seed data) :
    wordsToSecretKey languages seed = some (if seed.length = 12 then data ++ data else data) ↔
      seed.length ≠ 12 := by
  obtain ⟨l, hl, matched, hmatch, honly, hsum, hdata⟩ := hspells
  have hfind := findSeedLanguage_eq hmatch (by simpa using hsum) none hl honly
  have hlength := (Lists.forall₂_of_mapM_eq_some hmatch).length_eq
  have hbytes := length_decodeTriples hdata
  have hwords : (if seed.length = 25 then seed.dropLast else seed).length = min 24 seed.length := by
    split_ifs
    · rw [length_dropLast]
      omega
    · omega
  have htake : matched.take (min 24 seed.length) = matched.take 24 := by
    rw [hlength, ← take_eq_take_min]
  have hshort : min 24 seed.length ≠ 1 := by omega
  have hdecoded : wordsToBytes languages seed 32 true = some data := by
    simp [wordsToBytes, guard, hlen, hfind, if_pos hsum, hwords, htake, hdata, hshort]
  rw [wordsToSecretKey, hdecoded, Option.filter_some]
  rcases hlen with h | h | h <;> simp [h] at hbytes ⊢ <;> omega

def zeroWords : Language := ⟨1626, fun _ => some 0, fun _ => some 0, fun _ => true⟩

theorem wordsToSecretKey_twentyFour :
    wordsToSecretKey [zeroWords] (replicate 24 []) = some (replicate 32 0) :=
  (wordsToSecretKey_eq_iff (.inr (.inl rfl)) ⟨zeroWords, mem_singleton_self _, _, rfl,
    fun _ hl _ => mem_singleton.1 hl, fun _ => rfl, rfl⟩).2 (by decide)

theorem wordsToSecretKey_twelve : Spells [zeroWords] (replicate 12 []) (replicate 16 0) ∧
    wordsToSecretKey [zeroWords] (replicate 12 []) = none :=
  ⟨⟨zeroWords, mem_singleton_self _, _, rfl, fun _ hl _ => mem_singleton.1 hl, fun _ => rfl,
    rfl⟩, rfl⟩

end Nerva
