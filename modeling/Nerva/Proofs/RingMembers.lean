import Nerva.Proofs.Accepting
import Nerva.Lib.Lists
import Mathlib.Data.UInt

/-!
# Ring members are distinct and old enough

Distinctness is tested on the relative offsets and age on the last ring member, and the absolute
indices are running sums in `uint64_t`. Both tests are right as long as the sums do not wrap.
-/

namespace Nerva

open Checks List RunningSums

/-- Each ring has distinct members, and every member was created at least
`CRYPTONOTE_DEFAULT_TX_SPENDABLE_AGE` blocks ago. -/
structure RingsDistinctAndOld (env : Env) (bc : Blockchain) (tx : Transaction) : Prop where
  distinct : ∀ amount keyOffsets k, .toKey amount keyOffsets k ∈ tx.vin →
    (relativeOutputOffsetsToAbsolute keyOffsets).Nodup
  old : ∀ amount keyOffsets k, .toKey amount keyOffsets k ∈ tx.vin →
    ∀ i ∈ relativeOutputOffsetsToAbsolute keyOffsets, ∃ o,
      bc.db.getOutputKey? env amount
        (bulletproofFullForkHeight ≤ bc.getCurrentHardForkVersion) i = some o ∧
      o.height + defaultTxSpendableAge ≤ bc.db.height

/-- The condition on the offsets alone: no run of consecutive offsets after the first sums to zero
modulo `2 ^ 64`, and no index exceeds the last index of every ring of its amount. -/
structure OffsetsSound (tx : Transaction) : Prop where
  no_zero_run : ∀ amount keyOffsets k, .toKey amount keyOffsets k ∈ tx.vin →
    ∀ run : List UInt64, run ≠ [] → run <:+: keyOffsets.tail → run.sum ≠ 0
  le_last : ∀ amount keyOffsets k, .toKey amount keyOffsets k ∈ tx.vin →
    ∀ i ∈ relativeOutputOffsetsToAbsolute keyOffsets, ∃ keyOffsets' k',
      .toKey amount keyOffsets' k' ∈ tx.vin ∧
      ∃ last ∈ (relativeOutputOffsetsToAbsolute keyOffsets').getLast?, i ≤ last

/-- A pruned transaction is not checked, so it must have no ring to check. -/
def PrunedWithoutRings (tx : Transaction) : Prop :=
  tx.pruned = true → ∀ amount keyOffsets k, .toKey amount keyOffsets k ∈ tx.vin → keyOffsets = []

/-- What `check_tx_inputs_ring_members_diff` and `check_tx_inputs` accept at fork version 13 or
later. -/
structure AcceptsRings (env : Env) (bc : Blockchain) (tx : Transaction) : Prop where
  version : 13 ≤ bc.getCurrentHardForkVersion
  scanTable : ScanTableOk env bc tx
  membersDiff : checkTxInputsRingMembersDiff bc tx = true
  inputs : ∃ m, checkTxInputs env bc tx = .ok m

variable {env : Env} {bc : Blockchain} {tx : Transaction}

/-- In an accepted transaction every index of a ring is the index of an output, and the last one
of an output old enough. -/
theorem AcceptsRings.ring (hacc : AcceptsRings env bc tx) (hpruned : tx.pruned = false)
    {amount : UInt64} {keyOffsets : List UInt64} {k : KeyImage}
    (hin : .toKey amount keyOffsets k ∈ tx.vin) {i : UInt64}
    (hi : i ∈ relativeOutputOffsetsToAbsolute keyOffsets) :
    ∃ o, bc.db.getOutputKey? env amount
        (bulletproofFullForkHeight ≤ bc.getCurrentHardForkVersion) i = some o ∧
      ((relativeOutputOffsetsToAbsolute keyOffsets).getLast? = some i →
        o.height + defaultTxSpendableAge ≤ bc.db.height) := by
  obtain ⟨m, hm⟩ := hacc.inputs
  obtain ⟨-, pubkeys, -, hage, -⟩ := (checkTxInputs_ok_iff hpruned).mp hm
  obtain ⟨_, _, _, ring, height, heq, -, hring, hle⟩ := checkTxInputs_input hpruned hm hin
  obtain ⟨rfl, rfl, rfl⟩ := TxIn.toKey.inj heq
  obtain ⟨outputs, last, hmem, hlast, rfl⟩ := checkTxInput_members hacc.scanTable hin hring
  obtain ⟨-, -, o, ho, -⟩ := Lists.forall₂_exists_of_mem hmem hi
  refine ⟨o, ho, fun hilast => ?_⟩
  obtain ⟨p, hp, o', ho', hheight⟩ := Lists.forall₂_getLast? hmem hilast
  obtain rfl : last = p := Option.some.inj (hlast.symm.trans hp)
  obtain rfl : o = o' := Option.some.inj (ho.symm.trans ho')
  have := hacc.version
  unfold defaultTxSpendableAge
  omega

/-- Offsets that do not wrap or repeat give distinct members that are old enough. -/
theorem ringsDistinctAndOld_of_offsetsSound (hpruned : tx.pruned = false)
    (hacc : AcceptsRings env bc tx) (hs : OffsetsSound tx) : RingsDistinctAndOld env bc tx := by
  refine ⟨fun amount keyOffsets k hin => ?_, fun amount keyOffsets k hin i hi => ?_⟩
  · exact RunningSums.nodup_runningSums.mpr (hs.no_zero_run amount keyOffsets k hin)
  · -- the output at `i` is no younger than the last member of some ring of the same amount
    obtain ⟨o, ho, -⟩ := hacc.ring hpruned hin hi
    obtain ⟨keyOffsets', k', hin', last, hlast, hle⟩ := hs.le_last amount keyOffsets k hin i hi
    obtain ⟨p, hp, hold⟩ := hacc.ring hpruned hin' (mem_of_getLast? hlast)
    have := getOutputKey?_height_le hle ho hp
    have := hold hlast
    exact ⟨o, ho, by omega⟩

section Necessary

/-- The shelf on which index `i` of `amount` is the first young output, and every other amount has
old outputs only. -/
def oldShelf (tx : Transaction) (amount : UInt64) (i : UInt64) : List (UInt64 × ℕ) :=
  (amount, i.toNat) :: tx.vin.filterMap fun
    | .toKey a _ _ => if a = amount then none else some (a, 2 ^ 64)
    | _ => none

theorem shelfCount_oldShelf (tx : Transaction) (amount : UInt64) (i : UInt64) :
    shelfCount amount (oldShelf tx amount i) = i.toNat := by
  have hrest : (tx.vin.filterMap fun
      | .toKey a _ _ => if a = amount then none else some (a, 2 ^ 64)
      | _ => none).filter (·.1 = amount) = [] := by
    rw [filter_eq_nil_iff]
    intro x hx
    obtain ⟨txin, -, heq⟩ := mem_filterMap.mp hx
    split at heq
    · split_ifs at heq with ha
      cases heq
      simpa using ha
    · cases heq
  rw [shelfCount, oldShelf, filter_cons_of_pos (by simp), hrest]
  simp

theorem shelfCount_oldShelf_of_ne {amount a : UInt64} {i : UInt64} {keyOffsets : List UInt64}
    {k : KeyImage} (hne : a ≠ amount) (hin : .toKey a keyOffsets k ∈ tx.vin) :
    2 ^ 64 ≤ shelfCount a (oldShelf tx amount i) := by
  refine le_sum_of_mem (mem_map.mpr ⟨(a, 2 ^ 64), ?_, rfl⟩)
  refine mem_filter.mpr ⟨mem_cons_of_mem _ ?_, by simp⟩
  exact mem_filterMap.mpr ⟨_, hin, by simp [hne]⟩

variable (hacc : AcceptsRings env bc tx)

include hacc

/-- An accepted transaction with an index above the last index of every ring of its amount is also
accepted where that index is a young output. -/
theorem AcceptsRings.oldShelf (hpruned : tx.pruned = false) {amount i : UInt64}
    (hlast : ∀ keyOffsets k, .toKey amount keyOffsets k ∈ tx.vin →
      ∀ last ∈ (relativeOutputOffsetsToAbsolute keyOffsets).getLast?, last < i) :
    AcceptsRings (Env.accepting tx)
      (shelfChain bc.getCurrentHardForkVersion (oldShelf tx amount i) [(amount, 2 ^ 64)]) tx := by
  have hv := hacc.version
  have hdiff := hacc.membersDiff
  obtain ⟨m, hm⟩ := hacc.inputs
  obtain ⟨hshape, pubkeys, -, -, hver⟩ := (checkTxInputs_ok_iff hpruned).mp hm
  refine ⟨hv, fun _ _ _ _ _ h => by simp [Blockchain.scanEntry, shelfChain] at h,
    hdiff, 0,
    shelfChain_checkTxInputs hshape hpruned ?_ fun txin hin => ?_⟩
  · intro hnull
    simp [verInputProofsRings, hnull] at hver
  · obtain ⟨a, keyOffsets, k, -, -, rfl, hne, -⟩ := checkTxInputs_input hpruned hm hin
    have hnz : offsetsNonzero keyOffsets := by
      simp only [checkTxInputsRingMembersDiff, Bool.or_eq_true, decide_eq_true_eq,
        all_eq_true] at hdiff
      rcases hdiff with h | h
      · omega
      · exact h _ hin
    refine onShelf_iff.mpr ⟨a, keyOffsets, k, rfl, hne, hnz, fun j _ => ?_, fun j hj => ?_⟩
    · have := j.toNat_lt
      by_cases ha : a = amount
      · subst ha
        have : 2 ^ 64 ≤ shelfCount a [(a, 2 ^ 64)] := by simp [shelfCount]
        omega
      · have := shelfCount_oldShelf_of_ne (i := i) ha hin
        omega
    · by_cases ha : a = amount
      · subst ha
        rw [shelfCount_oldShelf]
        exact UInt64.lt_iff_toNat_lt.mp (hlast _ _ hin j hj)
      · have := shelfCount_oldShelf_of_ne (i := i) ha hin
        have := j.toNat_lt
        omega

/-- If it holds on every chain, the offsets are sound. -/
theorem offsetsSound_of_forall (hpruned : tx.pruned = false)
    (h : ∀ env bc, AcceptsRings env bc tx → RingsDistinctAndOld env bc tx) : OffsetsSound tx := by
  refine ⟨fun amount keyOffsets k hin => ?_, fun amount keyOffsets k hin i hi => ?_⟩
  · exact RunningSums.nodup_runningSums.mp ((h env bc hacc).distinct amount keyOffsets k hin)
  · by_contra hbad
    push Not at hbad
    have hyoung := h _ _ (hacc.oldShelf hpruned fun keyOffsets' k' hin' last hlast =>
      UInt64.not_le.mp fun hle => hbad keyOffsets' k' hin' last hlast hle)
    obtain ⟨o, ho, hage⟩ := hyoung.old amount keyOffsets k hin i hi
    rw [shelfChain_getOutputKey? (by
      have := i.toNat_lt
      have : 2 ^ 64 ≤ shelfCount amount [(amount, 2 ^ 64)] := by simp [shelfCount]
      omega)] at ho
    cases ho
    rw [shelfMember, shelfCount_oldShelf] at hage
    simp [shelfOutput, defaultTxSpendableAge] at hage

theorem prunedWithoutRings_of_forall
    (h : ∀ env bc, AcceptsRings env bc tx → RingsDistinctAndOld env bc tx) :
    PrunedWithoutRings tx := by
  intro hpruned amount keyOffsets k hin
  by_contra hne
  have hempty :
      AcceptsRings (Env.accepting tx) (shelfChain bc.getCurrentHardForkVersion [] []) tx :=
    ⟨hacc.version, fun _ _ _ _ _ h => by simp [Blockchain.scanEntry, shelfChain] at h,
      hacc.membersDiff, 0, by rw [checkTxInputs, hpruned]; rfl⟩
  have hne' : relativeOutputOffsetsToAbsolute keyOffsets ≠ [] := by
    simpa [relativeOutputOffsetsToAbsolute] using hne
  obtain ⟨o, ho, -⟩ := (h _ _ hempty).old amount keyOffsets k hin _
    (getLast_mem hne')
  simp [BlockchainDB.getOutputKey?, shelfChain_outputsOf, shelfCount] at ho

end Necessary

/-- For a transaction that some state accepts: its rings are distinct and old in every state that
accepts it exactly when its offsets are sound and it is not a pruned one with rings. -/
theorem ringsDistinctAndOld_iff_offsetsSound (tx : Transaction)
    (hacc : ∃ env bc, AcceptsRings env bc tx) :
    (∀ env bc, AcceptsRings env bc tx → RingsDistinctAndOld env bc tx) ↔
      PrunedWithoutRings tx ∧ OffsetsSound tx := by
  obtain ⟨env, bc, hacc⟩ := hacc
  cases hpruned : tx.pruned with
  | false =>
    exact ⟨fun h => ⟨prunedWithoutRings_of_forall hacc h, offsetsSound_of_forall hacc hpruned h⟩,
      fun h env bc hacc => ringsDistinctAndOld_of_offsetsSound hpruned hacc h.2⟩
  | true =>
    have hrings : PrunedWithoutRings tx → OffsetsSound tx ∧
        ∀ env bc, RingsDistinctAndOld env bc tx := by
      intro h
      have h := h hpruned
      refine ⟨⟨fun a l k hin => ?_, fun a l k hin => ?_⟩, fun env bc =>
        ⟨fun a l k hin => ?_, fun a l k hin => ?_⟩⟩ <;>
        simp +contextual [h a l k hin, relativeOutputOffsetsToAbsolute, RunningSums.runningSums]
    refine ⟨fun h => ?_, fun h env bc _ => (hrings h.1).2 env bc⟩
    have hp := prunedWithoutRings_of_forall hacc h
    exact ⟨hp, (hrings hp).1⟩

/-- One input with offsets `5, -1, 1, 15, -17` modulo `2 ^ 64`: the indices are `5, 4, 5, 20, 3`. -/
def wrappingTx : Transaction where
  version := 2
  unlockTime := 0
  vin := [.toKey 0 [5, 18446744073709551615, 1, 15, 18446744073709551599] 1]
  vout := []
  extra := []
  rctSignatures := ⟨.bulletproof2, 0, [], [], [], []⟩
  pruned := false

theorem wrappingTx_accepted :
    AcceptsRings (Env.accepting wrappingTx) (shelfChain 13 [(0, 16)] [(0, 16)]) wrappingTx where
  version := by simp
  scanTable := fun _ _ _ _ _ h => by simp [Blockchain.scanEntry, shelfChain] at h
  membersDiff := by decide
  inputs := by
    refine ⟨0, shelfChain_checkTxInputs ⟨by decide, by decide, by decide, by decide, by decide,
      by decide⟩ rfl (by decide) fun txin hin => ?_⟩
    obtain rfl : txin = _ := mem_singleton.mp hin
    decide

theorem ringsDistinctAndOld_iff_wrappingTx :
    (∃ env bc, AcceptsRings env bc wrappingTx) ∧
    ((∀ env bc, AcceptsRings env bc wrappingTx → RingsDistinctAndOld env bc wrappingTx) ↔
      PrunedWithoutRings wrappingTx ∧ OffsetsSound wrappingTx) :=
  ⟨⟨_, _, wrappingTx_accepted⟩,
    ringsDistinctAndOld_iff_offsetsSound wrappingTx ⟨_, _, wrappingTx_accepted⟩⟩

/-- The wrapping ring is accepted at fork version 13 with the index 5 twice and with the output 20
created in the block on top of the chain. -/
theorem wrappingTx_repeats_and_is_young :
    AcceptsRings (Env.accepting wrappingTx) (shelfChain 13 [(0, 16)] [(0, 16)]) wrappingTx ∧
    ¬(relativeOutputOffsetsToAbsolute
      [5, 18446744073709551615, 1, 15, 18446744073709551599]).Nodup ∧
    ¬RingsDistinctAndOld (Env.accepting wrappingTx) (shelfChain 13 [(0, 16)] [(0, 16)])
      wrappingTx := by
  have hdup : ¬(relativeOutputOffsetsToAbsolute
      [5, 18446744073709551615, 1, 15, 18446744073709551599]).Nodup := by decide
  exact ⟨wrappingTx_accepted, hdup, fun h => hdup (h.distinct _ _ _ mem_cons_self)⟩

/-- Absolute offsets come back in order, and relative ones unless they wrap around. -/
theorem outputOffsets_roundTrip (offsets : List UInt64) :
    relativeOutputOffsetsToAbsolute (absoluteOutputOffsetsToRelative offsets) =
        offsets.insertionSort (· ≤ ·) ∧
      (absoluteOutputOffsetsToRelative (relativeOutputOffsetsToAbsolute offsets) = offsets ↔
        (relativeOutputOffsetsToAbsolute offsets).Pairwise (· ≤ ·)) := by
  refine ⟨runningSums_differences _, fun h => ?_, fun h => ?_⟩
  · have hsorted := congrArg runningSums h
    rw [absoluteOutputOffsetsToRelative, runningSums_differences] at hsorted
    rw [relativeOutputOffsetsToAbsolute, ← hsorted]
    exact pairwise_insertionSort _ _
  · rw [absoluteOutputOffsetsToRelative, h.insertionSort_eq]
    exact differences_runningSums offsets

end Nerva
