import Mathlib.Data.List.Pairwise
import Nerva.Proofs.Timestamp

/-!
# The past rule against the last block

Taking the median sorts the vector of timestamps, so the element that is read as the top block's
timestamp is the largest of the window. The distance to it and the sum of the two middle timestamps
are taken in 64 bits. Each of the three differences has its own condition.
-/

namespace Nerva

open List BlockchainDB UInt64

/-- The mean of the two middle values, which are the same one when the number of values is odd. -/
def naturalMedian (v : List ℕ) : ℕ :=
  ((v.insertionSort (· ≤ ·)).getD ((v.length - 1) / 2) 0 +
    (v.insertionSort (· ≤ ·)).getD (v.length / 2) 0) / 2

def largestOf (v : List ℕ) : ℕ := v.foldr max 0

def BlockchainDB.topTimestamp (db : BlockchainDB) : ℕ :=
  (db.blocks.getLast?.map (·.bl.timestamp.toNat)).getD 0

/-- The timestamps of the window. -/
def Blockchain.recentTimestamps (bc : Blockchain) : List ℕ :=
  (bc.db.timestamps.drop
    (bc.db.height - timestampCheckWindow bc.getCurrentHardForkVersion)).map toNat

/-- Not more than the limit below the last block, and not below the median. -/
def Blockchain.MeetsPastRule (bc : Blockchain) (b : Block) : Prop :=
  bc.db.topTimestamp ≤ b.timestamp.toNat + 300 ∧
    naturalMedian bc.recentTimestamps ≤ b.timestamp.toNat

/-- The timestamp `t` meets none of the three cases in which the code's rule is another one. -/
structure PastRuleExact (t top : ℕ) (window : List ℕ) : Prop where
  /-- A block that the rule allows is not far below an earlier block of the window either. -/
  sorted : top ≤ t + 300 → naturalMedian window ≤ t → largestOf window ≤ t + 300
  /-- When all timestamps are below the limit, the subtraction wraps. -/
  small : largestOf window < 300 → naturalMedian window ≤ t → 2 ^ 64 + largestOf window ≤ t + 300
  /-- When the two middle timestamps overflow, their mean is too low by half the range. -/
  overflow : 2 ^ 63 ≤ naturalMedian window → largestOf window ≤ t + 300 → naturalMedian window ≤ t

section Window

variable {l : List UInt64} {v : List ℕ}

theorem toNat_getD_sortTimestamps (i : ℕ) :
    ((sortTimestamps l).getD i 0).toNat =
      ((l.map toNat).insertionSort (· ≤ ·)).getD i 0 := by
  rw [← map_insertionSort (· ≤ ·) _ _ _ fun _ _ _ _ => le_iff_toNat_le]
  exact (getD_map _ _ _).symm

theorem le_largestOf {x : ℕ} (h : x ∈ v) : x ≤ largestOf v := by
  induction v with
  | nil => cases h
  | cons a v ih =>
    rcases mem_cons.mp h with rfl | h
    · exact Nat.le_max_left _ _
    · exact (ih h).trans (Nat.le_max_right _ _)

theorem largestOf_mem (h : v ≠ []) : largestOf v ∈ v := by
  induction v with
  | nil => exact absurd rfl h
  | cons a v ih =>
    rcases eq_or_ne v [] with rfl | hv
    · simp [largestOf]
    · have hmax : largestOf (a :: v) = max a (largestOf v) := rfl
      rcases max_choice a (largestOf v) with heq | heq
      · rw [hmax, heq]
        exact mem_cons_self
      · rw [hmax, heq]
        exact mem_cons_of_mem _ (ih hv)

theorem toNat_getLast?_sortTimestamps {d : UInt64} (h : l ≠ []) :
    ((sortTimestamps l).getLast?.getD d).toNat = largestOf (l.map toNat) := by
  have hperm := perm_insertionSort (· ≤ ·) l
  have hne : sortTimestamps l ≠ [] := fun hnil => h (nil_perm.mp (hnil ▸ hperm))
  rw [getLast?_eq_some_getLast hne]
  refine Nat.le_antisymm (le_largestOf ?_) ?_
  · exact mem_map_of_mem (hperm.mem_iff.mp (getLast_mem hne))
  · obtain ⟨x, hx, hlargest⟩ := mem_map.mp
      (largestOf_mem (v := l.map toNat) (by simpa using h))
    rw [← hlargest]
    have hsorted : (sortTimestamps l).Pairwise (· ≤ ·) := pairwise_insertionSort _ _
    exact le_iff_toNat_le.mp (hsorted.rel_getLast (hperm.mem_iff.mpr hx))

/-- The median of the code, which wraps. -/
theorem toNat_median {k : ℕ} (hlength : l.length = 2 * (k + 1)) :
    ∃ a b, a ≤ largestOf (l.map toNat) ∧ b ≤ largestOf (l.map toNat) ∧
      naturalMedian (l.map toNat) = (a + b) / 2 ∧
      (median l).toNat = (a + b) % 2 ^ 64 / 2 := by
  have hindex : ∀ i, i < l.length →
      ((sortTimestamps l).getD i 0).toNat ≤ largestOf (l.map toNat) := by
    intro i hi
    have hperm := perm_insertionSort (· ≤ ·) l
    have hi' : i < (sortTimestamps l).length := by
      rw [sortTimestamps, hperm.length_eq]
      exact hi
    rw [getD_eq_getElem _ _ hi']
    exact le_largestOf (mem_map_of_mem (hperm.mem_iff.mp (getElem_mem hi')))
  refine ⟨((sortTimestamps l).getD k 0).toNat, ((sortTimestamps l).getD (k + 1) 0).toNat,
    hindex k (by omega), hindex (k + 1) (by omega), ?_, ?_⟩
  · have hlow : (2 * (k + 1) - 1) / 2 = k := by omega
    have hhigh : 2 * (k + 1) / 2 = k + 1 := by omega
    rw [naturalMedian, length_map, hlength, hlow, hhigh, ← toNat_getD_sortTimestamps,
      ← toNat_getD_sortTimestamps]
  · have hhalf : 2 * (k + 1) / 2 = k + 1 := by omega
    have heven : ¬2 * (k + 1) % 2 = 1 := by omega
    unfold median
    rw [hlength, if_neg (by omega), hhalf]
    rw [if_neg heven, UInt64.toNat_div]
    rfl

end Window

section Rule

variable {env : Env} {bc : Blockchain} {b : Block} {l : List UInt64} {version : ℕ}

theorem not_lt_sub_limit_iff (t x : UInt64) :
    ¬t < x - futureTimeLimitV6 ↔
      (300 ≤ x.toNat ∧ x.toNat ≤ t.toNat + 300) ∨
        (x.toNat < 300 ∧ 2 ^ 64 + x.toNat ≤ t.toNat + 300) := by
  have hlimit : futureTimeLimitV6.toNat = 300 := rfl
  have hx := x.toNat_lt
  rw [UInt64.lt_iff_toNat_lt, UInt64.toNat_sub]
  omega

theorem checkTimestamps_iff (hversion : 5 < version) :
    checkTimestamps version l b = true ↔
      ¬b.timestamp < (sortTimestamps l).getLast?.getD b.timestamp - futureTimeLimitV6 ∧
        ¬b.timestamp < median l := by
  unfold checkTimestamps
  simp only [hversion, true_and]
  split_ifs with h
  · simp [h]
  · simp [h]

/-- When the code's check is the rule over natural numbers. -/
theorem checkTimestamps_exact_iff {k top : ℕ} (hversion : 5 < version)
    (hlength : l.length = 2 * (k + 1)) (htop : top ≤ largestOf (l.map toNat)) :
    (checkTimestamps version l b = true ↔
        top ≤ b.timestamp.toNat + 300 ∧
          naturalMedian (l.map toNat) ≤ b.timestamp.toNat) ↔
      PastRuleExact b.timestamp.toNat top (l.map toNat) := by
  have hne : l ≠ [] := by
    rintro rfl
    simp at hlength
  obtain ⟨x, y, hx, hy, hnatural, hmedian⟩ := toNat_median hlength
  have hlast := toNat_getLast?_sortTimestamps (d := b.timestamp) hne
  rw [checkTimestamps_iff hversion, not_lt_sub_limit_iff, lt_iff_toNat_lt]
  constructor
  · intro h
    refine ⟨?_, ?_, ?_⟩ <;> rw [hnatural] <;> omega
  · rintro ⟨hsorted, hsmall, hoverflow⟩
    omega

theorem Blockchain.topTimestamp_le_largestOf
    (hheight : timestampCheckWindow bc.getCurrentHardForkVersion ≤ bc.db.height) :
    bc.db.topTimestamp ≤ largestOf bc.recentTimestamps := by
  have hwindow : 0 < timestampCheckWindow bc.getCurrentHardForkVersion := by
    unfold timestampCheckWindow
    split_ifs <;> decide
  unfold topTimestamp
  cases hlast : bc.db.blocks.getLast? with
  | none => exact Nat.zero_le _
  | some info =>
    refine le_largestOf (mem_map_of_mem ?_)
    have hmem : bc.db.timestamps.getLast? = some info.bl.timestamp := by
      rw [timestamps, getLast?_map, hlast, Option.map_some]
    have hdrop : (bc.db.timestamps.drop (bc.db.height -
        timestampCheckWindow bc.getCurrentHardForkVersion)).getLast? = some info.bl.timestamp := by
      rw [getLast?_drop, if_neg, hmem]
      rw [timestamps, length_map, ← height]
      omega
    exact mem_of_getLast? hdrop

/-- A block within the future limit is accepted exactly when it meets the rule, if and only if its
timestamp is in none of the three cases. -/
theorem checkBlockTimestamp_meetsPastRule_iff (env : Env) (bc : Blockchain) (b : Block)
    (hversion : 5 < bc.getCurrentHardForkVersion)
    (hheight : timestampCheckWindow bc.getCurrentHardForkVersion ≤ bc.db.height)
    (hfuture : b.timestamp ≤ env.now + futureTimeLimit bc.getCurrentHardForkVersion) :
    (bc.checkBlockTimestamp env b = true ↔ bc.MeetsPastRule b) ↔
      PastRuleExact b.timestamp.toNat bc.db.topTimestamp bc.recentTimestamps := by
  have hwindow : timestampCheckWindow bc.getCurrentHardForkVersion = 2 * (5 + 1) := by
    unfold timestampCheckWindow
    rw [if_neg (by omega)]
  have hlength : (bc.db.timestamps.drop (bc.db.height -
      timestampCheckWindow bc.getCurrentHardForkVersion)).length = 2 * (5 + 1) := by
    rw [length_drop, timestamps, length_map, ← height]
    omega
  rw [bc.checkBlockTimestamp_eq, if_neg (UInt64.not_lt.mpr hfuture),
    if_neg (not_lt.mpr hheight)]
  exact checkTimestamps_exact_iff hversion hlength (Blockchain.topTimestamp_le_largestOf hheight)

end Rule

/-- The block below the last one is 250 seconds later than it, which the rule allowed. -/
def steppedBack : Blockchain :=
  stampedChain ForkTable.testnet 20 (replicate 18 1000 ++ [1500, 1250])

theorem checkBlockTimestamp_meetsPastRule_iff_steppedBack :
    (steppedBack.checkBlockTimestamp stampedEnv (stampedBlock 1200) = true ↔
        steppedBack.MeetsPastRule (stampedBlock 1200)) ↔
      PastRuleExact 1200 1250 (replicate 10 1000 ++ [1500, 1250]) := by
  have h := checkBlockTimestamp_meetsPastRule_iff stampedEnv steppedBack (stampedBlock 1200)
    (by decide) (by decide) (by decide)
  exact h

/-- A hundred seconds below the last block is refused, for the sake of the block below that one. -/
theorem steppedBack_refuses :
    5 < steppedBack.getCurrentHardForkVersion ∧
    timestampCheckWindow steppedBack.getCurrentHardForkVersion ≤ steppedBack.db.height ∧
    (stampedBlock 1150).timestamp ≤
      stampedEnv.now + futureTimeLimit steppedBack.getCurrentHardForkVersion ∧
    steppedBack.MeetsPastRule (stampedBlock 1150) ∧
    steppedBack.checkBlockTimestamp stampedEnv (stampedBlock 1150) = false := by
  refine ⟨by decide, by decide, by decide, ?_, by decide⟩
  exact ⟨by decide, by decide⟩

end Nerva
