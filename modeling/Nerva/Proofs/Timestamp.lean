import Nerva.Timestamp
import Nerva.Lib.Sorting
import Nerva.Proofs.DifficultyCache

/-!
# Timestamps on alternative chains

On the main chain the rule looks at a window of the last blocks. On an alternative chain it looks at
all alternative blocks when they fill the window, and never at genesis; the window and the rule
itself follow the main chain's current version.
-/

namespace Nerva

open List Sorting BlockchainDB

theorem median_eq_of_perm {l₁ l₂ : List UInt64} (h : l₁.Perm l₂) : median l₁ = median l₂ := by
  match l₁, h with
  | [], h => rw [nil_perm.mp h]
  | [a], h => rw [singleton_perm.mp h]
  | a :: b :: rest, h =>
    have hlen := h.length_eq
    have hsort : sortTimestamps (a :: b :: rest) = sortTimestamps l₂ :=
      insertionSort_eq_of_perm _ h
    have hlong : ¬l₂.length ≤ 1 := by
      rw [← hlen]
      simp
    unfold median
    rw [hsort, hlen, if_neg hlong, if_neg hlong]

/-- The check does not depend on the order of the timestamps. -/
theorem checkTimestamps_eq_of_perm {l₁ l₂ : List UInt64} (h : l₁.Perm l₂) (version : ℕ)
    (b : Block) : checkTimestamps version l₁ b = checkTimestamps version l₂ b := by
  have hsort : sortTimestamps l₁ = sortTimestamps l₂ := insertionSort_eq_of_perm _ h
  unfold checkTimestamps
  rw [hsort, median_eq_of_perm h]

/-- The number of timestamps an alternative block is checked against: `m` alternative blocks above
`split` common ones, with the given window. -/
def altCount (window split m : ℕ) : ℕ := if window ≤ m then m else min window (split + m - 1)

/-- The timestamps of the chain, from the genesis block. -/
def BlockchainDB.timestamps (db : BlockchainDB) : List UInt64 := db.blocks.map (·.bl.timestamp)

/-- Where a branch leaves the main chain. -/
def parentId (prevId : Hash) (alt : List AltBlock) : Hash :=
  (alt.head?.map (·.bl.prevId)).getD prevId

/-- `alt` is the alternative chain below a block with parent `prevId`: it leaves the main chain of
`bc` at height `split`, and `bc'` has the common blocks and `alt` as its main chain. -/
structure OnAltChain (env : Env) (bc bc' : Blockchain) (prevId : Hash) (split : ℕ)
    (alt : List AltBlock) (timestamps : List UInt64) : Prop where
  built : buildAltChain env bc prevId = some (alt, timestamps)
  parent : bc.db.getBlockHeight env (parentId prevId alt) = some (split - 1)
  blocks : bc'.db.timestamps = bc.db.timestamps.take split ++ alt.map (·.bl.timestamp)
  sync : bc.hardfork.InSync bc.db.height
  sync' : bc'.hardfork.InSync bc'.db.height

theorem buildAltChain_timestamps {env : Env} {bc : Blockchain} {prevId : Hash}
    {alt : List AltBlock} {timestamps : List UInt64} {parent : ℕ}
    (h : buildAltChain env bc prevId = some (alt, timestamps))
    (hparent : bc.db.getBlockHeight env (parentId prevId alt) = some parent) :
    timestamps = completeTimestampsVector bc parent (alt.map (·.bl.timestamp)).reverse := by
  unfold buildAltChain at h
  simp only [] at h
  split at h
  · rename_i front hfront
    split at h
    · cases h
    · split at h
      · cases h
      · rename_i p hp
        split at h
        · simp only [Option.some.injEq] at h
          obtain ⟨rfl, rfl⟩ := h
          rw [parentId, hfront] at hparent
          obtain rfl := Option.some.inj (hp.symm.trans hparent)
          rfl
        · cases h
  · rename_i hnil
    rw [head?_eq_none_iff] at hnil
    rw [Option.map_eq_some_iff] at h
    obtain ⟨p, hp, h⟩ := h
    obtain ⟨rfl, rfl⟩ := h
    obtain rfl := Option.some.inj (hp.symm.trans hparent)
    rw [hnil]

theorem BlockchainDB.map_range (db : BlockchainDB) (a b : ℕ) :
    (db.range a b).map (·.bl.timestamp) = (db.timestamps.take b).drop a := by
  rw [range, BlockchainDB.timestamps, map_drop, map_take]

theorem le_timestampCheckWindow (version : ℕ) :
    timestampCheckWindow version = 12 ∨ timestampCheckWindow version = 60 := by
  unfold timestampCheckWindow
  split
  · exact .inr rfl
  · exact .inl rfl

section Window

variable {env : Env} {bc bc' : Blockchain} {prevId : Hash} {split : ℕ} {alt : List AltBlock}
  {timestamps : List UInt64}

section

variable (h : OnAltChain env bc bc' prevId split alt timestamps)

include h

theorem OnAltChain.height (hlt : split < bc.db.height) : bc'.db.height = split + alt.length := by
  have hlen := congrArg length h.blocks
  simp only [BlockchainDB.timestamps, length_append, length_take, length_map] at hlen
  simp only [BlockchainDB.height] at hlt ⊢
  omega

/-- The timestamps gathered on a branch are the last ones of the chain it makes. -/
theorem OnAltChain.timestamps_eq (hpos : 1 ≤ split) (hlt : split < bc.db.height) :
    timestamps.reverse = bc'.db.timestamps.drop (split + alt.length -
      altCount (timestampCheckWindow bc.getCurrentHardForkVersion) split alt.length) := by
  have hsplit : (bc.db.timestamps.take split).length = split := by
    rw [length_take, BlockchainDB.timestamps, length_map]
    exact Nat.min_eq_left (Nat.le_of_lt hlt)
  rw [buildAltChain_timestamps h.built h.parent, h.blocks, drop_append, hsplit,
    completeTimestampsVector]
  simp only [length_reverse, length_map]
  generalize timestampCheckWindow bc.getCurrentHardForkVersion = window
  by_cases hfull : window ≤ alt.length
  · have hcount : altCount window split alt.length = alt.length := if_pos hfull
    rw [if_pos (.inl hfull), reverse_reverse, hcount, Nat.add_sub_cancel,
      drop_eq_nil_of_le (Nat.le_of_eq hsplit), Nat.sub_self, drop_zero, nil_append]
  · have hcount : altCount window split alt.length = min window (split + alt.length - 1) :=
      if_neg hfull
    rw [if_neg (by omega), reverse_append, reverse_reverse, reverse_reverse,
      map_range, Nat.sub_add_cancel hpos, hcount]
    have hstart : (if window - alt.length < split - 1 then split - 1 - (window - alt.length) else 0)
        + 1 = split + alt.length - min window (split + alt.length - 1) := by
      split_ifs <;> omega
    have hdrop : split + alt.length - min window (split + alt.length - 1) - split = 0 := by omega
    rw [hstart, hdrop, drop_zero]

/-- The check of a block on a branch, in terms of the chain it makes. -/
theorem OnAltChain.altCheck (hpos : 1 ≤ split) (hlt : split < bc.db.height) (b : Block) :
    checkTimestamps bc.getCurrentHardForkVersion timestamps b =
      checkTimestamps bc.getCurrentHardForkVersion (bc'.db.timestamps.drop (split + alt.length -
        altCount (timestampCheckWindow bc.getCurrentHardForkVersion) split alt.length)) b := by
  rw [← h.timestamps_eq hpos hlt]
  exact checkTimestamps_eq_of_perm timestamps.reverse_perm.symm _ _

end

theorem Blockchain.checkBlockTimestamp_eq (env : Env) (bc : Blockchain) (b : Block) :
    bc.checkBlockTimestamp env b =
      if env.now + futureTimeLimit bc.getCurrentHardForkVersion < b.timestamp then false
      else if bc.db.height < timestampCheckWindow bc.getCurrentHardForkVersion then true
      else checkTimestamps bc.getCurrentHardForkVersion (bc.db.timestamps.drop
        (bc.db.height - timestampCheckWindow bc.getCurrentHardForkVersion)) b := by
  unfold Blockchain.checkBlockTimestamp
  simp only []
  have htake : bc.db.timestamps.take bc.db.height = bc.db.timestamps :=
    take_of_length_le (by simp [BlockchainDB.timestamps, BlockchainDB.height])
  rw [map_range, htake]

end Window

section Stamped

variable (t : ForkTable) (height split : ℕ) (T : List UInt64) {m : ℕ}

def stampedInfo (i : ℕ) : BlockInfo :=
  { timedBlock 0 0 with bl := numberedBlock 1 (T.getD i 0) i i }

/-- A chain with given timestamps, at a height of a fork table. -/
def stampedChain : Blockchain where
  db := { blocks := (List.range height).map (stampedInfo T) }
  hardfork := { heights := t, currentForkIndex := t.indexAt height }

def stampedId (j : ℕ) : Hash := if j = 0 then split else height + j

def stampedAlt (j : ℕ) : AltBlock :=
  ⟨numberedBlock 1 (T.getD (split + j) 0) (stampedId height split j) (height + j),
    split + j, 0, 0, 0⟩

/-- A chain with a branch that has given timestamps. -/
def stampedFork (m : ℕ) : Blockchain :=
  { stampedChain t height T with
    db := { (stampedChain t height T).db with
      altBlocks := (List.range m).map fun j => (height + j + 1, stampedAlt height split T j) } }

def stampedEnv : Env := { nonceEnv with now := 2000 }

variable {t height split T}

theorem stampedChain_height : (stampedChain t height T).db.height = height := by
  simp [stampedChain, BlockchainDB.height]

theorem stampedFork_height (m : ℕ) : (stampedFork t height split T m).db.height = height := by
  simp [stampedFork, stampedChain, BlockchainDB.height]

theorem stampedChain_timestamps :
    (stampedChain t height T).db.timestamps = (List.range height).map fun i => T.getD i 0 := by
  simp only [stampedChain, BlockchainDB.timestamps, map_map]
  rfl

theorem stampedFork_getAltBlock {k : ℕ} (hk : k < m) :
    (stampedFork t height split T m).db.getAltBlock (height + k + 1) =
      some (stampedAlt height split T k) := by
  simp only [getAltBlock, stampedFork]
  induction m with
  | zero => exact absurd hk (Nat.not_lt_zero _)
  | succ m ih =>
    rw [range_succ, map_append, lookup_append]
    rcases Nat.lt_succ_iff_lt_or_eq.mp hk with hlt | rfl
    · rw [ih hlt, Option.some_or]
    · have hnone :
          ((List.range k).map fun j => (height + j + 1, stampedAlt height split T j)).lookup
          (height + k + 1) = none := by
        rw [lookup_eq_none_iff]
        simp only [mem_map, mem_range]
        rintro _ ⟨j, hj, rfl⟩
        exact bne_iff_ne.mpr (Nat.ne_of_gt (Nat.succ_lt_succ (Nat.add_lt_add_left hj height)))
      rw [hnone]
      simp

theorem stampedFork_getAltBlock_split (hlt : split < height) :
    (stampedFork t height split T m).db.getAltBlock split = none := by
  simp only [getAltBlock, stampedFork, lookup_eq_none_iff, mem_map]
  rintro _ ⟨j, hj, rfl⟩
  exact bne_iff_ne.mpr (Nat.ne_of_lt (Nat.lt_of_lt_of_le hlt (Nat.le_add_right height (j + 1))))

theorem stampedFork_walk (hlt : split < height) : ∀ (k fuel : ℕ), k ≤ m → k ≤ fuel →
    (stampedFork t height split T m).db.walkAltBlocks fuel (stampedId height split k) =
      (List.range k).map (stampedAlt height split T)
  | 0, 0, _, _ => rfl
  | 0, fuel + 1, _, _ => by
    rw [walkAltBlocks, stampedId, if_pos rfl, stampedFork_getAltBlock_split hlt]
    rfl
  | k + 1, fuel + 1, hm, hfuel => by
    rw [walkAltBlocks, stampedId, if_neg (Nat.succ_ne_zero k), ← Nat.add_assoc,
      stampedFork_getAltBlock hm, range_succ, map_append,
      ← stampedFork_walk hlt k fuel (Nat.le_of_succ_le hm) (Nat.le_of_succ_le_succ hfuel)]
    rfl

theorem stampedFork_getBlockHeight (hpos : 1 ≤ split) (hlt : split < height) (m : ℕ) :
    (stampedFork t height split T m).db.getBlockHeight stampedEnv split = some (split - 1) := by
  simp only [getBlockHeight, stampedFork, stampedChain]
  rw [findIdx?_eq_some_iff_getElem]
  simp only [length_map, List.length_range, getElem_map, getElem_range, decide_eq_true_eq]
  exact ⟨Nat.lt_of_le_of_lt (Nat.sub_le _ _) hlt, Nat.sub_add_cancel hpos,
    fun j hj heq => Nat.lt_irrefl j (Nat.lt_of_lt_of_eq hj (Nat.sub_eq_of_eq_add heq.symm))⟩

theorem stampedFork_parentId (m : ℕ) :
    parentId (stampedId height split m) ((List.range m).map (stampedAlt height split T)) =
      split := by
  cases m with
  | zero => rfl
  | succ m =>
    rw [range_succ_eq_map]
    rfl

theorem stampedFork_getBlockHash (hpos : 1 ≤ split) (hlt : split < height) (m : ℕ) :
    (stampedFork t height split T m).db.getBlockHashFromHeight stampedEnv (split - 1) =
      some split := by
  have hsub : split - 1 < height := Nat.lt_of_le_of_lt (Nat.sub_le _ _) hlt
  simp only [getBlockHashFromHeight, stampedFork, stampedChain, getElem?_map,
    getElem?_range hsub, Option.map_some, Option.some.injEq]
  exact Nat.sub_add_cancel hpos

theorem stampedFork_built (hpos : 1 ≤ split) (hlt : split < height) (m : ℕ) :
    buildAltChain stampedEnv (stampedFork t height split T m) (stampedId height split m) =
      some ((List.range m).map (stampedAlt height split T),
        completeTimestampsVector (stampedFork t height split T m) (split - 1)
          (((List.range m).map (stampedAlt height split T)).map (·.bl.timestamp)).reverse) := by
  have hwalk := stampedFork_walk (t := t) (T := T) hlt m m (Nat.le_refl m) (Nat.le_refl m)
  have hfuel : (stampedFork t height split T m).db.altBlocks.length = m := by
    simp [stampedFork]
  unfold buildAltChain
  simp only [hfuel, hwalk]
  cases m with
  | zero =>
    rw [stampedId, if_pos rfl, stampedFork_getBlockHeight hpos hlt]
    rfl
  | succ m =>
    have hhead : ((List.range (m + 1)).map (stampedAlt height split T)).head? =
        some (stampedAlt height split T 0) := by
      rw [range_succ_eq_map]
      rfl
    have hprev : (stampedAlt height split T 0).bl.prevId = split := rfl
    have hfront : (stampedAlt height split T 0).height = split := rfl
    simp only [hhead, hprev, hfront, stampedFork_height, if_neg (Nat.not_le.mpr hlt),
      stampedFork_getBlockHeight hpos hlt, stampedFork_getBlockHash hpos hlt, if_true]

/-- The branch is found with all its blocks. -/
theorem stampedFork_onAltChain (hpos : 1 ≤ split) (hlt : split < height) (m : ℕ) :
    ∃ timestamps, OnAltChain stampedEnv (stampedFork t height split T m)
      (stampedChain t (split + m) T) (stampedId height split m) split
      ((List.range m).map (stampedAlt height split T)) timestamps := by
  refine ⟨_, stampedFork_built hpos hlt m, ?_, ?_, ?_, ?_⟩
  · rw [stampedFork_parentId, stampedFork_getBlockHeight hpos hlt]
  · have hmain : (stampedFork t height split T m).db.timestamps =
        (stampedChain t height T).db.timestamps := rfl
    rw [hmain, stampedChain_timestamps, stampedChain_timestamps, ← map_take, take_range,
      Nat.min_eq_left (Nat.le_of_lt hlt), range_add, map_append, map_map,
      map_map]
    rfl
  · rw [stampedFork_height]
    rfl
  · rw [stampedChain_height]
    rfl

end Stamped

/-- An alternative block that is not in the future is accepted on the alternative chain exactly when
it would be on the same blocks as main chain. -/
def TimestampRulesAgree (t : ForkTable) (height split m : ℕ) : Prop :=
  ∀ (env : Env) (bc bc' : Blockchain) (prevId : Hash) (alt : List AltBlock)
    (timestamps : List UInt64) (b : Block),
    OnAltChain env bc bc' prevId split alt timestamps →
    bc.hardfork.heights = t → bc'.hardfork.heights = t → bc.db.height = height → alt.length = m →
    b.timestamp ≤ env.now + futureTimeLimit bc'.getCurrentHardForkVersion →
    (checkTimestamps bc.getCurrentHardForkVersion timestamps b = true ↔
      bc'.checkBlockTimestamp env b = true)

/-- Under the main chain's version `v` and the alternative chain's version `v'` a block above `m`
alternative blocks is checked against the same timestamps, or against none. -/
def SameTimestampRule (v v' split m : ℕ) : Prop :=
  (split + m = 1 ∧ v ≤ 5) ∨
    (timestampCheckWindow v' ≤ split + m ∧
      altCount (timestampCheckWindow v) split m = timestampCheckWindow v' ∧ (5 < v ↔ 5 < v'))

variable {height m split L a v k : ℕ} {t : ForkTable}

/-- If the windows have the same size and the rules are those of one version, blocks are treated
alike. -/
theorem timestampRulesAgree_of_same (hpos : 1 ≤ split) (hlt : split < height)
    (h : SameTimestampRule (t.versionAt height) (t.versionAt (split + m)) split m) :
    TimestampRulesAgree t height split m := by
  rintro env bc bc' prevId alt timestamps b hon rfl ht rfl rfl hfuture
  have hv : bc.getCurrentHardForkVersion = bc.hardfork.heights.versionAt bc.db.height :=
    hon.sync.version
  have hv' : bc'.getCurrentHardForkVersion =
      bc.hardfork.heights.versionAt (split + alt.length) := by
    rw [Blockchain.getCurrentHardForkVersion, hon.sync'.version, ht, hon.height hlt]
  rw [hon.altCheck hpos hlt, Blockchain.checkBlockTimestamp_eq, if_neg (UInt64.not_lt.mpr hfuture),
    hon.height hlt]
  rw [← hv, ← hv'] at h
  rcases h with ⟨hone, hold⟩ | ⟨hwindow, hcount, hrule⟩
  · have hnone :
        altCount (timestampCheckWindow bc.getCurrentHardForkVersion) split alt.length = 0 := by
      unfold altCount
      rcases le_timestampCheckWindow bc.getCurrentHardForkVersion with hw | hw <;> rw [hw] <;>
        split_ifs <;> omega
    have hlow : split + alt.length < timestampCheckWindow bc'.getCurrentHardForkVersion := by
      rcases le_timestampCheckWindow bc'.getCurrentHardForkVersion with hw | hw <;> omega
    have hnil : bc'.db.timestamps.drop (split + alt.length) = [] := by
      refine drop_eq_nil_of_le ?_
      rw [← hon.height hlt, BlockchainDB.timestamps, length_map]
      exact le_rfl
    rw [hnone, Nat.sub_zero, hnil, if_pos hlow, checkTimestamps, if_neg (by omega)]
    simp [median]
  · rw [hcount, if_neg (not_lt.mpr hwindow)]
    unfold checkTimestamps
    simp only [hrule]

theorem checkTimestamps_of_lt_median {version : ℕ} {l : List UInt64} {b : Block}
    (h : b.timestamp < median l) : checkTimestamps version l b = false := by
  unfold checkTimestamps
  simp only []
  split_ifs
  · rfl
  · simpa using h

section TwoValues

variable {lo hi : UInt64} {l : List UInt64} (hlt : lo < hi) (hl : ∀ a ∈ l, a = lo ∨ a = hi)

include hlt hl

theorem sortTimestamps_of_two_values :
    sortTimestamps l = replicate (l.count lo) lo ++ replicate (l.count hi) hi :=
  insertionSort_of_two_values _ (UInt64.le_of_lt hlt) (UInt64.ne_of_lt hlt) hl

theorem length_eq_count_add_count : l.length = l.count lo + l.count hi := by
  have hlen : (sortTimestamps l).length = l.length := length_insertionSort _ l
  rw [← hlen, sortTimestamps_of_two_values hlt hl, length_append, length_replicate,
    length_replicate]

/-- The median of two values where one has the majority. -/
theorem median_of_majority (hhalf : (hi + hi) / 2 = hi) (hcount : 2 * l.count lo < l.length) :
    median l = hi := by
  have hlen := length_eq_count_add_count hlt hl
  unfold median
  simp only []
  split_ifs with hshort hodd
  · obtain ⟨a, rfl⟩ : ∃ a, l = [a] := length_eq_one_iff.mp (by omega)
    rcases hl a (mem_singleton_self a) with rfl | rfl
    · simp at hcount
    · rfl
  · rw [sortTimestamps_of_two_values hlt hl, getD_replicate_append_right] <;> omega
  · rw [sortTimestamps_of_two_values hlt hl, getD_replicate_append_right,
      getD_replicate_append_right] <;> omega

/-- The median of two values that are equally frequent. -/
theorem median_of_half (hcount : 2 * l.count lo = l.length) (hne : l.length ≠ 0) :
    median l = (lo + hi) / 2 := by
  have hlen := length_eq_count_add_count hlt hl
  unfold median
  rw [if_neg (by omega), sortTimestamps_of_two_values hlt hl]
  rw [if_neg (by omega), getD_replicate_append_left, getD_replicate_append_right] <;>
    omega

theorem getLast?_sortTimestamps (hcount : l.count hi ≠ 0) :
    (sortTimestamps l).getLast? = some hi := by
  obtain ⟨n, hn⟩ := Nat.exists_eq_succ_of_ne_zero hcount
  rw [sortTimestamps_of_two_values hlt hl, hn, replicate_succ', ← append_assoc,
    getLast?_append, getLast?_singleton, Option.some_or]

end TwoValues

def stampedBlock (timestamp : UInt64) : Block := numberedBlock 1 timestamp 0 0

theorem TimestampRulesAgree.stamped (hpos : 1 ≤ split) (hlt : split < height)
    (h : TimestampRulesAgree t height split m) {T : List UInt64} (hT : T.length = split + m)
    (timestamp : UInt64) (hnow : timestamp ≤ 2000) :
    checkTimestamps (t.versionAt height) (T.drop (split + m -
        altCount (timestampCheckWindow (t.versionAt height)) split m))
          (stampedBlock timestamp) = true ↔
      (split + m < timestampCheckWindow (t.versionAt (split + m)) ∨
        checkTimestamps (t.versionAt (split + m))
          (T.drop (split + m - timestampCheckWindow (t.versionAt (split + m))))
          (stampedBlock timestamp) = true) := by
  obtain ⟨timestamps, hon⟩ := stampedFork_onAltChain (t := t) (T := T) hpos hlt m
  have hheight : split < (stampedFork t height split T m).db.height := by
    rw [stampedFork_height]
    exact hlt
  have hfuture : (stampedBlock timestamp).timestamp ≤
      stampedEnv.now +
        futureTimeLimit (stampedChain t (split + m) T).getCurrentHardForkVersion := by
    refine UInt64.le_trans hnow ?_
    unfold futureTimeLimit
    split_ifs <;> decide
  have hagree := h stampedEnv _ _ _ _ timestamps (stampedBlock timestamp) hon rfl rfl
    (stampedFork_height m) (by simp) hfuture
  have hv : (stampedFork t height split T m).getCurrentHardForkVersion = t.versionAt height := rfl
  have hv' : (stampedChain t (split + m) T).getCurrentHardForkVersion = t.versionAt (split + m) :=
    rfl
  have hstamps : (stampedChain t (split + m) T).db.timestamps = T := by
    rw [stampedChain_timestamps, ← hT]
    refine ext_getElem (by simp) fun i h₁ h₂ => ?_
    rw [getElem_map, getElem_range, getD_eq_getElem _ _ h₂]
  rw [hon.altCheck hpos hheight, Blockchain.checkBlockTimestamp_eq,
    if_neg (UInt64.not_lt.mpr hfuture), hstamps, hv, hv', stampedChain_height, length_map,
    List.length_range] at hagree
  rw [hagree]
  split_ifs with hlow <;> simp [hlow]

theorem checkTimestamps_zero (ha : a ≤ L) (h : a ≠ 0 ∨ 5 < v) :
    checkTimestamps v ((replicate L 1000).drop (L - a)) (stampedBlock 0) = false := by
  rw [drop_replicate, Nat.sub_sub_self ha]
  rcases Nat.eq_zero_or_pos a with rfl | hpos
  · have hv : 5 < v := h.resolve_left (fun hne => hne rfl)
    unfold checkTimestamps
    rw [if_pos ⟨hv, by decide⟩]
  · refine checkTimestamps_of_lt_median ?_
    have hmajority : 2 * (replicate a (1000 : UInt64)).count 999 <
        (replicate a (1000 : UInt64)).length := by
      rw [count_replicate, length_replicate]
      exact hpos
    rw [median_of_majority (by decide) (fun x hx => .inr (eq_of_mem_replicate hx)) (by decide)
      hmajority]
    decide

/-- Timestamps whose last window is half low and half high. -/
def halfLow (L k : ℕ) : List UInt64 :=
  replicate (L - 2 * k) 1002 ++ replicate k 1000 ++ replicate k 1002

theorem mem_halfLow {n : ℕ} : ∀ x ∈ (halfLow L k).drop n, x = 1000 ∨ x = 1002 := by
  intro x hx
  have hmem := mem_of_mem_drop hx
  simp only [halfLow, mem_append, mem_replicate] at hmem
  rcases hmem with (⟨-, rfl⟩ | ⟨-, rfl⟩) | ⟨-, rfl⟩ <;> simp

section

variable (hk : 2 * k ≤ L)

include hk

theorem count_halfLow : ((halfLow L k).drop (L - a)).count 1000 = k - (2 * k - a) := by
  simp only [halfLow, drop_append, drop_replicate, count_append,
    length_replicate, count_replicate_self]
  rw [count_replicate, count_replicate, if_neg (by decide), if_neg (by decide)]
  omega

theorem length_halfLow (ha : a ≤ L) : ((halfLow L k).drop (L - a)).length = a := by
  simp only [halfLow, length_drop, length_append, length_replicate]
  omega

theorem checkTimestamps_halfLow_of_ne (ha : a ≤ L) (hpos : a ≠ 0) (hne : a ≠ 2 * k) :
    checkTimestamps v ((halfLow L k).drop (L - a)) (stampedBlock 1001) = false := by
  refine checkTimestamps_of_lt_median ?_
  have hmajority : 2 * ((halfLow L k).drop (L - a)).count 1000 <
      ((halfLow L k).drop (L - a)).length := by
    rw [count_halfLow hk, length_halfLow hk ha]
    omega
  rw [median_of_majority (by decide) mem_halfLow (by decide) hmajority]
  decide

theorem checkTimestamps_halfLow (hpos : k ≠ 0) :
    checkTimestamps v ((halfLow L k).drop (L - 2 * k)) (stampedBlock 1001) = true := by
  have hcount := count_halfLow (a := 2 * k) hk
  have hlen := length_halfLow hk hk
  have hmedian : median ((halfLow L k).drop (L - 2 * k)) = 1001 :=
    median_of_half (by decide) mem_halfLow (by omega) (by omega)
  have hsum :=
    length_eq_count_add_count (by decide) (mem_halfLow (L := L) (k := k) (n := L - 2 * k))
  have htop := getLast?_sortTimestamps (by decide)
    (mem_halfLow (L := L) (k := k) (n := L - 2 * k)) (by omega)
  unfold checkTimestamps
  rw [hmedian, htop, if_neg (fun hc => absurd hc.2 (by decide))]
  decide

end

/-- Timestamps of which only the last is high. -/
def lastHigh (L : ℕ) : List UInt64 := replicate (L - 1) 1000 ++ [2000]

theorem checkTimestamps_lastHigh (ha : a ≤ L) (hpos : 2 < a) :
    checkTimestamps v ((lastHigh L).drop (L - a)) (stampedBlock 1001) = true ↔ ¬5 < v := by
  have hdrop : (lastHigh L).drop (L - a) =
      replicate (a - 1) 1000 ++ replicate 1 2000 := by
    have hnone : L - a - (L - 1) = 0 := by omega
    have hrest : L - 1 - (L - a) = a - 1 := by omega
    rw [lastHigh, drop_append, drop_replicate, length_replicate, hnone, hrest]
    rfl
  have hmem : ∀ x ∈ replicate (a - 1) (1000 : UInt64) ++ replicate 1 2000,
      x = 1000 ∨ x = 2000 := by
    intro x hx
    exact (mem_append.mp hx).imp eq_of_mem_replicate eq_of_mem_replicate
  have hsort := sortTimestamps_of_two_values (by decide) hmem
  have htop := getLast?_sortTimestamps (by decide) hmem (by simp [count_replicate])
  rw [count_append, count_append, count_replicate_self,
    count_replicate, count_replicate, if_neg (by decide), if_neg (by decide)] at hsort
  have hmedian : median (replicate (a - 1) (1000 : UInt64) ++ replicate 1 2000) = 1000 := by
    unfold median
    rw [hsort, length_append, length_replicate, length_replicate,
      if_neg (by omega)]
    simp only []
    split_ifs
    · rw [getD_replicate_append_left (by omega)]
    · rw [getD_replicate_append_left (by omega),
        getD_replicate_append_left (by omega)]
      decide
  rw [hdrop]
  unfold checkTimestamps
  rw [htop, hmedian]
  by_cases hv : 5 < v
  · rw [if_pos ⟨hv, by decide⟩]
    simp [hv]
  · rw [if_neg (fun hc => hv hc.1)]
    simp only [hv]
    decide

/-- If the rules agree on all chains, then also on these, which tell the sizes and the versions
apart. -/
theorem sameTimestampRule_of_agree (hpos : 1 ≤ split) (hlt : split < height)
    (h : TimestampRulesAgree t height split m) :
    SameTimestampRule (t.versionAt height) (t.versionAt (split + m)) split m := by
  have hwindow := le_timestampCheckWindow (t.versionAt height)
  have hwindow' := le_timestampCheckWindow (t.versionAt (split + m))
  have hstamped := fun {T} => h.stamped hpos hlt (T := T)
  unfold SameTimestampRule
  have hcount : altCount (timestampCheckWindow (t.versionAt height)) split m ≤ split + m ∧
      (altCount (timestampCheckWindow (t.versionAt height)) split m = 0 ↔ split + m = 1) := by
    unfold altCount
    split_ifs <;> omega
  obtain ⟨hle, hzero⟩ := hcount
  generalize
    altCount (timestampCheckWindow (t.versionAt height)) split m = a at hstamped hle hzero ⊢
  by_cases hlow : split + m < timestampCheckWindow (t.versionAt (split + m))
  · left
    have hreject := hstamped (T := replicate (split + m) 1000) length_replicate
      0 (by decide)
    by_contra hnot
    rw [checkTimestamps_zero hle (by omega)] at hreject
    exact absurd (hreject.mpr (.inl hlow)) Bool.false_ne_true
  · right
    obtain ⟨k, hk, hk6⟩ : ∃ k, timestampCheckWindow (t.versionAt (split + m)) = 2 * k ∧ 6 ≤ k := by
      rcases hwindow' with hw | hw
      · exact ⟨6, hw, le_rfl⟩
      · exact ⟨30, hw, by decide⟩
    rw [hk] at hstamped hlow ⊢
    have hsame : a = 2 * k := by
      have haccept := hstamped (T := halfLow (split + m) k)
        (by simpa using length_halfLow (not_lt.mp hlow) (Nat.le_refl (split + m)))
        1001 (by decide)
      by_contra hne
      rw [checkTimestamps_halfLow_of_ne (by omega) hle (by omega) hne,
        checkTimestamps_halfLow (by omega) (by omega)] at haccept
      exact absurd (haccept.mpr (.inr rfl)) Bool.false_ne_true
    subst hsame
    have hrule := hstamped (T := lastHigh (split + m))
      (by rw [lastHigh, length_append, length_replicate, length_singleton]; omega)
      1001 (by decide)
    rw [checkTimestamps_lastHigh hle (by omega), checkTimestamps_lastHigh hle (by omega),
      or_iff_right hlow] at hrule
    exact ⟨hle, rfl, not_iff_not.mp hrule⟩

/-- The two rules agree exactly when they look at the same blocks in the same way. -/
theorem timestampRulesAgree_iff (t : ForkTable) (height split m : ℕ) (hpos : 1 ≤ split)
    (hlt : split < height) :
    TimestampRulesAgree t height split m ↔
      SameTimestampRule (t.versionAt height) (t.versionAt (split + m)) split m :=
  ⟨sameTimestampRule_of_agree hpos hlt, timestampRulesAgree_of_same hpos hlt⟩

theorem timestampRulesAgree_iff_thirteen :
    TimestampRulesAgree ForkTable.mainnet 30 10 13 ↔ SameTimestampRule 5 5 10 13 :=
  timestampRulesAgree_iff ForkTable.mainnet 30 10 13 (by decide) (by decide)

/-- Thirteen alternative blocks are one more than the window: the block is refused on top of them,
and accepted on the same blocks as main chain. -/
theorem thirteen_alt_blocks_refused :
    (∃ timestamps, OnAltChain stampedEnv (stampedFork ForkTable.mainnet 30 10 (halfLow 23 6) 13)
      (stampedChain ForkTable.mainnet 23 (halfLow 23 6)) (stampedId 30 10 13) 10
      ((List.range 13).map (stampedAlt 30 10 (halfLow 23 6))) timestamps ∧
      checkTimestamps 5 timestamps (stampedBlock 1001) = false) ∧
    (stampedFork ForkTable.mainnet 30 10 (halfLow 23 6) 13).getCurrentHardForkVersion = 5 ∧
    (stampedBlock 1001).timestamp ≤ stampedEnv.now + futureTimeLimit 5 ∧
    (stampedChain ForkTable.mainnet 23 (halfLow 23 6)).checkBlockTimestamp stampedEnv
      (stampedBlock 1001) = true := by
  refine ⟨?_, by decide, by decide, by decide⟩
  obtain ⟨timestamps, hon⟩ := stampedFork_onAltChain (t := ForkTable.mainnet) (T := halfLow 23 6)
    (by decide : 1 ≤ 10) (by decide : 10 < 30) 13
  have htimestamps : timestamps = (halfLow 23 6).reverse.take 13 := by
    rw [buildAltChain_timestamps hon.built hon.parent]
    decide
  refine ⟨timestamps, hon, ?_⟩
  rw [htimestamps]
  decide

end Nerva
