import Nerva.HardFork
import Mathlib.Data.List.Sort

/-!
# Difficulty

The per-version `next_difficulty` functions of `difficulty.cpp`, and the two routines that choose a
window for them: `get_difficulty_for_next_block` on the main chain, with its cache, and
`get_next_difficulty_for_alternative_chain`. Version 6 computes in `double` and is a parameter.
-/

namespace Nerva

def hiDword (val : UInt64) : UInt64 := val >>> 32

def loDword (val : UInt64) : UInt64 := val &&& 0xFFFFFFFF

def mul128 (multiplier multiplicand : UInt64) : UInt64 × UInt64 :=
  let a := hiDword multiplier
  let b := loDword multiplier
  let c := hiDword multiplicand
  let d := loDword multiplicand
  let ac := a * c
  let ad := a * d
  let bc := b * c
  let bd := b * d
  let adbc := ad + bc
  let adbcCarry : UInt64 := if adbc < ad then 1 else 0
  let productLo := bd + adbc <<< 32
  let productLoCarry : UInt64 := if productLo < bd then 1 else 0
  (productLo, ac + adbc >>> 32 + adbcCarry <<< 32 + productLoCarry)

def divWithReminder (dividend : UInt64) (divisor remainder : UInt32) : UInt64 × UInt32 :=
  let dividend := dividend ||| remainder.toUInt64 <<< 32
  (dividend / divisor.toUInt64, (dividend % divisor.toUInt64).toUInt32)

/-- `div128_32`: the words of the quotient, the high one first, and the remainder. -/
def div128By32 (dividendHi dividendLo : UInt64) (divisor : UInt32) : UInt64 × UInt64 × UInt32 :=
  let (q₃, remainder) := divWithReminder (hiDword dividendHi) divisor 0
  let (q₂, remainder) := divWithReminder (loDword dividendHi) divisor remainder
  let (q₁, remainder) := divWithReminder (hiDword dividendLo) divisor remainder
  let (q₀, remainder) := divWithReminder (loDword dividendLo) divisor remainder
  (q₃ <<< 32 ||| q₂, q₁ <<< 32 ||| q₀, remainder)

/-- `mul`, which is `mul128` on x86_64. -/
def mul (x86 : Bool) (a b : UInt64) : UInt64 × UInt64 :=
  if x86 then mul128 a b
  else
    let aLow := loDword a
    let aHigh := hiDword a
    let bLow := loDword b
    let bHigh := hiDword b
    let res := aLow * bLow
    let lowRes1 := loDword res
    let res := aHigh * bLow + hiDword res
    let highResHigh1 := hiDword res
    let highResLow1 := loDword res
    let res := aLow * bHigh
    let lowRes2 := loDword res
    let res := aHigh * bHigh + hiDword res
    let highResHigh2 := hiDword res
    let highResLow2 := loDword res
    let r := highResLow1 + lowRes2
    let low := r <<< 32 ||| lowRes1
    let r := highResHigh1 + highResLow2 + hiDword r
    (low, loDword r ||| (highResHigh2 + hiDword r) <<< 32)

def cadd (a b : UInt64) : Bool := a + b < a

def cadc (a b : UInt64) (c : Bool) : Bool := a + b < a || (c && a + b == 0 - 1)

/-- A word of the hash, which is read as a little-endian number. -/
def hashWord (hash : BitVec 256) (i : ℕ) : UInt64 := ⟨hash.extractLsb' (64 * i) 64⟩

def checkHash (x86 : Bool) (hash : BitVec 256) (difficulty : UInt64) : Bool :=
  let (top, high) := mul x86 (hashWord hash 3) difficulty
  if high ≠ 0 then false
  else
    let (_, cur) := mul x86 (hashWord hash 0) difficulty
    let (low, high) := mul x86 (hashWord hash 1) difficulty
    let carry := cadd cur low
    let cur := high
    let (low, high) := mul x86 (hashWord hash 2) difficulty
    let carry := cadc cur low carry
    let carry := cadc high top carry
    !carry

def difficultyTarget : UInt64 := 60
def difficultyWindow : ℕ := 720
def difficultyCut : ℕ := 60
def difficultyBlocksCount : ℕ := 735
def difficultyCutV2 : ℕ := 6
def difficultyBlocksCountV2 : ℕ := 29
def difficultyBlocksCountV3 : ℕ := 60
def difficultyBlocksCountV6 : ℕ := 61
def maxAverageTimespan : UInt64 := 360
def minAverageTimespan : UInt64 := 2

variable (timestamps : List UInt64)

def sortTimestamps : List UInt64 := timestamps.insertionSort (· ≤ ·)

/-- `epee::misc_utils::median`, on a vector that it sorts when it has two elements or more. -/
def median (v : List UInt64) : UInt64 :=
  if v.length ≤ 1 then v.headD 0
  else
    let sorted := sortTimestamps v
    let n := v.length / 2
    if v.length % 2 = 1 then sorted.getD n 0
    else (sorted.getD (n - 1) 0 + sorted.getD n 0) / 2

def cutRange (length kept : ℕ) : ℕ × ℕ :=
  if length ≤ kept then (0, length)
  else ((length - kept + 1) / 2, (length - kept + 1) / 2 + kept)

def mulFits (a b : UInt64) : Option UInt64 :=
  if a.toNat * b.toNat < UInt64.size then some (a * b) else none

variable (cumulativeDifficulties : List ℕ)

def totalWork (last first : ℕ) : UInt64 :=
  UInt64.ofNat (cumulativeDifficulties.getD last 0 - cumulativeDifficulties.getD first 0)

def nextDifficulty (targetSeconds : UInt64) : UInt64 :=
  let timestamps := timestamps.take difficultyWindow
  let cumulativeDifficulties := cumulativeDifficulties.take difficultyWindow
  let length := timestamps.length
  if length ≤ 1 then 1
  else
    let sorted := sortTimestamps timestamps
    let (cutBegin, cutEnd) := cutRange length (difficultyWindow - 2 * difficultyCut)
    let span := sorted.getD (cutEnd - 1) 0 - sorted.getD cutBegin 0
    let timeSpan := if span = 0 then 1 else span
    match mulFits (totalWork cumulativeDifficulties (cutEnd - 1) cutBegin) targetSeconds with
    | none => 0
    | some low => if low + timeSpan - 1 < low then 0 else (low + timeSpan - 1) / timeSpan

/-- The time spans between consecutive timestamps, none of them zero. -/
def timeSpans : List UInt64 → List UInt64
  | a :: b :: rest => (if b - a = 0 then 1 else b - a) :: timeSpans (b :: rest)
  | _ => []

def nextDifficultyV2 (targetSeconds : UInt64) : UInt64 :=
  let timestamps := timestamps.take difficultyBlocksCountV2
  let cumulativeDifficulties := cumulativeDifficulties.take difficultyBlocksCountV2
  let length := timestamps.length
  if length ≤ 1 then 1
  else
    let sorted := sortTimestamps timestamps
    let (cutBegin, cutEnd) := cutRange length (difficultyBlocksCountV2 - 2 * difficultyCutV2)
    let span := sorted.getD (cutEnd - 1) 0 - sorted.getD cutBegin 0
    let totalTimespan := if span = 0 then 1 else span
    let timespanMedian :=
      if 0 < cutBegin ∧ cutBegin * 2 + 3 ≤ length then
        median (timeSpans (sorted.drop (length - cutBegin * 2 - 3)))
      else 0
    let timespanLength := UInt64.ofNat (length - cutBegin * 2 - 1)
    let totalTimespanMedian :=
      if 0 < timespanMedian then timespanMedian * timespanLength else totalTimespan * 7 / 10
    let adjusted := (totalTimespan * 8 + totalTimespanMedian * 3) / 10
    let adjusted :=
      if maxAverageTimespan * timespanLength < adjusted then maxAverageTimespan * timespanLength
      else adjusted
    let adjusted :=
      if adjusted < minAverageTimespan * timespanLength then minAverageTimespan * timespanLength
      else adjusted
    match mulFits (totalWork cumulativeDifficulties (cutEnd - 1) cutBegin) targetSeconds with
    | none => 0
    | some low => if (low + adjusted - 1) / adjusted < 1 then 1 else (low + adjusted - 1) / adjusted

/-- The weighted time spans of `next_difficulty_v3` with `v4`, counted from `i`: a timestamp below
the maximum so far counts as that maximum. -/
def weightedTimespansV4 (targetSeconds : UInt64) : ℕ → UInt64 → List UInt64 → UInt64
  | _, _, [] => 0
  | i, previousMax, t :: rest =>
    let maxTimestamp := if previousMax < t then t else previousMax
    let span := maxTimestamp - previousMax
    let timespan := if span = 0 then 1 else if 10 * targetSeconds < span then 10 * targetSeconds
      else span
    UInt64.ofNat i * timespan + weightedTimespansV4 targetSeconds (i + 1) maxTimestamp rest

/-- The same without `v4`: each timestamp is compared with the one before it. -/
def weightedTimespansV3 (targetSeconds : UInt64) : ℕ → UInt64 → List UInt64 → UInt64
  | _, _, [] => 0
  | i, previous, t :: rest =>
    let span := if t ≤ previous then 1 else t - previous
    let timespan := if 10 * targetSeconds < span then 10 * targetSeconds else span
    UInt64.ofNat i * timespan + weightedTimespansV3 targetSeconds (i + 1) t rest

def nextDifficultyV3 (targetSeconds : UInt64) (v4 : Bool) : UInt64 :=
  let timestamps := timestamps.take difficultyBlocksCountV3
  let cumulativeDifficulties := cumulativeDifficulties.take difficultyBlocksCountV3
  let length := timestamps.length
  if length ≤ 1 then 1
  else
    let halfTarget := UInt64.ofNat ((length + 1) / 2) * targetSeconds
    let weighted :=
      if v4 then weightedTimespansV4 targetSeconds 1 (timestamps.headD 0) timestamps.tail
      else weightedTimespansV3 targetSeconds 1 (timestamps.headD 0) timestamps.tail
    let target := if v4 then 99 * halfTarget / 100 else halfTarget
    let minimumTimespan := targetSeconds * UInt64.ofNat length / 2
    let weighted := if weighted < minimumTimespan then minimumTimespan else weighted
    match mulFits (totalWork cumulativeDifficulties (cumulativeDifficulties.length - 1) 0)
      target with
    | none => 0
    | some low => low / weighted

structure DifficultyFns where
  v1 : List UInt64 → List ℕ → UInt64 → UInt64
  v2 : List UInt64 → List ℕ → UInt64 → UInt64
  v3 : List UInt64 → List ℕ → UInt64 → Bool → UInt64
  v6 : List UInt64 → List ℕ → UInt64 → UInt64

def sourceFns (nextDifficultyV6 : List UInt64 → List ℕ → UInt64 → UInt64) : DifficultyFns :=
  ⟨nextDifficulty, nextDifficultyV2, nextDifficultyV3, nextDifficultyV6⟩

def blocksCountFor (version : ℕ) : ℕ :=
  if version = 1 then difficultyBlocksCount
  else if version = 2 then difficultyBlocksCountV2
  else if version < 6 then difficultyBlocksCountV3
  else difficultyBlocksCountV6

def DifficultyFns.next (fns : DifficultyFns) (version : ℕ) (timestamps : List UInt64)
    (cumulativeDifficulties : List ℕ) : UInt64 :=
  if version = 1 then fns.v1 timestamps cumulativeDifficulties difficultyTarget
  else if version = 2 then fns.v2 timestamps cumulativeDifficulties difficultyTarget
  else if version = 3 then fns.v3 timestamps cumulativeDifficulties difficultyTarget false
  else if version < 6 then fns.v3 timestamps cumulativeDifficulties difficultyTarget true
  else fns.v6 timestamps cumulativeDifficulties difficultyTarget

def BlockchainDB.range (db : BlockchainDB) (start stop : ℕ) : List BlockInfo :=
  (db.blocks.take stop).drop start

def BlockchainDB.topBlockHash (env : Env) (db : BlockchainDB) : Hash :=
  match db.blocks.getLast? with
  | some b => env.blockHash b.bl
  | none => nullHash

def BlockchainDB.getBlockHashFromHeight (env : Env) (db : BlockchainDB) (height : ℕ) :
    Option Hash :=
  db.blocks[height]?.map fun b => env.blockHash b.bl

/-- The first height of the window of `count` blocks below `height`; genesis is skipped. -/
def windowStart (count height : ℕ) : ℕ :=
  let offset := height - min height count
  if offset = 0 then offset + 1 else offset

def scratchWindow (db : BlockchainDB) (count : ℕ) : List BlockInfo :=
  db.range (windowStart count db.height) db.height

/-- The window cache moved on to the current chain: extended by the block on top when it ends right
below it, read from the database otherwise. -/
def refreshWindow (env : Env) (db : BlockchainDB) (count : ℕ) (cache : DifficultyCache) :
    DifficultyCache :=
  let height := db.height
  if cache.timestampsAndDifficultiesHeight ≠ 0 ∧
      height = cache.timestampsAndDifficultiesHeight + 1 ∧
      count ≤ cache.timestamps.length ∧
      db.getBlockHashFromHeight env (height - 2) = some cache.timestampsAndDifficultiesTopHash then
    let top := db.range (height - 1) height
    let timestamps := cache.timestamps ++ top.map (·.bl.timestamp)
    let difficulties := cache.difficulties ++ top.map (·.cumulativeDifficulty)
    { cache with
      timestamps := timestamps.drop (timestamps.length - count)
      difficulties := difficulties.drop (difficulties.length - count)
      timestampsAndDifficultiesHeight := height
      timestampsAndDifficultiesTopHash := db.topBlockHash env }
  else
    let window := scratchWindow db count
    { cache with
      timestamps := window.map (·.bl.timestamp)
      difficulties := window.map (·.cumulativeDifficulty)
      timestampsAndDifficultiesHeight := height
      timestampsAndDifficultiesTopHash := db.topBlockHash env }

def getDifficultyForNextBlock (env : Env) (fns : DifficultyFns) (bc : Blockchain) :
    UInt64 × Blockchain :=
  if bc.fixedDifficulty ≠ 0 then
    (if bc.db.height ≠ 0 then bc.fixedDifficulty else 1, bc)
  else
    let topHash := bc.db.topBlockHash env
    if topHash = bc.difficultyCache.difficultyForNextBlockTopHash then
      (bc.difficultyCache.difficultyForNextBlock, bc)
    else
      let version := bc.getCurrentHardForkVersion
      let cache := refreshWindow env bc.db (blocksCountFor version) bc.difficultyCache
      let diff := fns.next version cache.timestamps cache.difficulties
      (diff, { bc with difficultyCache :=
        { cache with difficultyForNextBlockTopHash := topHash, difficultyForNextBlock := diff } })

/-- The window of `get_next_difficulty_for_alternative_chain`: the last blocks of the alternative
chain, completed from the main chain below it. `height` is that of the block to come, used when the
alternative chain is empty. -/
def altWindow (db : BlockchainDB) (count : ℕ) (altChain : List AltBlock) (height : ℕ) :
    List (UInt64 × ℕ) :=
  if altChain.length < count then
    let mainChainStopOffset := (altChain.head?.map (·.height)).getD height
    let mainChainCount := min (count - min count altChain.length) mainChainStopOffset
    let mainChainStartOffset := mainChainStopOffset - mainChainCount
    let mainChainStartOffset := if mainChainStartOffset = 0 then 1 else mainChainStartOffset
    (db.range mainChainStartOffset mainChainStopOffset).map
        (fun b => (b.bl.timestamp, b.cumulativeDifficulty)) ++
      altChain.map fun b => (b.bl.timestamp, b.cumulativeDifficulty)
  else
    (altChain.drop (altChain.length - count)).map fun b => (b.bl.timestamp, b.cumulativeDifficulty)

/-- `get_next_difficulty_for_alternative_chain`. The fork version is the main chain's current
one. -/
def getNextDifficultyForAlternativeChain (fns : DifficultyFns) (bc : Blockchain)
    (altChain : List AltBlock) (height : ℕ) : UInt64 :=
  if bc.fixedDifficulty ≠ 0 then (if bc.db.height ≠ 0 then bc.fixedDifficulty else 1)
  else
    let version := bc.getCurrentHardForkVersion
    let window := altWindow bc.db (blocksCountFor version) altChain height
    fns.next version (window.map (·.1)) (window.map (·.2))

end Nerva
