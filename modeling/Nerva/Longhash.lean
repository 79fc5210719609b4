import Nerva.MersenneTwister
import Nerva.Reorg

/-!
# The proof of work and the blocks it reads

`get_block_longhash` for every version, down to the data functions of `BlockchainLMDB`. The slow
hashes themselves are parameters. A computation without a value is a hash that was not made, whether
the function returned false or the database threw.
-/

namespace Nerva

open Traced Loop

structure RandomValues where
  operators : List UInt8
  indices : List UInt32
  values : List UInt8

structure SlowHash where
  blobHash : Blob → Blob
  nonce : Blob → UInt32
  cnSlowHash : Blob → ℕ → ℕ → Hash
  cnSlowHashV7_8 : RandomValues → Blob → ℕ → Hash
  cnSlowHashV9 : RandomValues → Array UInt8 → Blob → ℕ → Hash
  /-- With `init_size_blk` and `xx`, `yy`, `zz`, `ww`. -/
  cnSlowHashV10 : RandomValues → Array UInt8 → Blob → ℕ → UInt8 → List UInt32 → Hash
  cnSlowHashV11 : RandomValues → Array UInt8 → Blob → ℕ → UInt8 → List UInt32 → Hash
  cnSlowHashV13 : RandomValues → Array UInt8 → Blob → Blob → Hash
  /-- What the fill of `cn_slow_hash_v14_chain` hands to the salt callback. -/
  v14Seed : RandomValues → Blob → Blob
  cnSlowHashV14 : RandomValues → Array UInt8 → Blob → ℕ → List UInt32 → Hash

structure PowState where
  blockInfo : ℕ → Option BlockRow
  cache : BlockCache
  salt : Array UInt8

def readInfo (p : PowState) (i : UInt64) : PowM BlockRow := do
  emit (.read i.toNat)
  lift (p.blockInfo i.toNat)

def readCache (p : PowState) (i : UInt64) : PowM BlockRow := do
  emit (.read i.toNat)
  return p.cache.rows i.toNat

def buildBlockCache (p : PowState) (height : UInt64) : PowM PowState := do
  (List.range' p.cache.height (height.toNat - p.cache.height)).foldlM
    (fun _ i => emit (.read i)) ()
  match p.cache.build p.blockInfo height.toNat with
  | (true, cache) => return { p with cache }
  | (false, _) => lift none

def randomValuesOf (scratchpadSize : UInt32) (buffer : Blob) : List (UInt8 × UInt8 × UInt32) :=
  let b := fun i => buffer.getD i 0
  let index := fun i : ℕ =>
    ((b i).toUInt32 <<< 24 ||| (b (i + 2)).toUInt32 <<< 16 ||| (b (i + 4)).toUInt32 <<< 8 |||
      (b (i + 6)).toUInt32) % scratchpadSize
  [((b 1 ^^^ b 3) >>> 5, b 5 ^^^ b 7, index 0),
   ((b 0 ^^^ b 2) >>> 5, b 4 ^^^ b 6, index 1),
   ((b 9 ^^^ b 11) >>> 5, b 13 ^^^ b 15, index 8),
   ((b 8 ^^^ b 10) >>> 5, b 12 ^^^ b 14, index 9)]

def getCnaV2Data (p : PowState) (height : UInt64) (scratchpadSize : UInt32) :
    PowM (RandomValues × PowState) := do
  let p ← buildBlockCache p (height + 1)
  let row ← readCache p height
  let h0 := hashBytes row.biHash
  let back := fun i : ℕ => do
    let pos ← subHeight height (h0.getD i 0 ^^^ h0.getD (i + 16) 0).toUInt64
    let row ← readCache p pos
    return hashBytes row.biHash
  let h1 ← back 0
  let h2 ← back 4
  let h3 ← back 8
  let h4 ← back 12
  let rows := (List.range 8).flatMap fun i =>
    randomValuesOf scratchpadSize ([h1, h2, h3, h4].flatMap fun h => (h.drop (4 * i)).take 4)
  return (⟨rows.map (·.1), rows.map (·.2.2), rows.map (·.2.1)⟩, p)

structure Quad (α : Type) where
  x : α
  y : α
  z : α
  w : α

def saltRow (first : BlockRow) (quads : List (Quad BlockRow)) (last : BlockRow) : Blob :=
  let a := quads.flatMap fun q : Quad BlockRow =>
    wordBytes q.x.biTimestamp.toUInt32 ++ wordBytes q.y.biDiffLo.toUInt32
  let b := quads.flatMap fun q : Quad BlockRow =>
    wordBytes (q.z.biCoins >>> 32).toUInt32 ++ wordBytes q.w.biCoins.toUInt32
  hashBytes first.biHash ++ a ++ b ++ hashBytes last.biHash

/-- The subtraction `height - k`, in 64 bits and cut to 32 as version 9 does it. -/
def subThenCut (height k : UInt64) : PowM UInt32 := do
  let t ← subHeight height k
  return t.toUInt32

/-- The subtraction `height - k`, in 32 bits as version 10 does it. -/
def cutThenSub (height k : UInt32) : PowM UInt32 := do
  emit (.sub height.toNat k.toNat)
  return height - k

def drawHash (top : PowM UInt32) (g : MersenneTwister) : PowM (UInt32 × MersenneTwister) := do
  let t ← top
  g.next 1 t

def drawNear (top : UInt32) (g : MersenneTwister) :
    PowM ((UInt32 × UInt32) × MersenneTwister) := do
  let (r, g) ← g.next 6 top
  emit (.sub r.toNat 5)
  let (x, g) ← g.next (r - 5) (r + 5)
  emit (.sub r.toNat 5)
  let (y, g) ← g.next (r - 5) (r + 5)
  return ((x, y), g)

def drawQuad (top : PowM UInt32) (g : MersenneTwister) : PowM (Quad UInt32 × MersenneTwister) := do
  let t ← top
  let ((x, y), g) ← drawNear t g
  let t ← top
  let ((z, w), g) ← drawNear t g
  return (⟨x, y, z, w⟩, g)

def readQuad (read : UInt64 → PowM BlockRow) (q : Quad UInt32) : PowM (Quad BlockRow) := do
  let x ← read q.x.toUInt64
  let y ← read q.y.toUInt64
  let z ← read q.z.toUInt64
  let w ← read q.w.toUInt64
  return ⟨x, y, z, w⟩

def cnaV3Quad (p : PowState) (height : UInt64) (g : MersenneTwister) :
    PowM (Quad BlockRow × MersenneTwister) := do
  let (q, g) ← drawQuad (subThenCut height 6) g
  let rows ← readQuad (readInfo p) q
  return (rows, g)

def cnaV3Row (p : PowState) (height : UInt64) (g : MersenneTwister) :
    PowM (Blob × MersenneTwister) := do
  let (r, g) ← drawHash (subThenCut height 1) g
  let first ← readInfo p r.toUInt64
  let (quads, g) ← consume (cnaV3Quad p height) 4 g
  let (r, g) ← drawHash (subThenCut height 1) g
  let last ← readInfo p r.toUInt64
  return (saltRow first quads last, g)

def getCnaV3Data (p : PowState) (height : UInt64) (seed : UInt32) : PowM PowState := do
  let (rows, _) ← consume (cnaV3Row p height) 32 (MersenneTwister.setSeed seed)
  return { p with salt := writeBytes p.salt 0 rows.flatten }

structure V4Row where
  first : UInt32
  quads : List (Quad UInt32)
  last : UInt32

/-- One turn of `generate_v4_sequence`, which regenerates only the 27 words it draws. -/
def v4SequenceRow (seed height : UInt32) (g : MersenneTwister) :
    PowM (V4Row × MersenneTwister) := do
  let mt := ((List.finRange 624).take 27).foldl MersenneTwister.twist g.mt
  let (first, g) ← drawHash (cutThenSub height 1) ⟨mt, 0⟩
  let (quads, g) ← consume (drawQuad (cutThenSub height 6)) 4 g
  let (last, g) ← drawHash (cutThenSub height 1) g
  let (r, _) := g.generateUint
  return (⟨first, quads, last⟩, MersenneTwister.setSeed (seed ^^^ r))

def cnaV4Row (p : PowState) (salt : Blob) (r : V4Row) : PowM Blob := do
  let first ← readCache p r.first.toUInt64
  let quads ← r.quads.foldlM (fun quads q => do
    let rows ← readQuad (readCache p) q
    return quads ++ [rows]) []
  let last ← readCache p r.last.toUInt64
  return salt ++ saltRow first quads last

def getCnaV4Data (p : PowState) (height : UInt64) (seed : UInt32) : PowM PowState := do
  let p ← buildBlockCache p height
  let (sequence, _) ← consume (v4SequenceRow seed height.toUInt32) 2048 (.setSeed seed)
  let salt ← sequence.foldlM (cnaV4Row p) []
  return { p with salt := writeBytes p.salt 0 salt }

def cnaV5Pick (height : UInt64) (rng : Rng) : PowM (UInt64 × Rng) := do
  let (r, rng) ← drawBelow rng height
  return (r.toUInt64, rng)

/-- `get_cna_v5_data`. The cipher is keyed again every turn. -/
def getCnaV5Data (p : PowState) (state : HC128State) (height : UInt64) :
    PowM (HC128State × PowState) := do
  let p ← buildBlockCache p height
  let a : FillArgs :=
    { rows := p.cache.rows, height, windowSize := 0, windowBase := 0, odds := 0,
      reseedBlocks := 1, hashWords := 0 }
  let f ← chainFill a (cnaV5Pick height) (fillStart state p.salt)
  return (f.1.state, { p with salt := f.2.out })

def cnaV6WindowBlocksV13 : UInt64 := 100000
def cnaV6FullHistoryOdds : UInt32 := 13
def cnaV6FullHistoryOddsV14 : UInt32 := 256
def cnaV6ReseedBlocks : ℕ := 1
def cnaV6ReseedBlocksV14 : ℕ := 16
def cnaV6HashWords : UInt32 := 0
def cnaV6HashWordsV14 : UInt32 := 1

def getCnaV6Data (p : PowState) (state : HC128State) (height : UInt64) (odds : UInt32)
    (reseedBlocks : ℕ) (hashWords : UInt32) : PowM (HC128State × PowState) := do
  if height = 0 then return (state, p)
  else if reseedBlocks = 0 ∨ 256 % reseedBlocks ≠ 0 then lift none
  else
    let p ← buildBlockCache p height
    let windowSize := if cnaV6WindowBlocksV13 < height then cnaV6WindowBlocksV13 else height
    let windowBase ← subHeight height windowSize
    let (rng, salt) ← cnaV6DataRunAhead
      { rows := p.cache.rows, height, windowSize, windowBase,
        odds := odds, reseedBlocks, hashWords } state p.salt
    return (rng.state, { p with salt })

def cnScratchpadMemory : UInt32 := 1048576
def cnScratchpadMemoryV13 : UInt32 := 8 * 1024 * 1024
def cnScratchpadMemoryV8 : UInt32 := 1024 * 1024

def hc128Of (seed : Blob) : HC128State := HC128State.blank.init (seed.take 16) (seed.drop 16)

variable (sh : SlowHash)

def getBlockLonghashV7_8 (p : PowState) (blob : Blob) (height dataOffset : UInt64) :
    PowM (Hash × PowState) := do
  if height.toNat < dataOffset.toNat + cnSeedBackreach then lift none
  else
    let ht ← subHeight height dataOffset
    let (rv, p) ← getCnaV2Data p ht (cnScratchpadMemory - 1)
    return (sh.cnSlowHashV7_8 rv blob (0x40000 + (height + 1).toNat % 64), p)

def getBlockLonghashV9 (p : PowState) (blob : Blob) (height : UInt64) :
    PowM (Hash × PowState) := do
  if height.toNat < cnSeedMinHeight then lift none
  else
    let ht ← subHeight height 256
    let (rv, p) ← getCnaV2Data p ht (cnScratchpadMemory - 1)
    let p ← getCnaV3Data p ht (sh.nonce blob ^^^ ht.toUInt32)
    return (sh.cnSlowHashV9 rv p.salt blob (0x40000 + (height + 1).toNat % 64), p)

def getBlockLonghashV10 (p : PowState) (blob : Blob) (height : UInt64) :
    PowM (Hash × PowState) := do
  if height.toNat < cnSeedMinHeight then lift none
  else
    let ht ← subHeight height 256
    let (rv, p) ← getCnaV2Data p ht cnScratchpadMemory
    let h := sh.blobHash blob
    let seed := (List.range 8).foldl (fun seed i => seed ^^^ readWord h (4 * i))
      (sh.nonce blob ^^^ height.toUInt32)
    let p ← getCnaV4Data p ht seed
    let g := MersenneTwister.setSeed seed
    let (sizes, g) ← consume (fun g : MersenneTwister => do
      let (r, g) := g.generateUint
      return ((2 : UInt8) <<< (r % 3).toUInt8, g)) 3 g
    let (xs, g) ← consume (fun g : MersenneTwister => do
      let (d, g) ← g.next 2 4
      let (e, g) ← g.next 2 4
      return (seed % d + e, g)) 3 g
    let (d, _) ← g.next 1 10000
    return (sh.cnSlowHashV10 rv p.salt blob ((height + 1).toNat % 64)
      (sizes.getD (seed.toNat % 3) 0) (xs ++ [seed % d]), p)

def getBlockLonghashV11 (p : PowState) (blob : Blob) (height : UInt64) :
    PowM (Hash × PowState) := do
  if height.toNat < cnSeedMinHeight then lift none
  else
    let ht ← subHeight height 256
    let (rv, p) ← getCnaV2Data p ht cnScratchpadMemory
    let (state, p) ← getCnaV5Data p (hc128Of (sh.blobHash blob)) ht
    let (xx, rng) ← lift (Rng.u32 ⟨state.nextKeys, 0⟩ 5)
    let (yy, rng) ← lift (rng.u32 5)
    let (size, rng) ← lift (rng.u32 3)
    let (divisor, _) ← lift (rng.u32 64)
    return (sh.cnSlowHashV11 rv p.salt blob ((height + 1).toNat % (1 + divisor.toNat))
      ((2 : UInt8) <<< size.toUInt8) [4 + xx, 4 + yy], p)

def getBlockLonghashV13 (p : PowState) (blob : Blob) (height : UInt64) :
    PowM (Hash × PowState) := do
  if height.toNat < cnSeedMinHeight then lift none
  else
    let stableHeight ← subHeight height 256
    let (rv, p) ← getCnaV2Data p stableHeight cnScratchpadMemoryV13
    let h := sh.blobHash blob
    let (_, p) ← getCnaV6Data p (hc128Of h) stableHeight cnaV6FullHistoryOdds cnaV6ReseedBlocks
      cnaV6HashWords
    return (sh.cnSlowHashV13 rv p.salt blob (h.zipWith (· ^^^ ·) (bytesAt p.salt 0 32)), p)

/-- `get_block_longhash_v14`, with `v14_fetch_salt`. -/
def getBlockLonghashV14 (p : PowState) (blob : Blob) (height : UInt64) :
    PowM (Hash × PowState) := do
  if height.toNat < cnSeedMinHeight then lift none
  else
    let stableHeight ← subHeight height 256
    let (rv, p) ← getCnaV2Data p stableHeight cnScratchpadMemoryV8
    let (state, p) ← getCnaV6Data p (hc128Of (sh.v14Seed rv blob)) stableHeight
      cnaV6FullHistoryOddsV14 cnaV6ReseedBlocksV14 cnaV6HashWordsV14
    let (xx, rng) ← lift (Rng.u32 ⟨state.nextKeys, 0⟩ 5)
    let (yy, rng) ← lift (rng.u32 5)
    let (divisor, _) ← lift (rng.u32 64)
    return (sh.cnSlowHashV14 rv p.salt blob ((height + 1).toNat % (1 + divisor.toNat))
      [4 + xx, 4 + yy], p)

def getBlockLonghash (p : PowState) (majorVersion : ℕ) (blob : Blob) (height : UInt64) :
    PowM (Hash × PowState) :=
  if majorVersion < 7 then
    let variant := if 5 ≤ majorVersion then 1 else 0
    let baseIters := if 6 ≤ majorVersion then 0x40000 else 0x80000
    return (sh.cnSlowHash blob variant (baseIters + (height + 1).toNat % 1024), p)
  else
    match majorVersion with
    | 7 => getBlockLonghashV7_8 sh p blob height 1
    | 8 => getBlockLonghashV7_8 sh p blob height 256
    | 9 => getBlockLonghashV9 sh p blob height
    | 10 => getBlockLonghashV10 sh p blob height
    | 11 | 12 => getBlockLonghashV11 sh p blob height
    | 13 => getBlockLonghashV13 sh p blob height
    | _ => getBlockLonghashV14 sh p blob height

end Nerva
