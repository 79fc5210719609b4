import Nerva.BlockCache
import Nerva.HC128
import Nerva.Lib.Traced

/-!
# The chain fill

`get_cna_v5_data` and `get_cna_v6_data` fill a salt of 256 KB with blocks of the chain that HC-128
picks, encrypted by HC-128, which is keyed again from what has been written. The fill of version 6
is written twice, as a reference and in the run-ahead form that consensus runs.
-/

namespace Nerva

open Traced Loop

inductive HeightEvent
  | read (height : ℕ)
  | sub (a b : ℕ)
  deriving DecidableEq, Repr

abbrev PowM := Traced HeightEvent

def subHeight (a b : UInt64) : PowM UInt64 := do
  emit (.sub a.toNat b.toNat)
  return a - b

def u64Bytes (x : UInt64) : Blob := (List.range 8).map fun i => (x >>> UInt64.ofNat (8 * i)).toUInt8

def hashBytes (h : Hash) : Blob := (List.range 32).map fun i => UInt8.ofNat (h >>> (8 * (31 - i)))

def bytesAt (out : Array UInt8) (pos n : ℕ) : Blob :=
  (List.range n).map fun i => out.getD (pos + i) 0

def writeBytes (out : Array UInt8) (pos : ℕ) (bytes : Blob) : Array UInt8 :=
  bytes.zipIdx.foldl (fun out x => out.setIfInBounds (pos + x.2) x.1) out

structure FillArgs where
  rows : ℕ → BlockRow
  height : UInt64
  windowSize : UInt64
  windowBase : UInt64
  odds : UInt32
  reseedBlocks : ℕ
  hashWords : UInt32

structure FillPad where
  msg : Blob
  out : Array UInt8
  optr : ℕ
  count : ℕ
  deriving DecidableEq

abbrev Filling := Rng × FillPad

def FillPad.append (pad : FillPad) (msg cipher : Blob) : FillPad :=
  { msg := msg
    out := writeBytes pad.out pad.optr cipher
    optr := pad.optr + 64
    count := pad.count + 1 }

def drawBelow (rng : Rng) (max : UInt64) : PowM (UInt32 × Rng) := do
  emit (.sub max.toUInt32.toNat 1)
  lift (rng.u32 max.toUInt32)

variable (a : FillArgs)

def cnaV6Pick (rng : Rng) : PowM (UInt64 × Rng) := do
  let (selector, rng) ← lift (rng.u32 256)
  if selector < a.odds then
    let (r, rng) ← drawBelow rng a.height
    return (r.toUInt64, rng)
  else
    let (r, rng) ← drawBelow rng a.windowSize
    return (a.windowBase + r.toUInt64, rng)

def cnaV6Field (i : UInt64) (j count : ℕ) : PowM Blob := do
  emit (.read i.toNat)
  let row := a.rows i.toNat
  if a.hashWords ≠ 0 then return ((hashBytes row.biHash).drop (8 * ((j + count) % 4))).take 8
  else
    return u64Bytes (if j = 1 then row.biTimestamp else if j = 2 then row.biDiffLo else row.biCoins)

def readHash (i : UInt64) : PowM Blob := do
  emit (.read i.toNat)
  return hashBytes (a.rows i.toNat).biHash

def fillBody (pick : Rng → PowM (UInt64 × Rng)) (f : Filling) : PowM Filling := do
  let (i, rng) ← pick f.1
  let hash ← readHash a i
  let (msg, rng) ← [1, 2, 3].foldlM (fun (x : Blob × Rng) j => do
    let (i, rng) ← pick x.2
    let field ← cnaV6Field a i j f.2.count
    return (x.1 ++ field, rng)) (hash, rng)
  let msg := msg ++ u64Bytes (UInt64.ofNat f.2.count)
  let (state, cipher) := rng.state.encryptMessage msg
  return ({ rng with state }, f.2.append msg cipher)

def fillReseed (f : Filling) : PowM Filling := do
  let (r, rng) ← lift (f.1.u32 496)
  let iv := bytesAt f.2.out (f.2.optr - 512 + r.toNat) 16
  let (r, rng) ← lift (rng.u32 496)
  let key := bytesAt f.2.out (f.2.optr - 1024 + r.toNat) 16
  return ({ rng with state := rng.state.init key iv }, f.2)

/-- The reseed in the middle. The four pieces of the salt all go to the start of the message, and
what is written for the key is overwritten by the next message. -/
def fillMidpoint (f : Filling) : PowM Filling := do
  let (rng, msg) ← times (fun x : Rng × Blob => do
    let (r, rng) ← lift (x.1.u32 131056)
    return (rng, bytesAt f.2.out (f.2.optr - 131072 + r.toNat) 16 ++ x.2.drop 16)) 4 (f.1, f.2.msg)
  let (state, cipher) := rng.state.encryptMessage msg
  let out := writeBytes f.2.out f.2.optr cipher
  let state := state.init (bytesAt out f.2.optr 16) (bytesAt out (f.2.optr + 16) 16)
  return ({ rng with state }, { f.2 with msg, out })

def reseedTurn (f : Filling) : PowM Filling :=
  if f.2.count / 16 % a.reseedBlocks = 0 then fillReseed f else return f

def Rng.nextKeys (rng : Rng) : Rng := { rng with state := rng.state.nextKeys }

def fillStart (state : HC128State) (out : Array UInt8) : Filling :=
  (⟨state, 0⟩, { msg := List.replicate 64 0, out, optr := 0, count := 0 })

/-! ## The fills

Every turn writes sixteen messages, so that the loops end long before their fuel. -/

def fillTurn (pick : Rng → PowM (UInt64 × Rng)) (f : Filling) : PowM Filling := do
  let f ← times (fillBody a pick) 16 (f.1.nextKeys, f.2)
  reseedTurn a f

def chainFill (pick : Rng → PowM (UInt64 × Rng)) (f : Filling) : PowM Filling := do
  let f ← whileDo (fun f => f.2.count < 2048) (fillTurn a pick) 2048 f
  let f ← fillMidpoint f
  whileDo (fun f => f.2.count < 4096) (fillTurn a pick) 4096 f

/-- `cna_v6_data_reference`: the salt, the cipher and `rng_key_idx` at the end. -/
def cnaV6DataReference (state : HC128State) (out : Array UInt8) :
    PowM (Rng × Array UInt8) := do
  let f ← chainFill a (cnaV6Pick a) (fillStart state out)
  return (f.1, f.2.out)

/-- The picks of one message, `idx[k]`, and its keystream, `ks[k]`. -/
def runAheadDraw (rng : Rng) :
    PowM ((List UInt64 × Vector UInt32 16) × Rng) := do
  let (idx, rng) ← consume (cnaV6Pick a) 4 rng
  let rng := rng.nextKeys
  return ((idx, rng.state.keystream), rng)

def runAheadWrite (pad : FillPad) (d : List UInt64 × Vector UInt32 16) :
    PowM FillPad := do
  let hash ← readHash a (d.1.getD 0 0)
  let msg ← [1, 2, 3].foldlM (fun msg j => do
    let field ← cnaV6Field a (d.1.getD j 0) j pad.count
    return msg ++ field) hash
  let msg := msg ++ u64Bytes (UInt64.ofNat pad.count)
  return pad.append msg (xorWords msg d.2)

def runAheadTurn (f : Filling) : PowM Filling := do
  let (draws, rng) ← consume (runAheadDraw a) 16 f.1.nextKeys
  let pad ← draws.foldlM (runAheadWrite a) f.2
  let f ← reseedTurn a (rng, pad)
  if f.2.count = 2048 then fillMidpoint f else return f

def cnaV6DataRunAhead (state : HC128State) (out : Array UInt8) :
    PowM (Rng × Array UInt8) := do
  let f ← whileDo (fun f => f.2.count < 4096) (runAheadTurn a) 4096 (fillStart state out)
  return (f.1, f.2.out)

end Nerva
