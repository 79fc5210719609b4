import Mathlib.Algebra.Ring.Nat
import Nerva.Basic

/-!
# The HC-128 stream cipher

`hc128.c` and the bounded draws of `hc128.h`. Sixteen steps of the cipher update sixteen words of
one table and put sixteen words in `keystream`, from where `HC128_U32` takes them one at a time.
Words are read from and written to memory as on a little-endian machine.
-/

namespace Nerva

def readWord (bytes : Blob) (pos : ℕ) : UInt32 :=
  let byte := fun i => (bytes.getD (pos + i) 0).toUInt32
  byte 0 ||| byte 1 <<< 8 ||| byte 2 <<< 16 ||| byte 3 <<< 24

def wordBytes (w : UInt32) : Blob := [w, w >>> 8, w >>> 16, w >>> 24].map (·.toUInt8)

def rotr32 (x n : UInt32) : UInt32 := x >>> n ||| x <<< (32 - n)

def rotl32 (x n : UInt32) : UInt32 := x <<< n ||| x >>> (32 - n)

abbrev HC128Table := Vector UInt32 512

/-- `HC128_State`. Every update is of sixteen steps, so the counter stays a multiple of sixteen. -/
structure HC128State where
  P : HC128Table
  Q : HC128Table
  keystream : Vector UInt32 16
  counter1024 : ℕ
  aligned : counter1024 % 16 = 0
  lt : counter1024 < 1024
  deriving DecidableEq

structure HC128Taps where
  m0 : Fin 512
  m511 : Fin 512
  m3 : Fin 512
  m10 : Fin 512
  m12 : Fin 512

/-- `h1` and `h2`: the sum of two words of the other table. -/
def hc128H (other : HC128Table) (x : UInt32) : UInt32 :=
  other.get ⟨x.toUInt8.toNat, by have := x.toUInt8.toNat_lt; omega⟩ +
    other.get ⟨256 + (x >>> 16).toUInt8.toNat, by have := (x >>> 16).toUInt8.toNat_lt; omega⟩

/-- `step_P` and `step_Q`, which differ in the direction of the rotations. -/
def hc128Step (rot : UInt32 → UInt32 → UInt32) (own other : HC128Table) (t : HC128Taps) :
    HC128Table × UInt32 :=
  let tem0 := rot (own.get t.m511) 23
  let tem1 := rot (own.get t.m3) 10
  let tem2 := rot (own.get t.m10) 8
  let m0 := own.get t.m0 + (tem2 + (tem0 ^^^ tem1))
  let own := own.set t.m0 m0
  (own, hc128H other (own.get t.m12) ^^^ m0)

/-- `update_P` and `update_Q`: the word goes back to the table. -/
def hc128Update (rot : UInt32 → UInt32 → UInt32) (own other : HC128Table) (t : HC128Taps) :
    HC128Table :=
  let (own, s) := hc128Step rot own other t
  own.set t.m0 s

namespace HC128State

/-- The positions of step `k` of sixteen; `cc`, `dd` and `ee` are where this block of sixteen words,
the next one and the one before begin. -/
def taps (s : HC128State) (k : Fin 16) : HC128Taps :=
  have haligned := s.aligned
  let cc := s.counter1024 % 512
  let dd := (cc + 16) % 512
  let ee := (cc + 496) % 512
  { m0 := ⟨cc + k, by omega⟩
    m511 := if h : k.val < 15 then ⟨cc + k + 1, by omega⟩ else ⟨dd, by omega⟩
    m3 := if h : k.val < 3 then ⟨ee + 13 + k, by omega⟩ else ⟨cc + (k - 3), by omega⟩
    m10 := if h : k.val < 10 then ⟨ee + 6 + k, by omega⟩ else ⟨cc + (k - 10), by omega⟩
    m12 := if h : k.val < 12 then ⟨ee + 4 + k, by omega⟩ else ⟨cc + (k - 12), by omega⟩ }

def advance (s : HC128State) : HC128State :=
  { s with
    counter1024 := (s.counter1024 + 16) % 1024
    aligned := by have := s.aligned; omega
    lt := Nat.mod_lt _ (by omega) }

def nextKeys (s : HC128State) : HC128State :=
  let run := fun (rot : UInt32 → UInt32 → UInt32) (own other : HC128Table) =>
    (List.finRange 16).foldl (fun (x : HC128Table × Vector UInt32 16) k =>
      let (own, w) := hc128Step rot x.1 other (s.taps k)
      (own, x.2.set k w)) (own, s.keystream)
  if s.counter1024 < 512 then
    let (P, keystream) := run rotr32 s.P s.Q
    { s.advance with P := P, keystream }
  else
    let (Q, keystream) := run rotl32 s.Q s.P
    { s.advance with Q := Q, keystream }

def updateSixteenSteps (s : HC128State) : HC128State :=
  let run := fun (rot : UInt32 → UInt32 → UInt32) (own other : HC128Table) =>
    (List.finRange 16).foldl (fun own k => hc128Update rot own other (s.taps k)) own
  if s.counter1024 < 512 then { s.advance with P := run rotr32 s.P s.Q }
  else { s.advance with Q := run rotl32 s.Q s.P }

end HC128State

def hc128F1 (x : UInt32) : UInt32 := rotr32 x 7 ^^^ rotr32 x 18 ^^^ x >>> 3

def hc128F2 (x : UInt32) : UInt32 := rotr32 x 17 ^^^ rotr32 x 19 ^^^ x >>> 10

def hc128Expand (add : UInt32) (hi : ℕ) (T : HC128Table) : HC128Table :=
  ((List.finRange 512).filter fun i => 16 ≤ i.val && i.val < hi).foldl
    (fun (T : HC128Table) (i : Fin 512) =>
      let w := fun back => T.get ⟨i.val - back, by omega⟩
      T.set i (hc128F2 (w 2) + w 7 + hc128F1 (w 15) + w 16 + (add + UInt32.ofNat i))) T

def hc128Copy (src : HC128Table) (pos : ℕ) (hpos : pos + 16 ≤ 512) (T : HC128Table) : HC128Table :=
  (List.finRange 16).foldl (fun (T : HC128Table) (i : Fin 16) =>
    T.set i.val (src.get ⟨pos + i, by omega⟩)) T

def hc128Load (key iv : Blob) (T : HC128Table) : HC128Table :=
  (List.finRange 16).foldl (fun (T : HC128Table) (i : Fin 16) =>
    T.set i.val (readWord (if i.val < 8 then key else iv) (4 * (i.val % 4)))) T

def HC128State.init (s : HC128State) (key iv : Blob) : HC128State :=
  let P := hc128Expand 0 272 (hc128Load key iv s.P)
  let P := hc128Expand 256 512 (hc128Copy P 256 (by omega) P)
  let Q := hc128Expand 752 32 (hc128Copy P 496 (by omega) s.Q)
  let Q := hc128Expand 768 512 (hc128Copy Q 16 (by omega) Q)
  Nat.repeat HC128State.updateSixteenSteps 64
    { s with P := P, Q := Q, counter1024 := 0, aligned := by omega, lt := by omega }

def HC128State.blank : HC128State :=
  { P := Vector.replicate 512 0, Q := Vector.replicate 512 0, keystream := Vector.replicate 16 0,
    counter1024 := 0, aligned := by omega, lt := by omega }

def xorWords (message : Blob) (keystream : Vector UInt32 16) : Blob :=
  (List.finRange 16).flatMap fun j : Fin 16 =>
    wordBytes (readWord message (4 * j) ^^^ keystream.get j)

def HC128State.encryptMessage (s : HC128State) (message : Blob) : HC128State × Blob :=
  if 64 ≤ message.length then
    let s := s.nextKeys
    let (s', rest) := s.encryptMessage (message.drop 64)
    (s', xorWords message s.keystream ++ rest)
  else if message = [] then (s, [])
  else
    let s := s.nextKeys
    (s, message.zipWith (· ^^^ ·) (s.keystream.toList.flatMap wordBytes))
termination_by message.length
decreasing_by simp; omega

structure Rng where
  state : HC128State
  keyIdx : ℕ
  deriving DecidableEq

namespace Rng

def next (rng : Rng) : UInt32 × Rng :=
  if h : 15 < rng.keyIdx then
    let state := rng.state.nextKeys
    (state.keystream.get 0, ⟨state, 1⟩)
  else (rng.state.keystream.get ⟨rng.keyIdx, by omega⟩, ⟨rng.state, rng.keyIdx + 1⟩)

/-- A draw more than this has seen a state before: 1040 words, 64 places of the counter and 17 of
the next word. -/
@[irreducible] def states : ℕ := 2 ^ (32 * 1040) * 64 * 17

def u32Loop (mask max : UInt32) : ℕ → Rng → Option (UInt32 × Rng)
  | 0, _ => none
  | draws + 1, rng =>
    let (w, rng) := rng.next
    let r := w &&& mask
    if max < r then u32Loop mask max draws rng else some (r, rng)

/-- `HC128_U32`, a number below `max`. None if no acceptable word ever comes. -/
def u32 (rng : Rng) (max : UInt32) : Option (UInt32 × Rng) :=
  let max := max - 1
  let clz := 31 - (max ||| 1).toNat.log2
  u32Loop ((0xFFFFFFFF : UInt32) >>> UInt32.ofNat clz) max states rng

end Rng

end Nerva
