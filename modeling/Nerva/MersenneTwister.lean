import Nerva.ChainFill
import Nerva.Lib.Binary64

/-!
# The generator of proof of work versions 9 and 10

`angrywasp::mersenne_twister`. `next` scales a word to a range in double precision arithmetic, both
ends of the range included.
-/

namespace Nerva

open Traced Binary64

structure MersenneTwister where
  mt : Vector UInt32 624
  mti : ℕ
  deriving DecidableEq

namespace MersenneTwister

def setSeed (seed : UInt32) : MersenneTwister :=
  let mt := (List.finRange 624).foldl (fun (mt : Vector UInt32 624) (i : Fin 624) =>
    mt.set i (if i.val = 0 then seed else 69069 * mt.get ⟨i - 1, by omega⟩))
      (Vector.replicate 624 0)
  ⟨mt, 624⟩

def twist (mt : Vector UInt32 624) (kk : Fin 624) : Vector UInt32 624 :=
  let y := mt.get kk &&& 0x80000000 ||| mt.get ⟨(kk + 1) % 624, by omega⟩ &&& 0x7fffffff
  mt.set kk (mt.get ⟨(kk + 397) % 624, by omega⟩ ^^^ y >>> 1 ^^^
    (if y &&& 1 = 0 then 0 else 0x9908b0df))

def temper (y : UInt32) : UInt32 :=
  let y := y ^^^ y >>> 11
  let y := y ^^^ y <<< 7 &&& 0x9d2c5680
  let y := y ^^^ y <<< 15 &&& 0xefc60000
  y ^^^ y >>> 18

def generateUint (g : MersenneTwister) : UInt32 × MersenneTwister :=
  if h : g.mti < 624 then (temper (g.mt.get ⟨g.mti, h⟩), { g with mti := g.mti + 1 })
  else
    let mt := (List.finRange 624).foldl twist g.mt
    (temper (mt.get 0), ⟨mt, 1⟩)

/-- The word `r` scaled to the range of this length from `min` on, as a double. The quotient by a
length of zero is infinite, and dividing by it gives zero. -/
def scale (r min length : UInt32) : ℚ :=
  let div := round64 (0xffffffff / length.toNat)
  let q := if length = 0 then 0 else round64 (r.toNat / div)
  round64 (q + min.toNat)

/-- `next`. The double goes to an integer by truncation, and to 32 bits by what the machine
keeps. -/
def next (g : MersenneTwister) (min max : UInt32) : PowM (UInt32 × MersenneTwister) := do
  let (r, g) := g.generateUint
  emit (.sub max.toNat min.toNat)
  return (UInt32.ofNat ⌊scale r min (max - min)⌋₊, g)

end MersenneTwister

end Nerva
