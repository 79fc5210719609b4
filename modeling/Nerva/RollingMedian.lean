import Mathlib.Data.Int.Notation
import Mathlib.Data.Nat.Notation
import Mathlib.Logic.Function.Basic

/-!
# The rolling median

`rolling_median_t` keeps the last `N` values in a ring and their order in two heaps that share the
median: slots to the right of it form a min heap, slots to the left a max heap.
-/

namespace Nerva

inductive Side
  | min
  | max
  deriving DecidableEq, Repr

namespace Side

def other : Side → Side
  | .min => .max
  | .max => .min

/-- The heap index of the `k`-th slot of a side; slot 0 is the median. -/
def slot : Side → ℕ → ℤ
  | .min, k => k
  | .max, k => -k

end Side

/-- `rolling_median_t`, with its arrays as functions. -/
structure RollingMedian where
  nItems : ℕ
  data : ℕ → ℕ
  pos : ℕ → ℤ
  heap : ℤ → ℕ
  idx : ℕ
  minCt : ℕ
  maxCt : ℕ
  sz : ℕ

namespace RollingMedian

/-- The slot the `k`-th value is put into first: median, max, min, max, ... -/
def fillPos (k : ℕ) : ℤ := if k % 2 = 1 then -((k + 1) / 2 : ℕ) else ((k + 1) / 2 : ℕ)

def fillHeap (i : ℤ) : ℕ := if i < 0 then 2 * i.natAbs - 1 else 2 * i.natAbs

variable (m : RollingMedian)

def clear : RollingMedian :=
  { m with pos := fillPos, heap := fillHeap, idx := 0, minCt := 0, maxCt := 0, sz := 0 }

def create (nItems : ℕ) (data : ℕ → ℕ) : RollingMedian where
  nItems := nItems
  data := data
  pos := fillPos
  heap := fillHeap
  idx := 0
  minCt := 0
  maxCt := 0
  sz := 0

def size : ℕ := m.sz

def mmless (i j : ℤ) : Bool := m.data (m.heap i) < m.data (m.heap j)

def mmexchange (i j : ℤ) : RollingMedian :=
  let heap := Function.update (Function.update m.heap i (m.heap j)) j (m.heap i)
  let pos := Function.update (Function.update m.pos (heap i) i) (heap j) j
  { m with heap, pos }

/-- `mmCmpExch`; none when there was nothing to exchange. -/
def mmCmpExch (i j : ℤ) : Option RollingMedian :=
  if m.mmless i j then some (m.mmexchange i j) else none

def ct : Side → ℕ
  | .min => m.minCt
  | .max => m.maxCt

/-- Slot `j` comes before slot `k`: it is smaller in the min heap, larger in the max heap. -/
def before : Side → ℕ → ℕ → Bool
  | .min, j, k => m.mmless j k
  | .max, j, k => m.mmless (-k) (-j)

/-- `mmCmpExch` of slot `j` with slot `k`, to be called when `j` is to be the lower one after. -/
def cmpExch : Side → ℕ → ℕ → Option RollingMedian
  | .min, j, k => m.mmCmpExch j k
  | .max, j, k => m.mmCmpExch (-k) (-j)

/-- The loop that moves slot `k` down; `k` doubles at every turn. -/
def sortDown (s : Side) : ℕ → RollingMedian → ℕ → RollingMedian
  | 0, m, _ => m
  | fuel + 1, m, k =>
    let j := k * 2
    if j ≤ m.ct s then
      let j := if j < m.ct s && m.before s (j + 1) j then j + 1 else j
      match m.cmpExch s j (j / 2) with
      | none => m
      | some m => sortDown s fuel m j
    else m

/-- The loop that moves slot `k` up; the flag says whether it has become the median. -/
def sortUp (s : Side) : ℕ → RollingMedian → ℕ → RollingMedian × Bool
  | 0, m, k => (m, k = 0)
  | fuel + 1, m, k =>
    if 0 < k then
      match m.cmpExch s k (k / 2) with
      | none => (m, false)
      | some m => sortUp s fuel m (k / 2)
    else (m, true)

def minSortDown (i : ℕ) : RollingMedian := sortDown .min m.minCt m i

def maxSortDown (i : ℕ) : RollingMedian := sortDown .max m.maxCt m i

def minSortUp (i : ℕ) : RollingMedian × Bool := sortUp .min i m i

def maxSortUp (i : ℕ) : RollingMedian × Bool := sortUp .max i m i

/-- `if (minSortUp(p) && mmCmpExch(0, -1)) maxSortDown(-1)`. -/
def settleMin (i : ℕ) : RollingMedian :=
  let (m, atMedian) := m.minSortUp i
  if atMedian then
    match m.mmCmpExch 0 (-1) with
    | none => m
    | some m => m.maxSortDown 1
  else m

/-- `if (maxSortUp(p) && minCt && mmCmpExch(1, 0)) minSortDown(1)`. -/
def settleMax (i : ℕ) : RollingMedian :=
  let (m, atMedian) := m.maxSortUp i
  if atMedian && decide (m.minCt ≠ 0) then
    match m.mmCmpExch 1 0 with
    | none => m
    | some m => m.minSortDown 1
  else m

def settleMedian : RollingMedian :=
  let m :=
    if m.maxCt ≠ 0 then
      let (m, atMedian) := m.maxSortUp 1
      if atMedian then m.maxSortDown 1 else m
    else m
  if m.minCt ≠ 0 then
    let (m, atMedian) := m.minSortUp 1
    if atMedian then m.minSortDown 1 else m
  else m

def insert (v : ℕ) : RollingMedian :=
  let p := m.pos m.idx
  let old := m.data m.idx
  let m := { m with
    data := Function.update m.data m.idx v
    idx := (m.idx + 1) % m.nItems
    sz := Nat.min (m.sz + 1) m.nItems }
  if 0 < p then
    if m.minCt < (m.nItems - 1) / 2 then { m with minCt := m.minCt + 1 }.settleMin p.natAbs
    else if old < v then m.minSortDown p.natAbs
    else m.settleMin p.natAbs
  else if p < 0 then
    if m.maxCt < m.nItems / 2 then { m with maxCt := m.maxCt + 1 }.settleMax p.natAbs
    else if v < old then m.maxSortDown p.natAbs
    else m.settleMax p.natAbs
  else m.settleMedian

def median : ℕ :=
  let v := m.data (m.heap 0)
  if m.minCt < m.maxCt then (v + m.data (m.heap (-1))) / 2 else v

end RollingMedian

end Nerva
