import Nerva.HardFork

/-!
# Picking decoys

`gamma_picker` takes an output at a drawn distance from the end of the chain and then any output of
its block. The loop of `wallet2::get_outs` draws until it has as many different outputs as it asks
the daemon for. The draws themselves, which go through floating point, are inputs. The daemon tells
how many outputs there are up to each block.
-/

namespace Nerva

inductive GammaError
  | badOffsetCalculation
  | noRctOutputs
  | outputIndexNotFound
  deriving DecidableEq, Repr

/-- `gamma_picker`: how many outputs there are up to each block, and how many can be spent. -/
structure GammaPicker where
  rctOffsets : List ℕ
  numRctOutputs : ℕ
  deriving DecidableEq, Repr

namespace GammaPicker

def usable (rctOffsets : List ℕ) : List ℕ :=
  rctOffsets.take (rctOffsets.length - (max 1 defaultTxSpendableAge - 1))

def make (rctOffsets : List ℕ) : Except GammaError GammaPicker :=
  if rctOffsets.length ≤ defaultTxSpendableAge then .error .badOffsetCalculation
  else
    let numRctOutputs := (usable rctOffsets).getLastD 0
    if numRctOutputs = 0 then .error .noRctOutputs else .ok ⟨rctOffsets, numRctOutputs⟩

/-- `std::lower_bound`: the first block with at least that many outputs up to it. -/
def lowerBound (g : GammaPicker) (outputIndex : ℕ) : ℕ :=
  (usable g.rctOffsets).findIdx fun offset => !decide (offset < outputIndex)

def firstRct (g : GammaPicker) (index : ℕ) : ℕ :=
  if index = 0 then 0 else g.rctOffsets.getD (index - 1) 0

/-- `pick`, from the drawn distance `n` to the last output that can be spent; `draw` is for
`crypto::rand_idx`. A bad pick, the largest number in the source, is `none`. -/
def pick (g : GammaPicker) (n draw : ℕ) : Except GammaError (Option ℕ) :=
  if g.numRctOutputs ≤ n then .ok none
  else
    let index := g.lowerBound (g.numRctOutputs - 1 - n)
    if index = (usable g.rctOffsets).length then .error .outputIndexNotFound
    else
      let nRct := g.rctOffsets.getD index 0 - g.firstRct index
      .ok (if nRct = 0 then none else some (g.firstRct index + draw % nRct))

end GammaPicker

/-- What the loop changes; `picks` are the outputs it has added to the lists. -/
structure Picking where
  numFound : ℕ := 1
  numUsableOuts : ℕ
  allowBlackballed : Bool := false
  seenIndices : List ℕ
  picks : List ℕ := []
  deriving DecidableEq, Repr

structure PickingEnv where
  numOuts : ℕ
  requestedOutputsCount : ℕ
  isOutputBlackballed : ℕ → Bool

namespace Picking

variable (env : PickingEnv)

def start (real : ℕ) : Picking where
  numUsableOuts := env.numOuts
  seenIndices := [real]

/-- The loop is left: there are enough, or every output has been gone through twice. -/
def done (s : Picking) : Bool :=
  decide (env.requestedOutputsCount ≤ s.numFound) ||
    (s.seenIndices.length = s.numUsableOuts && s.allowBlackballed)

def allowing (s : Picking) : Picking :=
  if s.seenIndices.length = s.numUsableOuts then
    { s with allowBlackballed := true, numUsableOuts := env.numOuts }
  else s

def take (s : Picking) (i : ℕ) : Picking :=
  if i ∈ s.seenIndices then s
  else if !s.allowBlackballed && env.isOutputBlackballed i then
    { s with numUsableOuts := s.numUsableOuts - 1 }
  else
    { s with
      seenIndices := i :: s.seenIndices
      picks := s.picks ++ [i]
      numFound := s.numFound + 1 }

def round (s : Picking) (i : ℕ) : Picking :=
  if s.done env then s else (s.allowing env).take env i

def after (real : ℕ) (draws : ℕ → ℕ) : ℕ → Picking
  | 0 => start env real
  | n + 1 => (after real draws n).round env (draws n)

end Picking

inductive NetworkType
  | mainnet
  | testnet
  | stagenet
  | fakechain
  | undefined

/-- Where `get_output_distribution` takes RingCT outputs to begin: `hard_forks[3].height`. -/
def NetworkType.rctStart : NetworkType → Option ℕ
  | mainnet => ForkTable.mainnet.forks[3]?.map (·.height)
  | testnet | stagenet => ForkTable.testnet.forks[3]?.map (·.height)
  | fakechain => some 0
  | undefined => none

structure OutputDistribution where
  startHeight : ℕ
  distribution : List ℕ
  base : ℕ

/-- `get_output_distribution` returns false, throws or answers. -/
inductive DistributionResult
  | refused
  | lengthError
  | found (d : OutputDistribution)

def BlockInfo.numRctOuts (b : BlockInfo) : ℕ :=
  b.bl.minerTx.vout.length + (b.txs.flatMap (·.vout)).countP (·.amount = 0)

namespace BlockchainDB

def cumRct (db : BlockchainDB) : ℕ → ℕ
  | 0 => (db.blocks[0]?.map (·.numRctOuts)).getD 0
  | h + 1 => (db.blocks[h + 1]?.map (·.numRctOuts)).getD 0 + cumRct db h

/-- The part for amount 0, from the test of the heights on. When `to_height + 1 - start_height`
wraps, `reserve` throws. -/
def distributionFrom (db : BlockchainDB) (startHeight toHeight : ℕ) : DistributionResult :=
  if db.height = 0 ∨ db.height ≤ startHeight ∨ db.height ≤ toHeight then .refused
  else if toHeight + 1 < startHeight then .lengthError
  else
    let realStartHeight := if 0 < startHeight then startHeight - 1 else startHeight
    let distribution :=
      (List.range' realStartHeight (toHeight + 1 - realStartHeight)).map db.cumRct
    if 0 < startHeight then .found ⟨startHeight, distribution.tail, distribution.headD 0⟩
    else .found ⟨startHeight, distribution, 0⟩

def getOutputDistribution (db : BlockchainDB) (nettype : NetworkType) (fromHeight toHeight : ℕ) :
    DistributionResult :=
  match nettype.rctStart with
  | none => .refused
  | some fork =>
    if 0 < toHeight ∧ toHeight < fromHeight then .refused
    else db.distributionFrom (max fork fromHeight) toHeight

end BlockchainDB

end Nerva
