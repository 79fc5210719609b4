import Nerva.PeerList
import Nerva.Pruning

/-!
# Choosing a peer to connect to

A round of `make_new_connection_from_peerlist`: the listed peers that have the needed pruning stripe
and are in no network already connected to, and the choice among them. Peers that have been used for
a stripe before are kept in a list for it, and tried first.
-/

namespace Nerva

/-! ## The peers kept for a stripe -/

/-- `m_used_stripe_peers`, by the stripe less one. -/
abbrev UsedStripePeers := ℕ → List NetworkAddress

def stripeIndex (stripe : ℕ) : Option ℕ :=
  if stripe = 0 ∨ 2 ^ cryptonotePruningLogStripes < stripe then none else some (stripe - 1)

/-- What `std::remove_if` leaves: those that stay, moved to the front, and then the rest of the list
as it was, without what has been moved away. -/
def removeIf (p : NetworkAddress → Bool) (l : List NetworkAddress) : List NetworkAddress :=
  let kept := l.filter fun a => !p a
  kept ++ (l.drop kept.length).map fun a => if p a then a else .invalid

namespace UsedStripePeers

variable (u : UsedStripePeers)

def onStripe (stripe : ℕ) (f : List NetworkAddress → List NetworkAddress) : UsedStripePeers :=
  match stripeIndex stripe with
  | none => u
  | some index => Function.update u index (f (u index))

def addUsedStripePeer (pruningSeed : UInt32) (remoteAddress : NetworkAddress) : UsedStripePeers :=
  u.onStripe (getPruningStripe pruningSeed) fun l =>
    removeIf (fun a => remoteAddress = a) l ++ [remoteAddress]

def removeUsedStripePeer (pruningSeed : UInt32) (remoteAddress : NetworkAddress) :
    UsedStripePeers :=
  u.onStripe (getPruningStripe pruningSeed) (removeIf fun a => remoteAddress = a)

def clearUsedStripePeers : UsedStripePeers := fun _ => []

/-- The reuse step: the first peer kept for the needed stripe is taken from the list. -/
def reuse (nextNeededPruningStripe : ℕ) : Option NetworkAddress × UsedStripePeers :=
  ((stripeIndex nextNeededPruningStripe).bind fun index => (u index).head?,
    u.onStripe nextNeededPruningStripe List.tail)

inductive Op
  | add (pruningSeed : UInt32) (remoteAddress : NetworkAddress)
  | remove (pruningSeed : UInt32) (remoteAddress : NetworkAddress)
  | clear
  | reuse (nextNeededPruningStripe : ℕ)

def step : Op → UsedStripePeers
  | .add pruningSeed remoteAddress => u.addUsedStripePeer pruningSeed remoteAddress
  | .remove pruningSeed remoteAddress => u.removeUsedStripePeer pruningSeed remoteAddress
  | .clear => clearUsedStripePeers
  | .reuse nextNeededPruningStripe => (u.reuse nextNeededPruningStripe).2

end UsedStripePeers

/-! ## A round -/

/-- `connected_subnets` of the public zone. -/
def connectedSubnets (subnetMask : UInt32) (connected : List NetworkAddress) : List UInt32 :=
  connected.filterMap fun
    | .ipv4 ip _ => some (ip &&& subnetMask)
    | _ => none

/-- The peer shares its masked address with a connection. -/
def inSubnet (subnetMask : UInt32) (connected : List NetworkAddress) : NetworkAddress → Bool
  | .ipv4 ip _ => decide (ip &&& subnetMask ∈ connectedSubnets subnetMask connected)
  | _ => false

def whiteLimit (whitePeersCount tryCount : ℕ) : ℕ :=
  if 100 < whitePeersCount ∧ 3 < tryCount then whitePeersCount
  else if 50 < whitePeersCount ∧ 2 < tryCount then min whitePeersCount 100
  else if 30 < whitePeersCount ∧ 1 < tryCount then min whitePeersCount 50
  else min whitePeersCount 30

/-- The walk over the list: the places of the peers that pass, and how many are skipped. -/
def filterPeers (skip : PeerlistEntry → Bool) (limit nextNeededPruningStripe : ℕ) :
    ℕ → List ℕ → ℕ → List PeerlistEntry → List ℕ × ℕ
  | _, filtered, skipped, [] => (filtered, skipped)
  | idx, filtered, skipped, pe :: pes =>
    if limit ≤ filtered.length then (filtered, skipped)
    else if skip pe then
      filterPeers skip limit nextNeededPruningStripe (idx + 1) filtered (skipped + 1) pes
    else if nextNeededPruningStripe = 0 ∨ pe.pruningSeed = 0 then
      filterPeers skip limit nextNeededPruningStripe (idx + 1) (filtered ++ [idx]) skipped pes
    else if nextNeededPruningStripe = getPruningStripe pe.pruningSeed then
      filterPeers skip limit nextNeededPruningStripe (idx + 1) (idx :: filtered) skipped pes
    else filterPeers skip limit nextNeededPruningStripe (idx + 1) filtered skipped pes

/-- What a round reads; `peers` is the white or the gray list and `draw` the random number. -/
structure PickRound where
  useWhiteList : Bool
  peers : PeersIndexed
  tryCount : ℕ
  nextNeededPruningStripe : ℕ
  usedStripePeers : UsedStripePeers
  draw : ℕ

namespace PickRound

variable (r : PickRound)

/-- The latest first, as `foreach` and the `get_..._peer_by_index` functions have them. -/
def byTime : List PeerlistEntry := r.peers.entries.reverse

def limit : ℕ := if r.useWhiteList then whiteLimit r.byTime.length r.tryCount else 2 ^ 64 - 1

/-- Two passes: the second one, for want of others, with peers in the networks connected to. -/
def filtered (connected : List NetworkAddress) : List ℕ :=
  let pass skip := filterPeers skip r.limit r.nextNeededPruningStripe 0 [] 0 r.byTime
  let first := pass fun pe => inSubnet 0xffffff00 connected pe.adr
  if first.2 = 0 ∨ first.1 ≠ [] then first.1 else (pass fun _ => false).1

def getRandomIndexWithFixedProbability (draw maxIndex : ℕ) : ℕ :=
  if maxIndex = 0 then 0
  else
    let x := draw % (maxIndex + 1)
    x * x * x / (maxIndex * maxIndex)

/-- The peer that the round goes on with, if any passes. -/
def pick (connected : List NetworkAddress) : Option PeerlistEntry :=
  let filtered := r.filtered connected
  let randomIndex :=
    if r.useWhiteList then
      let random := getRandomIndexWithFixedProbability r.draw (min (filtered.length - 1) r.limit)
      match (r.usedStripePeers.reuse r.nextNeededPruningStripe).1 with
      | none => random
      | some na =>
        (filtered.findIdx? fun idx => r.byTime[idx]?.any fun pe => pe.adr = na).getD random
    else r.draw % filtered.length
  filtered[randomIndex]?.bind (r.byTime[·]?)

end PickRound

end Nerva
