import Nerva.Basic
import Nerva.Lib.TimedTable

/-!
# Peer lists

`peerlist_manager` keeps the addresses it has been connected to in a white list and those it has
only heard of in a gray one. Both are indexed by address and by the time the peer was last seen, and
trimmed from the oldest on.
-/

namespace Nerva

def p2pLocalWhitePeerlistLimit : ℕ := 1000
def p2pLocalGrayPeerlistLimit : ℕ := 5000

/-- `network_address`: none, or an address of one of the kinds. An `ipv4` address is the number that
its bytes in memory spell, the first byte least significant. -/
inductive NetworkAddress
  | invalid
  | ipv4 (ip : UInt32) (port : UInt16)
  | ipv6 (address : BitVec 128) (port : UInt16)
  | i2p (host : String) (port : UInt16)
  | tor (host : String) (port : UInt16)
  deriving DecidableEq, Repr

def isIpLoopback (ip : UInt32) : Bool := ip ||| 0xffffff00 = 0xffffff7f

def isIpLocal (ip : UInt32) : Bool :=
  ip ||| 0xffffff00 = 0xffffff0a || ip ||| 0xffff0000 = 0xffffa8c0 ||
    (ip ||| 0xffffff00 = 0xffffffac &&
      let secondNum := (ip >>> 8) &&& 0xff
      16 ≤ secondNum && secondNum ≤ 31)

namespace NetworkAddress

/-- `is_loopback`; for an IPv6 address, that it is `::1`. -/
def isLoopback : NetworkAddress → Bool
  | ipv4 ip _ => isIpLoopback ip
  | ipv6 address _ => address = 1
  | invalid | i2p _ _ | tor _ _ => false

/-- `is_local`; for an IPv6 address, that it is link-local, in `fe80::/10`. -/
def isLocal : NetworkAddress → Bool
  | ipv4 ip _ => isIpLocal ip
  | ipv6 address _ => address >>> 118 = 0x3fa
  | invalid | i2p _ _ | tor _ _ => false

end NetworkAddress

structure PeerlistEntry where
  adr : NetworkAddress
  id : UInt64
  lastSeen : ℤ
  pruningSeed : UInt32
  rpcPort : UInt16
  deriving DecidableEq, Repr

abbrev PeersIndexed := TimedTable PeerlistEntry.adr PeerlistEntry.lastSeen

structure PeerlistManager where
  allowLocalIp : Bool
  peersWhite : PeersIndexed := .empty
  peersGray : PeersIndexed := .empty

/-- An entry with the address of `ple` takes its data, but keeps the time, and a pruning seed or
port that `ple` does not give. -/
def PeerlistEntry.update (ple e : PeerlistEntry) : PeerlistEntry :=
  if e.adr = ple.adr then
    { ple with
      pruningSeed :=
        if e.pruningSeed ≠ 0 ∧ ple.pruningSeed = 0 then e.pruningSeed else ple.pruningSeed
      rpcPort := if e.rpcPort ≠ 0 ∧ ple.rpcPort = 0 then e.rpcPort else ple.rpcPort
      lastSeen := e.lastSeen }
  else e

theorem PeerlistEntry.update_adr (ple e : PeerlistEntry) : (ple.update e).adr = e.adr := by
  unfold update
  by_cases h : e.adr = ple.adr
  · rw [if_pos h, h]
  · rw [if_neg h]

theorem PeerlistEntry.update_lastSeen (ple e : PeerlistEntry) :
    (ple.update e).lastSeen = e.lastSeen := by
  unfold update
  by_cases h : e.adr = ple.adr
  · rw [if_pos h]
  · rw [if_neg h]

def PeersIndexed.append (peers : PeersIndexed) (limit : ℕ) (ple : PeerlistEntry) : PeersIndexed :=
  if ple.adr ∈ peers.keys then
    peers.modify ple.update ple.update_adr ple.update_lastSeen
  else (peers.insert ple).trim limit

namespace PeerlistManager

variable (m : PeerlistManager)

def isHostAllowed (address : NetworkAddress) : Bool :=
  !address.isLoopback && (m.allowLocalIp || !address.isLocal)

def appendWithPeerWhite (ple : PeerlistEntry) : PeerlistManager :=
  if m.isHostAllowed ple.adr then
    { m with
      peersWhite := m.peersWhite.append p2pLocalWhitePeerlistLimit ple
      peersGray := m.peersGray.erase ple.adr }
  else m

def appendWithPeerGray (ple : PeerlistEntry) : PeerlistManager :=
  if m.isHostAllowed ple.adr ∧ ple.adr ∉ m.peersWhite.keys then
    { m with peersGray := m.peersGray.append p2pLocalGrayPeerlistLimit ple }
  else m

def mergePeerlist (outerBs : List PeerlistEntry) : PeerlistManager :=
  let m := outerBs.foldl appendWithPeerGray m
  { m with peersGray := m.peersGray.trim p2pLocalGrayPeerlistLimit }

def setPeerJustSeen (now : ℤ) (peer : UInt64) (addr : NetworkAddress) (pruningSeed : UInt32)
    (rpcPort : UInt16) : PeerlistManager :=
  m.appendWithPeerWhite ⟨addr, peer, now, pruningSeed, rpcPort⟩

def removeFromPeerWhite (pe : PeerlistEntry) : PeerlistManager :=
  { m with peersWhite := m.peersWhite.erase pe.adr }

def removeFromPeerGray (pe : PeerlistEntry) : PeerlistManager :=
  { m with peersGray := m.peersGray.erase pe.adr }

inductive Op
  | mergePeerlist (outerBs : List PeerlistEntry)
  | appendWithPeerWhite (ple : PeerlistEntry)
  | appendWithPeerGray (ple : PeerlistEntry)
  | setPeerJustSeen (now : ℤ) (peer : UInt64) (addr : NetworkAddress) (pruningSeed : UInt32)
      (rpcPort : UInt16)
  | removeFromPeerWhite (pe : PeerlistEntry)
  | removeFromPeerGray (pe : PeerlistEntry)

def step : Op → PeerlistManager
  | .mergePeerlist outerBs => m.mergePeerlist outerBs
  | .appendWithPeerWhite ple => m.appendWithPeerWhite ple
  | .appendWithPeerGray ple => m.appendWithPeerGray ple
  | .setPeerJustSeen now peer addr pruningSeed rpcPort =>
    m.setPeerJustSeen now peer addr pruningSeed rpcPort
  | .removeFromPeerWhite pe => m.removeFromPeerWhite pe
  | .removeFromPeerGray pe => m.removeFromPeerGray pe

def run (ops : List Op) : PeerlistManager := ops.foldl step m

end PeerlistManager

end Nerva
