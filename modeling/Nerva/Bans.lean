import Mathlib.Algebra.Ring.Int.Defs
import Mathlib.Algebra.Ring.Nat
import Mathlib.Data.List.Sort
import Nerva.PeerList

/-!
# Bans

`ipv4_network_subnet`, as `get_ipv4_subnet_address` reads it, and the tables of banned hosts and
subnets of `node_server`. An address is the number that its bytes in memory spell, and so is the
address of a subnet.
-/

namespace Nerva

/-! ## Subnets -/

structure Ipv4NetworkSubnet where
  ip : UInt32
  mask : ℕ
  deriving DecidableEq, Repr

namespace Ipv4NetworkSubnet

variable (s other : Ipv4NetworkSubnet)

/-- The masked address, in 64 bits. -/
def masked (ip : UInt32) : BitVec 64 := ip.toBitVec.setWidth 64 &&& ~~~(0xffffffff#64 <<< s.mask)

def subnet : BitVec 32 := (s.masked s.ip).setWidth 32

def less : Bool :=
  if s.subnet.toNat < other.subnet.toNat then true
  else if other.subnet.toNat < s.subnet.toNat then false
  else s.mask < other.mask

/-- The two are one key of a `std::map`. -/
def sameKey : Bool := !s.less other && !other.less s

def matchesIp (ip : UInt32) : Bool := s.masked ip = s.subnet.setWidth 64

end Ipv4NetworkSubnet

inductive NetError
  | invalidMask
  | invalidHost
  deriving DecidableEq, Repr

/-- `get_xtype_from_string` for a `uint32_t`. -/
def getXtypeFromString (strId : List Char) : Option ℕ :=
  if strId ≠ [] ∧ strId.all Char.isDigit then
    let val := strId.foldl (fun n c => 10 * n + (c.toNat - '0'.toNat)) 0
    if val < 2 ^ 32 then some val else none
  else none

/-- `get_ip_int32_from_string`, with `inet_addr` given. -/
def getIpInt32FromString (inetAddr : List Char → UInt32) (ipStr : List Char) : Option UInt32 :=
  if inetAddr ipStr = 0xffffffff then none else some (inetAddr ipStr)

def getIpv4SubnetAddress (inetAddr : List Char → UInt32) (address : List Char)
    (allowImplicit32 : Bool) : Except NetError Ipv4NetworkSubnet :=
  let withHost mask :=
    match getIpInt32FromString inetAddr (address.takeWhile (· ≠ '/')) with
    | none => .error .invalidHost
    | some ip => .ok ⟨ip, mask⟩
  match address.dropWhile (· ≠ '/') with
  | [] => if allowImplicit32 then withHost 32 else .error .invalidMask
  | _ :: text =>
    match getXtypeFromString text with
    | none => .error .invalidMask
    | some mask => if 32 < mask then .error .invalidMask else withHost mask

/-! ## The tables -/

namespace NetworkAddress

/-- What `host_str` tells addresses apart by. -/
def host : NetworkAddress → NetworkAddress
  | invalid => invalid
  | ipv4 ip _ => ipv4 ip 0
  | ipv6 address _ => ipv6 address 0
  | i2p host _ => i2p host 0
  | tor host _ => tor host 0

def isBlockable : NetworkAddress → Bool
  | invalid => false
  | ipv4 _ _ | ipv6 _ _ => true
  | i2p host _ => host != "<unknown i2p host>"
  | tor host _ => host != "<unknown tor host>"

end NetworkAddress

/-- `m_blocked_hosts`, by host, and `m_blocked_subnets`, in the order of its keys; each with the
time at which the ban ends. -/
structure Bans where
  blockedHosts : NetworkAddress → Option ℤ
  blockedSubnets : List (Ipv4NetworkSubnet × ℤ)

namespace Bans

variable (b : Bans)

def maxTime : ℤ := 2 ^ 63 - 1

/-- The end of a ban, `P2P_IP_BLOCKTIME` from now if no time is given. -/
def banLimit (mainnet : Bool) (now seconds : ℤ) : ℤ :=
  let seconds := if seconds = 0 then (if mainnet then 60 * 60 * 24 else 60 * 5) else seconds
  if maxTime - seconds < now then maxTime else now + seconds

def setHost (host : NetworkAddress) (limit : Option ℤ) : Bans :=
  { b with blockedHosts := fun h => if h = host then limit else b.blockedHosts h }

def blockHost (mainnet : Bool) (now : ℤ) (addr : NetworkAddress) (seconds : ℤ) : Bans :=
  if addr.isBlockable then b.setHost addr.host (some (banLimit mainnet now seconds)) else b

def unblockHost (address : NetworkAddress) : Bans := b.setHost address.host none

def unblockSubnet (subnet : Ipv4NetworkSubnet) : Bans :=
  { b with blockedSubnets := b.blockedSubnets.filter fun e => !subnet.sameKey e.1 }

def blockSubnet (mainnet : Bool) (now : ℤ) (subnet : Ipv4NetworkSubnet) (seconds : ℤ) : Bans :=
  let limit := banLimit mainnet now seconds
  let others := (b.unblockSubnet subnet).blockedSubnets
  { b with blockedSubnets := others.orderedInsert (fun e e' => e.1.less e'.1) (subnet, limit) }

/-- The loop over the subnets: the verdict and the entries that are left. Where an entry is erased
the log statement reads the one after it; `none` where there is none. -/
def sweep (now : ℤ) (ip : UInt32) :
    List (Ipv4NetworkSubnet × ℤ) → Option (Bool × List (Ipv4NetworkSubnet × ℤ))
  | [] => some (true, [])
  | e :: rest =>
    if e.2 ≤ now then if rest = [] then none else sweep now ip rest
    else if e.1.matchesIp ip then some (false, e :: rest)
    else (sweep now ip rest).map fun r => (r.1, e :: r.2)

def isRemoteHostAllowed (now : ℤ) (address : NetworkAddress) : Option (Bool × Bans) :=
  if (b.blockedHosts address.host).any (now < ·) then some (false, b)
  else
    let b := b.setHost address.host none
    match address with
    | .ipv4 ip _ =>
      (sweep now ip b.blockedSubnets).map fun r => (r.1, { b with blockedSubnets := r.2 })
    | _ => some (true, b)

end Bans

end Nerva
