import Nerva.Bans
import Nerva.Lib.Runs

/-!
# What a ban keeps out

The mask of a subnet goes to the low bits of the address as it is in memory: the first octets, but
of an octet the least significant bits. A verdict is right for all the bans there have been; but to
log that the last one of the table has expired, it reads past the end.
-/

namespace Nerva

/-! ## Subnets -/

/-- The octets of an address, first to last, as they are in memory. -/
def octet (ip : UInt32) (k : ℕ) : BitVec 8 := (ip.toBitVec >>> (8 * k)).setWidth 8

/-- The bits from the most significant one of the first octet on. -/
def addressBit (ip : UInt32) (i : ℕ) : Bool := (octet ip (i / 8)).getMsbD (i % 8)

/-- The first `m` bits of the two addresses agree. -/
def Agree (m : ℕ) (a b : UInt32) : Prop := ∀ i < m, addressBit a i = addressBit b i

/-- The bit of the number that is bit `i` of the address, and the other way round. -/
def place (i : ℕ) : ℕ := 8 * (i / 8) + (7 - i % 8)

/-- The bits of an octet stand in the number the other way round. -/
theorem addressBit_eq (ip : UInt32) (i : ℕ) : addressBit ip i = ip.toBitVec.getLsbD (place i) := by
  have hi : i % 8 < 8 := Nat.mod_lt i (by decide)
  have h7 : 8 - 1 - i % 8 < 8 := by omega
  simp [addressBit, octet, place, BitVec.getMsbD, hi, h7]

theorem place_place (i : ℕ) : place (place i) = i := by
  unfold place
  omega

theorem place_lt {m i : ℕ} (hm : 8 ∣ m) (hi : i < m) : place i < m := by
  unfold place
  omega

/-- Up to the end of an octet it does not matter from which side its bits are counted. -/
theorem agree_iff_of_dvd {m : ℕ} (hm : 8 ∣ m) (a b : UInt32) :
    Agree m a b ↔ ∀ j < m, a.toBitVec.getLsbD j = b.toBitVec.getLsbD j := by
  simp only [Agree, addressBit_eq]
  refine ⟨fun h j hj => ?_, fun h i hi => h _ (place_lt hm hi)⟩
  simpa only [place_place] using h (place j) (place_lt hm hj)

/-- An address that differs in one bit. -/
theorem exists_flipped (b : UInt32) {k : ℕ} (hk : k < 32) :
    ∃ a : UInt32, ∀ j, a.toBitVec.getLsbD j = (b.toBitVec.getLsbD j ^^ decide (j = k)) := by
  refine ⟨⟨b.toBitVec ^^^ BitVec.twoPow 32 k⟩, fun j => ?_⟩
  simp [BitVec.getLsbD_twoPow, hk, eq_comm]

theorem exists_agree_not (b : UInt32) {m : ℕ} (hm : m < 32) :
    ∃ a, addressBit a m ≠ addressBit b m ∧
      ∀ j, j ≠ place m → a.toBitVec.getLsbD j = b.toBitVec.getLsbD j := by
  obtain ⟨a, ha⟩ := exists_flipped b (place_lt (m := 32) (by decide) hm)
  refine ⟨a, ?_, fun j hj => ?_⟩
  · simp [addressBit_eq, ha]
  · simp [ha, hj]

/-- A prefix that has no more addresses than another is at least as long. -/
theorem le_of_agree_iff {m m' : ℕ} {b b' : UInt32} (hm' : m' ≤ 32)
    (h : ∀ a, Agree m a b ↔ Agree m' a b') : m' ≤ m := by
  by_contra hlt
  obtain ⟨a, hne, hsame⟩ := exists_agree_not b' (show m < 32 by omega)
  have hb' : Agree m b' b := (h b').2 fun _ _ => rfl
  refine hne ((h a).1 (fun i hi => ?_) m (by omega))
  rw [← hb' i hi, addressBit_eq, addressBit_eq]
  refine hsame _ fun heq => ?_
  have := congrArg place heq
  simp only [place_place] at this
  omega

namespace Ipv4NetworkSubnet

variable {s s' : Ipv4NetworkSubnet}

/-- The mask keeps the low bits. -/
theorem getLsbD_masked (h : s.mask ≤ 32) (ip : UInt32) (j : ℕ) :
    (s.masked ip).getLsbD j = (decide (j < s.mask) && ip.toBitVec.getLsbD j) := by
  have hones : ∀ k < 32, (0xffffffff#64).getLsbD k = true := by decide
  by_cases hj : j < 32
  · have hj' : j < 64 := by omega
    simp only [masked, BitVec.getLsbD_and, BitVec.getLsbD_setWidth, BitVec.getLsbD_not,
      BitVec.getLsbD_shiftLeft, hj', hones (j - s.mask) (by omega)]
    simp [Bool.and_comm]
  · have hj' : ¬ j < s.mask := by omega
    simp [masked, hj', BitVec.getLsbD_of_ge _ _ (not_lt.1 hj)]

theorem setWidth_masked (h : s.mask ≤ 32) (ip : UInt32) :
    ((s.masked ip).setWidth 32).setWidth 64 = s.masked ip := by
  refine BitVec.eq_of_getLsbD_eq fun j hj => ?_
  by_cases hj' : j < 32
  · simp [hj, hj']
  · simp [getLsbD_masked h, BitVec.getLsbD_of_ge _ _ (not_lt.1 hj')]

/-- A subnet matches the addresses that have its low bits. -/
theorem matchesIp_iff (h : s.mask ≤ 32) (ip : UInt32) :
    s.matchesIp ip = true ↔ ∀ j < s.mask, ip.toBitVec.getLsbD j = s.ip.toBitVec.getLsbD j := by
  rw [matchesIp, decide_eq_true_iff, subnet, setWidth_masked h]
  refine ⟨fun heq j hj => ?_, fun heq => BitVec.eq_of_getLsbD_eq fun j _ => ?_⟩
  · simpa [getLsbD_masked h, hj] using congrArg (BitVec.getLsbD · j) heq
  · rw [getLsbD_masked h, getLsbD_masked h]
    by_cases hj : j < s.mask
    · rw [heq j hj]
    · simp [hj]

/-- Subnets are one key if they have the same mask and low bits. -/
theorem sameKey_iff (h' : s'.mask ≤ 32) :
    s.sameKey s' = true ↔ s.mask = s'.mask ∧ s.matchesIp s'.ip = true := by
  have hkey : s.sameKey s' = true ↔ s.mask = s'.mask ∧ s.subnet = s'.subnet := by
    rw [← BitVec.toNat_inj]
    unfold sameKey less
    split_ifs <;> simp <;> omega
  rw [hkey]
  refine and_congr_right fun hmask => ?_
  have hmasked : s.masked s'.ip = s'.subnet.setWidth 64 := by
    rw [masked, hmask]
    exact (setWidth_masked h' s'.ip).symm
  rw [matchesIp, decide_eq_true_iff, hmasked]
  exact ⟨fun heq => by rw [heq], fun heq => by simpa using (congrArg (BitVec.setWidth 32) heq).symm⟩

/-- The masks of accepted texts. -/
theorem mask_le {inetAddr : List Char → UInt32} {address : List Char} {allowImplicit32 : Bool}
    (h : getIpv4SubnetAddress inetAddr address allowImplicit32 = .ok s) : s.mask ≤ 32 := by
  unfold getIpv4SubnetAddress at h
  grind

/-- A subnet matches the addresses of its prefix, and is one key with those that have the same
addresses, just when the prefix ends with an octet. -/
theorem matchesIp_exact_iff {inetAddr : List Char → UInt32} {address : List Char}
    {allowImplicit32 : Bool} (h : getIpv4SubnetAddress inetAddr address allowImplicit32 = .ok s) :
    ((∀ a, s.matchesIp a = true ↔ Agree s.mask a s.ip) ∧
      ∀ address' allowImplicit32' s',
        getIpv4SubnetAddress inetAddr address' allowImplicit32' = .ok s' →
        (s.sameKey s' = true ↔ ∀ a, Agree s.mask a s.ip ↔ Agree s'.mask a s'.ip)) ↔
      8 ∣ s.mask := by
  have hs := mask_le h
  constructor
  · rintro ⟨hmatches, -⟩
    by_contra hdvd
    -- the first bit of the octet in which the prefix ends
    obtain ⟨a, hne, hsame⟩ := exists_agree_not s.ip (m := 8 * (s.mask / 8)) (by omega)
    refine hne ((hmatches a).1 ((matchesIp_iff hs a).2 fun j hj => hsame j ?_) _ (by omega))
    unfold place
    omega
  · intro hdvd
    have hmatches : ∀ a, s.matchesIp a = true ↔ Agree s.mask a s.ip := fun a => by
      rw [matchesIp_iff hs, agree_iff_of_dvd hdvd]
    refine ⟨hmatches, fun address' _ s' h' => ?_⟩
    have hs' := mask_le h'
    rw [sameKey_iff hs', hmatches]
    constructor
    · rintro ⟨hmask, hagree⟩ a
      rw [← hmask]
      exact forall₂_congr fun i hi => by rw [hagree i hi]
    · intro hiff
      exact ⟨le_antisymm (le_of_agree_iff hs fun a => (hiff a).symm) (le_of_agree_iff hs' hiff),
        (hiff s'.ip).2 fun _ _ => rfl⟩

/-- 10.0.0.0/8 and 10.1.1.1. -/
theorem matchesIp_octet : (Ipv4NetworkSubnet.mk 10 8).matchesIp 0x0101010a = true ↔
    Agree 8 0x0101010a 10 :=
  ((@matchesIp_exact_iff ⟨10, 8⟩ (fun _ => 10) ['1', '0', '/', '8'] false rfl).2 (by decide)).1 _

/-- 10.0.0.0/9 and 10.128.0.0. -/
theorem matchesIp_insideOctet :
    getIpv4SubnetAddress (fun _ => 10) ['1', '0', '.', '0', '.', '0', '.', '0', '/', '9'] false =
        .ok ⟨10, 9⟩ ∧
      (Ipv4NetworkSubnet.mk 10 9).matchesIp 0x800a = true ∧ ¬ Agree 9 0x800a 10 :=
  ⟨rfl, by decide, fun h => absurd (h 8 (by decide)) (by decide)⟩

end Ipv4NetworkSubnet

/-! ## Verdicts -/

namespace Bans

variable {b history : Bans} {now : ℤ} {ip : UInt32} {l : List (Ipv4NetworkSubnet × ℤ)}

/-- All the bans that match have expired. -/
def Clear (now : ℤ) (ip : UInt32) (l : List (Ipv4NetworkSubnet × ℤ)) : Prop :=
  ∀ e ∈ l, e.1.matchesIp ip = true → e.2 ≤ now

def Allows (b : Bans) (now : ℤ) (address : NetworkAddress) : Prop :=
  (∀ limit ∈ b.blockedHosts address.host, limit ≤ now) ∧
    ∀ ip port, address = .ipv4 ip port → Clear now ip b.blockedSubnets

/-- The walk gets to the last ban of the table, and that one has expired. -/
def PastEnd (b : Bans) (now : ℤ) (address : NetworkAddress) : Prop :=
  ∃ ip port, address = .ipv4 ip port ∧ b.Allows now address ∧
    ∃ e, b.blockedSubnets.getLast? = some e ∧ e.2 ≤ now

theorem clear_cons {e : Ipv4NetworkSubnet × ℤ} :
    Clear now ip (e :: l) ↔ (e.1.matchesIp ip = true → e.2 ≤ now) ∧ Clear now ip l :=
  List.forall_mem_cons

/-- The loop reads past the end if it gets there and the last entry has expired. -/
theorem sweep_eq_none_iff : ∀ {l : List (Ipv4NetworkSubnet × ℤ)},
    sweep now ip l = none ↔ (∃ e, l.getLast? = some e ∧ e.2 ≤ now) ∧ Clear now ip l
  | [] => by simp [sweep]
  | [e] => by
    unfold sweep Clear
    split_ifs with hle hmatch <;> simp_all [sweep]
  | e :: e' :: rest => by
    have ih := sweep_eq_none_iff (l := e' :: rest)
    rw [sweep, List.getLast?_cons_cons, clear_cons, if_neg (List.cons_ne_nil e' rest)]
    split_ifs with hle hmatch
    · simp [ih, hle]
    · simp [hmatch, hle]
    · rw [Option.map_eq_none_iff, ih]
      simp [hmatch]

/-- Otherwise its verdict is right, and only expired entries are gone. -/
theorem sweep_eq_some : ∀ {l : List (Ipv4NetworkSubnet × ℤ)} {r}, sweep now ip l = some r →
    (r.1 = true ↔ Clear now ip l) ∧ r.2 ⊆ l ∧ ∀ e ∈ l, now < e.2 → e ∈ r.2
  | [], r, h => by
    obtain rfl := Option.some.inj h
    simp [Clear]
  | e :: rest, r, h => by
    unfold sweep at h
    rw [clear_cons]
    split_ifs at h with hle hrest hmatch
    · obtain ⟨hv, hsub, hlive⟩ := sweep_eq_some h
      refine ⟨by simp [hv, hle], List.subset_cons_of_subset _ hsub, fun e' he' hlt => ?_⟩
      rcases List.mem_cons.1 he' with rfl | he'
      · omega
      · exact hlive e' he' hlt
    · obtain rfl := Option.some.inj h
      exact ⟨by simp [hmatch, hle], List.Subset.refl _, fun _ he' _ => he'⟩
    · obtain ⟨r', hr', rfl⟩ := Option.map_eq_some_iff.1 h
      obtain ⟨hv, hsub, hlive⟩ := sweep_eq_some hr'
      refine ⟨by simp [hv, hmatch], List.cons_subset_cons _ hsub, fun e' he' hlt => ?_⟩
      rcases List.mem_cons.1 he' with rfl | he'
      · exact List.mem_cons_self
      · exact List.mem_cons_of_mem _ (hlive e' he' hlt)

/-- The tables have bans of the history, and all those that have not expired. -/
structure Holds (now : ℤ) (history b : Bans) : Prop where
  hosts : ∀ h limit, b.blockedHosts h = some limit → history.blockedHosts h = some limit
  liveHosts : ∀ h limit, history.blockedHosts h = some limit → now < limit →
    b.blockedHosts h = some limit
  subnets : b.blockedSubnets ⊆ history.blockedSubnets
  liveSubnets : ∀ e ∈ history.blockedSubnets, now < e.2 → e ∈ b.blockedSubnets

/-- Tables that hold a history give its verdict. -/
theorem Holds.allows_iff (h : Holds now history b) (address : NetworkAddress) :
    b.Allows now address ↔ history.Allows now address := by
  refine and_congr ⟨fun hall limit hl => ?_, fun hall limit hl => hall limit (h.hosts _ _ hl)⟩
    (forall₃_congr fun ip port _ => ⟨fun hall e he hmatch => ?_,
      fun hall e he => hall e (h.subnets he)⟩)
  · by_contra hlt
    exact hlt (hall limit (h.liveHosts _ _ hl (not_le.1 hlt)))
  · by_contra hlt
    exact hlt (hall e (h.liveSubnets e he (not_le.1 hlt)) hmatch)

theorem Holds.mono (h : Holds now history b) {now' : ℤ} (hle : now ≤ now') :
    Holds now' history b where
  hosts := h.hosts
  liveHosts k limit hl hlt := h.liveHosts k limit hl (by omega)
  subnets := h.subnets
  liveSubnets e he hlt := h.liveSubnets e he (by omega)

theorem Holds.setHost (h : Holds now history b) (host : NetworkAddress) (limit : Option ℤ) :
    Holds now (history.setHost host limit) (b.setHost host limit) := by
  refine ⟨fun k l hl => ?_, fun k l hl hlt => ?_, h.subnets, h.liveSubnets⟩
  all_goals
    simp only [Bans.setHost] at hl ⊢
    split_ifs at hl ⊢
  · exact hl
  · exact h.hosts k l hl
  · exact hl
  · exact h.liveHosts k l hl hlt

/-- A ban of a host that has expired can be erased. -/
theorem Holds.expireHost (h : Holds now history b) {host : NetworkAddress}
    (hexpired : ∀ limit ∈ b.blockedHosts host, limit ≤ now) :
    Holds now history (b.setHost host none) := by
  refine ⟨fun k l hl => ?_, fun k l hl hlt => ?_, h.subnets, h.liveSubnets⟩
  · simp only [Bans.setHost] at hl
    split_ifs at hl
    exact h.hosts k l hl
  · have hl' := h.liveHosts k l hl hlt
    have hne : k ≠ host := by
      rintro rfl
      have := hexpired l hl'
      omega
    simpa [Bans.setHost, hne] using hl'

theorem Holds.unblockSubnet (h : Holds now history b) (subnet : Ipv4NetworkSubnet) :
    Holds now (history.unblockSubnet subnet) (b.unblockSubnet subnet) where
  hosts := h.hosts
  liveHosts := h.liveHosts
  subnets := List.filter_subset _ h.subnets
  liveSubnets e he hlt := by
    obtain ⟨he, hkey⟩ := List.mem_filter.1 he
    exact List.mem_filter.2 ⟨h.liveSubnets e he hlt, hkey⟩

theorem Holds.blockSubnet (h : Holds now history b) (mainnet : Bool) (subnet : Ipv4NetworkSubnet)
    (seconds : ℤ) : Holds now (history.blockSubnet mainnet now subnet seconds)
      (b.blockSubnet mainnet now subnet seconds) := by
  have h' := h.unblockSubnet subnet
  refine ⟨h.hosts, h.liveHosts, fun e he => ?_, fun e he hlt => ?_⟩
  all_goals
    simp only [Bans.blockSubnet, List.mem_orderedInsert] at he ⊢
  · exact he.imp_right fun he => h'.subnets he
  · exact he.imp_right fun he => h'.liveSubnets e he hlt

theorem Holds.blockHost (h : Holds now history b) (mainnet : Bool) (addr : NetworkAddress)
    (seconds : ℤ) : Holds now (history.blockHost mainnet now addr seconds)
      (b.blockHost mainnet now addr seconds) := by
  unfold Bans.blockHost
  split_ifs
  · exact h.setHost _ _
  · exact h

theorem any_eq_false_iff (address : NetworkAddress) :
    (b.blockedHosts address.host).any (now < ·) = false ↔
      ∀ limit ∈ b.blockedHosts address.host, limit ≤ now := by
  cases b.blockedHosts address.host <;> simp

/-- When there is no verdict. -/
theorem isRemoteHostAllowed_eq_none_iff (address : NetworkAddress) :
    b.isRemoteHostAllowed now address = none ↔ b.PastEnd now address := by
  unfold isRemoteHostAllowed PastEnd Allows
  simp only [← any_eq_false_iff]
  cases hlive : (b.blockedHosts address.host).any (now < ·) with
  | true => simp
  | false =>
    cases address with
    | ipv4 ip port =>
      simp only [Bool.false_eq_true, if_false, Option.map_eq_none_iff, sweep_eq_none_iff]
      constructor
      · rintro ⟨hlast, hclear⟩
        exact ⟨ip, port, rfl, ⟨trivial, fun _ _ heq => by cases heq; exact hclear⟩, hlast⟩
      · rintro ⟨_, _, _, ⟨-, hclear⟩, hlast⟩
        exact ⟨hlast, hclear ip port rfl⟩
    | _ => simp

/-- A verdict is right for the tables, and what they hold they still hold after it. -/
theorem isRemoteHostAllowed_eq_some {address : NetworkAddress} {r : Bool × Bans}
    (h : b.isRemoteHostAllowed now address = some r) :
    (r.1 = true ↔ b.Allows now address) ∧
      ∀ history, Holds now history b → Holds now history r.2 := by
  unfold isRemoteHostAllowed at h
  unfold Allows
  cases hlive : (b.blockedHosts address.host).any (now < ·) with
  | true =>
    rw [hlive, if_pos rfl] at h
    obtain rfl := Option.some.inj h
    refine ⟨iff_of_false Bool.false_ne_true fun hall => ?_, fun _ hb => hb⟩
    simp [(any_eq_false_iff address).2 hall.1] at hlive
  | false =>
    simp only [hlive, Bool.false_eq_true, if_false] at h
    rw [any_eq_false_iff] at hlive
    have hkept : ∀ history, Holds now history b →
        Holds now history (b.setHost address.host none) := fun history hb => hb.expireHost hlive
    cases address with
    | ipv4 ip port =>
      obtain ⟨r', hr', rfl⟩ := Option.map_eq_some_iff.1 h
      obtain ⟨hv, hsub, hlive'⟩ := sweep_eq_some hr'
      refine ⟨hv.trans ⟨fun hclear => ⟨hlive, fun _ _ heq => by cases heq; exact hclear⟩,
        fun hall => hall.2 ip port rfl⟩, fun history hb => ?_⟩
      have hb' := hkept history hb
      exact ⟨hb'.hosts, hb'.liveHosts, fun e he => hb'.subnets (hsub he),
        fun e he hlt => hlive' e (hb'.liveSubnets e he hlt) hlt⟩
    | _ =>
      obtain rfl := Option.some.inj h
      exact ⟨by simpa using hlive, hkept⟩

/-! ## Whole runs -/

inductive Op
  | blockHost (addr : NetworkAddress) (seconds : ℤ)
  | unblockHost (address : NetworkAddress)
  | blockSubnet (subnet : Ipv4NetworkSubnet) (seconds : ℤ)
  | unblockSubnet (subnet : Ipv4NetworkSubnet)
  | isRemoteHostAllowed (address : NetworkAddress)

/-- A call, so long after the one before it. -/
structure Call where
  elapsed : ℕ
  op : Op

/-- What a call does to the bans if nothing is ever erased but by hand. -/
def record (mainnet : Bool) (now : ℤ) (b : Bans) : Op → Bans
  | .blockHost addr seconds => b.blockHost mainnet now addr seconds
  | .unblockHost address => b.unblockHost address
  | .blockSubnet subnet seconds => b.blockSubnet mainnet now subnet seconds
  | .unblockSubnet subnet => b.unblockSubnet subnet
  | .isRemoteHostAllowed _ => b

def call (mainnet : Bool) (now : ℤ) (b : Bans) : Op → Option Bans
  | .isRemoteHostAllowed address => (b.isRemoteHostAllowed now address).map Prod.snd
  | op => some (b.record mainnet now op)

/-- The tables, and all the bans that have not been lifted. -/
structure Watched where
  now : ℤ
  bans : Bans
  history : Bans

namespace Watched

variable (mainnet : Bool) (w : Watched)

def step (c : Call) : Option Watched :=
  (w.bans.call mainnet (w.now + c.elapsed) c.op).map fun bans =>
    ⟨w.now + c.elapsed, bans, w.history.record mainnet (w.now + c.elapsed) c.op⟩

/-- A verdict is given, and right. -/
def Exact (c : Call) : Prop :=
  ∀ address, c.op = .isRemoteHostAllowed address →
    ∃ r, w.bans.isRemoteHostAllowed (w.now + c.elapsed) address = some r ∧
      (r.1 = true ↔ w.history.Allows (w.now + c.elapsed) address)

def Safe (c : Call) : Prop :=
  ∀ address, c.op = .isRemoteHostAllowed address →
    ¬ w.bans.PastEnd (w.now + c.elapsed) address

variable {mainnet w}

/-- A call keeps the tables in step with the history. -/
theorem holds_step {w' : Watched} {c : Call} (h : Holds w.now w.history w.bans)
    (hstep : w.step mainnet c = some w') : Holds w'.now w'.history w'.bans := by
  have h' := h.mono (show w.now ≤ w.now + c.elapsed by omega)
  obtain ⟨bans, hcall, rfl⟩ := Option.map_eq_some_iff.1 hstep
  cases hop : c.op with
  | isRemoteHostAllowed address =>
    rw [hop, call] at hcall
    obtain ⟨r, hr, rfl⟩ := Option.map_eq_some_iff.1 hcall
    exact (isRemoteHostAllowed_eq_some hr).2 _ h'
  | _ =>
    rw [hop] at hcall
    obtain rfl := Option.some.inj hcall
    first
      | exact h'.blockHost mainnet _ _
      | exact h'.setHost _ none
      | exact h'.blockSubnet mainnet _ _
      | exact h'.unblockSubnet _

/-- A call is exact just when it is safe. -/
theorem exact_iff_safe (h : Holds w.now w.history w.bans) (c : Call) : w.Exact c ↔ w.Safe c := by
  have h' := h.mono (show w.now ≤ w.now + c.elapsed by omega)
  refine forall₂_congr fun address _ => ?_
  rw [← isRemoteHostAllowed_eq_none_iff, ← ne_eq, Option.ne_none_iff_exists']
  refine exists_congr fun r => and_iff_left_of_imp fun hr => ?_
  rw [(isRemoteHostAllowed_eq_some hr).1, h'.allows_iff]

/-- Through a run every verdict is given and right just when no call finds that the last ban of the
table has expired and that nothing else keeps the address out. -/
theorem run_verdicts_iff (mainnet : Bool) (now : ℤ) (calls : List Call) :
    let w : Watched := ⟨now, ⟨fun _ => none, []⟩, ⟨fun _ => none, []⟩⟩
    Runs.SafeRun (step mainnet) Exact w calls ↔ Runs.SafeRun (step mainnet) Safe w calls := by
  intro w
  have hw : Holds w.now w.history w.bans :=
    ⟨fun _ _ h => h, fun _ _ h _ => h, List.Subset.refl _, fun _ h _ => h⟩
  constructor
  · exact Runs.SafeRun.of_inv _ _
      (fun w c (h : Holds w.now w.history w.bans) hc =>
        ⟨(exact_iff_safe h c).1 hc, fun _ => holds_step h⟩) calls w hw
  · exact Runs.SafeRun.of_inv _ _
      (fun w c (h : Holds w.now w.history w.bans) hc =>
        ⟨(exact_iff_safe h c).2 hc, fun _ => holds_step h⟩) calls w hw

/-- A subnet is banned for a second; two seconds later a host asks. -/
theorem run_verdicts_expired :
    ¬ Runs.SafeRun (step true) Exact ⟨0, ⟨fun _ => none, []⟩, ⟨fun _ => none, []⟩⟩
      [⟨0, .blockSubnet ⟨10, 8⟩ 1⟩, ⟨2, .isRemoteHostAllowed (.ipv4 0x04030201 1)⟩] := by
  intro h
  obtain ⟨r, hr, -⟩ := (h.2 _ rfl).1 _ rfl
  cases hr

end Watched

end Bans

end Nerva
