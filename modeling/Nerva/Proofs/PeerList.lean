import Nerva.Lib.Runs
import Nerva.PeerList

/-!
# The two peer lists stay apart

An address goes into the white list together with its leaving the gray one, and into the gray list
only when it is not in the white one. The time of an entry in the white list is that of the first
sighting since it got there, which `set_peer_just_seen` does not change.
-/

namespace Nerva

open List PeersIndexed TimedTable

section Append

variable {peers : PeersIndexed} {limit : ℕ} {ple : PeerlistEntry} {a : NetworkAddress}

theorem PeersIndexed.mem_keys_append (h : a ∈ (peers.append limit ple).keys) :
    a = ple.adr ∨ a ∈ peers.keys := by
  unfold append at h
  split_ifs at h
  · rw [keys_modify] at h
    exact .inr h
  · exact mem_keys_insert.1 (mem_keys_of_trim h)

theorem PeersIndexed.append_length_le (h : peers.entries.length ≤ limit) :
    (peers.append limit ple).entries.length ≤ limit := by
  unfold append
  split_ifs
  · rwa [TimedTable.modify, length_map]
  · exact trim_length_le _ limit

end Append

namespace PeerlistManager

/-- No address is in both lists, each is bounded and has one entry for an address, and every address
is allowed. -/
structure ListsOk (m : PeerlistManager) : Prop where
  disjoint : ∀ a ∈ m.peersWhite.keys, a ∉ m.peersGray.keys
  white_le : m.peersWhite.entries.length ≤ p2pLocalWhitePeerlistLimit
  gray_le : m.peersGray.entries.length ≤ p2pLocalGrayPeerlistLimit
  white_distinct : m.peersWhite.keys.Nodup
  gray_distinct : m.peersGray.keys.Nodup
  white_allowed : ∀ a ∈ m.peersWhite.keys, m.isHostAllowed a
  gray_allowed : ∀ a ∈ m.peersGray.keys, m.isHostAllowed a

variable {m : PeerlistManager}

section

variable (h : m.ListsOk)

include h

theorem ListsOk.of_subset {white gray : PeersIndexed}
    (hwhite : ∀ a ∈ white.keys, a ∈ m.peersWhite.keys)
    (hgray : ∀ a ∈ gray.keys, a ∈ m.peersGray.keys)
    (hwhite_le : white.entries.length ≤ p2pLocalWhitePeerlistLimit)
    (hgray_le : gray.entries.length ≤ p2pLocalGrayPeerlistLimit) :
    ListsOk { m with peersWhite := white, peersGray := gray } where
  disjoint a ha hgr := h.disjoint a (hwhite a ha) (hgray a hgr)
  white_le := hwhite_le
  gray_le := hgray_le
  white_distinct := white.distinct
  gray_distinct := gray.distinct
  white_allowed a ha := h.white_allowed a (hwhite a ha)
  gray_allowed a ha := h.gray_allowed a (hgray a ha)

theorem ListsOk.appendWithPeerWhite (ple : PeerlistEntry) :
    (m.appendWithPeerWhite ple).ListsOk := by
  unfold PeerlistManager.appendWithPeerWhite
  split_ifs with hallowed
  · refine ⟨fun a ha hgray => ?_, append_length_le h.white_le,
      (erase_length_le _ _).trans h.gray_le, distinct _,
      distinct _, fun a ha => ?_, fun a ha => ?_⟩
    · obtain ⟨hgray, hne⟩ := mem_keys_erase.1 hgray
      rcases mem_keys_append ha with rfl | ha
      · exact hne rfl
      · exact h.disjoint a ha hgray
    · rcases mem_keys_append ha with rfl | ha
      · exact hallowed
      · exact h.white_allowed a ha
    · exact h.gray_allowed a (mem_keys_erase.1 ha).1
  · exact h

theorem ListsOk.appendWithPeerGray (ple : PeerlistEntry) : (m.appendWithPeerGray ple).ListsOk := by
  unfold PeerlistManager.appendWithPeerGray
  split_ifs with hnew
  · refine ⟨fun a ha hgray => ?_, h.white_le, append_length_le h.gray_le,
      h.white_distinct, distinct _, h.white_allowed, fun a ha => ?_⟩
    · rcases mem_keys_append hgray with rfl | hgray
      · exact hnew.2 ha
      · exact h.disjoint a ha hgray
    · rcases mem_keys_append ha with rfl | ha
      · exact hnew.1
      · exact h.gray_allowed a ha
  · exact h

theorem ListsOk.mergePeerlist (outerBs : List PeerlistEntry) :
    (m.mergePeerlist outerBs).ListsOk := by
  have hfold : (outerBs.foldl PeerlistManager.appendWithPeerGray m).ListsOk := by
    induction outerBs generalizing m with
    | nil => exact h
    | cons ple outerBs ih => exact ih (h.appendWithPeerGray ple)
  exact hfold.of_subset (fun _ => id) (fun _ ha => mem_keys_of_trim ha) hfold.white_le
    (trim_length_le _ _)

/-- Every operation keeps the lists as they should be. -/
theorem ListsOk.step (op : Op) : (m.step op).ListsOk := by
  cases op with
  | mergePeerlist outerBs => exact h.mergePeerlist outerBs
  | appendWithPeerWhite ple => exact h.appendWithPeerWhite ple
  | appendWithPeerGray ple => exact h.appendWithPeerGray ple
  | setPeerJustSeen now peer addr pruningSeed rpcPort => exact h.appendWithPeerWhite _
  | removeFromPeerWhite pe =>
    exact h.of_subset (fun _ ha => (mem_keys_erase.1 ha).1) (fun _ => id)
      ((erase_length_le _ _).trans h.white_le) h.gray_le
  | removeFromPeerGray pe =>
    exact h.of_subset (fun _ => id) (fun _ ha => (mem_keys_erase.1 ha).1) h.white_le
      ((erase_length_le _ _).trans h.gray_le)

end

theorem ListsOk.run (ops : List Op) : ∀ {m : PeerlistManager}, m.ListsOk → (m.run ops).ListsOk := by
  induction ops with
  | nil => exact id
  | cons op ops ih => exact fun h => ih (h.step op)

inductive Call
  | setPeerJustSeen (now : ℤ) (peer : UInt64) (addr : NetworkAddress) (pruningSeed : UInt32)
      (rpcPort : UInt16)
  | mergePeerlist (outerBs : List PeerlistEntry)

/-- The lists, and when `set_peer_just_seen` was last called for each address. -/
structure Watched where
  manager : PeerlistManager
  seen : NetworkAddress → Option ℤ

namespace Watched

def step (w : Watched) : Call → Watched
  | .setPeerJustSeen now peer addr pruningSeed rpcPort =>
    ⟨w.manager.setPeerJustSeen now peer addr pruningSeed rpcPort,
      fun a => if a = addr then some now else w.seen a⟩
  | .mergePeerlist outerBs => ⟨w.manager.mergePeerlist outerBs, w.seen⟩

/-- Each peer of the white list has the time at which it was last seen. -/
def Recent (w : Watched) : Prop :=
  ∀ e ∈ w.manager.peersWhite.entries, w.seen e.adr = some e.lastSeen

/-- A peer that the next call drops was seen no later than one that stays. -/
def Evicts (w : Watched) (call : Call) : Prop :=
  ∀ e ∈ w.manager.peersWhite.entries, e.adr ∉ (w.step call).manager.peersWhite.keys →
    ∀ k ∈ (w.step call).manager.peersWhite.entries, ∀ t t', (w.step call).seen e.adr = some t →
      (w.step call).seen k.adr = some t' → t ≤ t'

/-- A peer that is listed is seen again at the time it is listed with. -/
def Timely (w : Watched) : Call → Prop
  | .setPeerJustSeen now _ addr _ _ =>
    ∀ e ∈ w.manager.peersWhite.entries, e.adr = addr → e.lastSeen = now
  | .mergePeerlist _ => True

def TimelyRun : Watched → List Call → Prop :=
  Runs.SafeRun (fun w call => some (step w call)) Timely

variable {w : Watched}

theorem mergePeerlist_white (m : PeerlistManager) (outerBs : List PeerlistEntry) :
    (m.mergePeerlist outerBs).peersWhite = m.peersWhite := by
  unfold mergePeerlist
  induction outerBs generalizing m with
  | nil => rfl
  | cons ple outerBs ih =>
    refine (ih (m.appendWithPeerGray ple)).trans ?_
    unfold appendWithPeerGray
    split_ifs <;> rfl

/-- What a sighting does to the white list: nothing, an entry keeps its time, or there is a new
one and the list is trimmed. -/
theorem appendWithPeerWhite_white (m : PeerlistManager) (ple : PeerlistEntry) :
    let white := (m.appendWithPeerWhite ple).peersWhite
    white = m.peersWhite ∨ white.entries = m.peersWhite.entries.map ple.update ∨
      ple.adr ∉ m.peersWhite.keys ∧
        white = (m.peersWhite.insert ple).trim p2pLocalWhitePeerlistLimit := by
  unfold appendWithPeerWhite append
  split_ifs with _ hmem
  · exact .inr (.inl rfl)
  · exact .inr (.inr ⟨hmem, rfl⟩)
  · exact .inl rfl

theorem Recent.seen_iff (h : w.Recent) {e : PeerlistEntry} (he : e ∈ w.manager.peersWhite.entries)
    (addr : NetworkAddress) (now : ℤ) :
    (if e.adr = addr then some now else w.seen e.adr) = some e.lastSeen ↔
      (e.adr = addr → e.lastSeen = now) := by
  split_ifs with hadr
  · simp [hadr, eq_comm]
  · simp [hadr, h e he]

theorem Recent.inserted (h : w.Recent) {ple e : PeerlistEntry}
    (hnew : ple.adr ∉ w.manager.peersWhite.keys)
    (he : e ∈ (w.manager.peersWhite.insert ple).entries) :
    (if e.adr = ple.adr then some ple.lastSeen else w.seen e.adr) = some e.lastSeen := by
  rcases (mem_insert hnew).1 he with rfl | he
  · simp
  · exact (h.seen_iff he _ _).2 fun hadr => absurd (mem_map.2 ⟨e, he, hadr⟩) hnew

theorem Recent.evicts (h : w.Recent) (call : Call) : w.Evicts call := by
  intro e he hgone k hk t t' ht ht'
  cases call with
  | mergePeerlist outerBs =>
    rw [step, mergePeerlist_white] at hgone
    exact absurd (mem_map_of_mem he) hgone
  | setPeerJustSeen now peer addr seed port =>
    simp only [step, setPeerJustSeen] at hgone hk ht ht'
    rcases appendWithPeerWhite_white w.manager ⟨addr, peer, now, seed, port⟩ with
      hsame | hsame | ⟨hnew, htrim⟩
    · rw [hsame] at hgone
      exact absurd (mem_map_of_mem he) hgone
    · refine absurd ?_ hgone
      rw [TimedTable.keys, hsame, map_map]
      exact mem_map.2 ⟨e, he, PeerlistEntry.update_adr _ e⟩
    · rw [htrim] at hgone hk
      have he' := (mem_insert hnew).2 (.inr he)
      have hk' := mem_of_trim hk
      have hle := time_le_of_trim he' (fun hin => hgone (mem_map_of_mem hin)) hk
      rw [h.inserted hnew he', Option.some.injEq] at ht
      rw [h.inserted hnew hk', Option.some.injEq] at ht'
      omega

/-- After one call the times are right just when the call is timely. -/
theorem step_recent_iff (h : w.Recent) (call : Call) : (w.step call).Recent ↔ w.Timely call := by
  cases call with
  | mergePeerlist outerBs =>
    refine iff_of_true (fun e he => ?_) trivial
    rw [step, mergePeerlist_white] at he
    exact h e he
  | setPeerJustSeen now peer addr seed port =>
    simp only [Recent, step, setPeerJustSeen]
    rcases appendWithPeerWhite_white w.manager ⟨addr, peer, now, seed, port⟩ with
      hsame | hsame | ⟨hnew, htrim⟩
    · rw [hsame]
      exact forall₂_congr fun e he => h.seen_iff he addr now
    · rw [hsame]
      simp only [forall_mem_map, PeerlistEntry.update_adr, PeerlistEntry.update_lastSeen]
      exact forall₂_congr fun e he => h.seen_iff he addr now
    · rw [htrim]
      refine iff_of_true (fun e he => ?_) fun e he hadr => absurd ?_ hnew
      · exact h.inserted hnew (mem_of_trim he)
      · exact mem_map.2 ⟨e, he, hadr⟩

/-- The times in the white list are those of the latest sightings, and trimming drops the peer seen
longest ago, all through a run just when no peer is seen again while it is in the list, but at the
very time that is there. -/
theorem run_recent_iff (allowLocalIp : Bool) (calls : List Call) :
    let w : Watched := ⟨{ allowLocalIp }, fun _ => none⟩
    (∀ calls', calls' <+: calls → (calls'.foldl step w).Recent ∧
      ∀ call, (calls'.foldl step w).Evicts call) ↔ w.TimelyRun calls := by
  intro w
  have hgood : ∀ w : Watched, (w.Recent ∧ ∀ call, w.Evicts call) ↔ w.Recent := fun w =>
    ⟨fun h => h.1, fun h => ⟨h, h.evicts⟩⟩
  simp only [hgood]
  exact Runs.forall_prefix_foldl_good_iff Timely step (fun w (h : w.Recent) => h)
    (fun w call h (_ : True) => step_recent_iff h call) (fun _ _ _ _ h => h) calls w
    (forall_mem_nil _) fun _ _ => trivial

/-- A peer is seen at two times. -/
theorem run_recent_twoTimes :
    let calls : List Call := [.setPeerJustSeen 7 1 (.ipv4 0x01010101 1) 0 0,
      .setPeerJustSeen 8 1 (.ipv4 0x01010101 1) 0 0]
    ¬ (calls.foldl step ⟨{ allowLocalIp := false }, fun _ => none⟩).Recent := by
  intro calls h
  exact absurd (h _ mem_cons_self) (by decide)

end Watched

end PeerlistManager

end Nerva
