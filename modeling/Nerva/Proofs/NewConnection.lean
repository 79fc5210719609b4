import Nerva.Lib.Runs
import Nerva.NewConnection

/-!
# What a round takes for known

`std::remove_if` makes no list shorter, so a peer that is added again or removed stays in the list
for its stripe. The mask that is to keep the first three octets of an address keeps the last three.
-/

namespace Nerva

/-! ## The peers kept for a stripe -/

theorem filter_of_notMem {a : NetworkAddress} {l : List NetworkAddress} (h : a ∉ l) :
    l.filter (fun b => a ≠ b) = l := by
  refine List.filter_eq_self.2 fun b hb => decide_eq_true ?_
  rintro rfl
  exact h hb

/-- Where nothing is to be removed the list stays as it is. -/
theorem removeIf_of_notMem {a : NetworkAddress} {l : List NetworkAddress} (h : a ∉ l) :
    removeIf (fun b => a = b) l = l := by
  have hall := filter_of_notMem h
  simp only [ne_eq, decide_not] at hall
  simp [removeIf, hall]

/-- The list never gets shorter. -/
theorem length_removeIf (p : NetworkAddress → Bool) (l : List NetworkAddress) :
    (removeIf p l).length = l.length := by
  have := List.length_filter_le (fun a => !p a) l
  simp only [removeIf, List.length_append, List.length_map, List.length_drop]
  omega

/-- What is left behind is what should be just when nothing is to be removed: otherwise the list that
should be left is shorter. -/
theorem removeIf_eq_filter_iff {a : NetworkAddress} {l : List NetworkAddress} :
    removeIf (fun b => a = b) l = l.filter (fun b => a ≠ b) ↔ a ∉ l := by
  constructor
  · intro heq hmem
    have hlt : (l.filter fun b => a ≠ b).length < l.length :=
      List.length_filter_lt_length_iff_exists.2 ⟨a, hmem, by simp⟩
    have hlength := congrArg List.length heq
    rw [length_removeIf] at hlength
    exact hlt.ne' hlength
  · intro h
    rw [removeIf_of_notMem h, filter_of_notMem h]

namespace UsedStripePeers

variable {u : UsedStripePeers}

/-- The lists as they are meant: what is added and not removed, cleared or reused, in the order of
the latest additions. -/
def keep (u : UsedStripePeers) : Op → UsedStripePeers
  | .add pruningSeed a =>
    u.onStripe (getPruningStripe pruningSeed) fun l => l.filter (fun b => a ≠ b) ++ [a]
  | .remove pruningSeed a =>
    u.onStripe (getPruningStripe pruningSeed) fun l => l.filter fun b => a ≠ b
  | .clear => clearUsedStripePeers
  | .reuse stripe => u.onStripe stripe List.tail

/-- The peer that is added or removed is not in the list for its stripe. -/
def Op.New (u : UsedStripePeers) : Op → Prop
  | .add pruningSeed a | .remove pruningSeed a =>
    ∀ index ∈ stripeIndex (getPruningStripe pruningSeed), a ∉ u index
  | .clear | .reuse _ => True

/-- Every peer of a run is new where it is added or removed. -/
def NewRun : UsedStripePeers → List Op → Prop :=
  Runs.SafeRun (fun u op => some (u.keep op)) fun u op => op.New u

theorem newRun_cons (op : Op) (ops : List Op) :
    NewRun u (op :: ops) ↔ op.New u ∧ NewRun (u.keep op) ops := by
  simp [NewRun, Runs.SafeRun]

/-- Two changes of a stripe come to the same if they agree on its list. -/
theorem onStripe_eq_iff {stripe : ℕ} {f g : List NetworkAddress → List NetworkAddress} :
    u.onStripe stripe f = u.onStripe stripe g ↔
      ∀ index ∈ stripeIndex stripe, f (u index) = g (u index) := by
  unfold onStripe
  cases stripeIndex stripe with
  | none => simp
  | some index => simp [(Function.update_injective u index).eq_iff]

/-- The lists as they are meant have no peer twice. -/
theorem nodup_keep (h : ∀ i, (u i).Nodup) (op : Op) (i : ℕ) : (u.keep op i).Nodup := by
  have hon : ∀ {stripe f}, (∀ l : List NetworkAddress, l.Nodup → (f l).Nodup) →
      (u.onStripe stripe f i).Nodup := by
    intro stripe f hf
    unfold onStripe
    cases stripeIndex stripe with
    | none => exact h i
    | some index =>
      by_cases hi : i = index
      · subst hi
        simpa using hf _ (h i)
      · simpa [hi] using h i
  cases op with
  | add seed a =>
    refine hon fun l hl => List.nodup_append.2 ⟨hl.filter _, List.nodup_singleton a, ?_⟩
    rintro b hb c hc rfl
    simp [List.mem_singleton.1 hc] at hb
  | remove seed a => exact hon fun l hl => hl.filter _
  | clear => exact List.nodup_nil
  | reuse stripe => exact hon fun l hl => hl.sublist (List.tail_sublist l)

/-- One step does what it is meant to just when its peer is new to the list. -/
theorem step_eq_keep_iff (op : Op) : u.step op = u.keep op ↔ op.New u := by
  cases op with
  | add seed a =>
    rw [step, addUsedStripePeer, keep, onStripe_eq_iff]
    exact forall₂_congr fun index _ => (List.append_left_inj _).trans removeIf_eq_filter_iff
  | remove seed a =>
    rw [step, removeUsedStripePeer, keep, onStripe_eq_iff]
    exact forall₂_congr fun index _ => removeIf_eq_filter_iff
  | clear => exact iff_of_true rfl trivial
  | reuse stripe => exact iff_of_true rfl trivial

/-- Through a run the lists are as they are meant just when no peer is added or removed while it is
in the list for its stripe. -/
theorem run_eq_keep_iff : ∀ (ops : List Op) {u : UsedStripePeers}, (∀ i, (u i).Nodup) →
    ((∀ ops', ops' <+: ops → ops'.foldl step u = ops'.foldl keep u ∧
      ∀ i, (ops'.foldl step u i).Nodup) ↔ NewRun u ops)
  | [], u, hu => by simpa [NewRun, Runs.SafeRun] using hu
  | op :: ops, u, hu => by
    have ih := run_eq_keep_iff ops (nodup_keep hu op)
    rw [newRun_cons, ← step_eq_keep_iff, ← ih]
    constructor
    · intro h
      have hstep : u.step op = u.keep op := (h [op] (by simp)).1
      refine ⟨hstep, fun ops' hops' => ?_⟩
      have := h (op :: ops') (by simpa using hops')
      rwa [List.foldl_cons, List.foldl_cons, hstep] at this
    · rintro ⟨hstep, h⟩ ops' hops'
      rcases List.prefix_cons_iff.1 hops' with rfl | ⟨rest, rfl, hrest⟩
      · exact ⟨rfl, hu⟩
      · rw [List.foldl_cons, List.foldl_cons, hstep]
        exact h rest hrest

/-- A peer is added, taken for reuse and added again. -/
theorem run_eq_keep_reused :
    let ops : List Op := [.add 385 (.ipv4 1 1), .reuse 2, .add 385 (.ipv4 1 1)]
    ops.foldl step clearUsedStripePeers = ops.foldl keep clearUsedStripePeers := by
  intro ops
  have hnew : NewRun clearUsedStripePeers ops := by
    refine (newRun_cons _ _).2 ⟨fun _ _ => List.not_mem_nil, (newRun_cons _ _).2 ⟨trivial,
      (newRun_cons _ _).2 ⟨fun index hindex => ?_, trivial⟩⟩⟩
    obtain rfl : 1 = index := Option.some.inj hindex
    decide
  exact ((run_eq_keep_iff ops fun _ => List.nodup_nil).2 hnew ops List.prefix_rfl).1

/-- A peer is added and removed. -/
theorem run_eq_keep_removed :
    let ops : List Op := [.add 385 (.ipv4 1 1), .remove 385 (.ipv4 1 1)]
    ops.foldl step clearUsedStripePeers 1 = [.ipv4 1 1] ∧
      ops.foldl keep clearUsedStripePeers 1 = [] :=
  ⟨by decide, by decide⟩

end UsedStripePeers

/-! ## Networks already connected to -/

/-- The peer has the needed stripe, or its stripe is not known or does not matter. -/
def Passes (nextNeededPruningStripe : ℕ) (pe : PeerlistEntry) : Prop :=
  nextNeededPruningStripe = 0 ∨ pe.pruningSeed = 0 ∨
    nextNeededPruningStripe = getPruningStripe pe.pruningSeed

section Filter

variable {skip : PeerlistEntry → Bool} {limit stripe : ℕ}

/-- Every place that the walk adds is that of a peer it does not skip. -/
theorem mem_filterPeers {i : ℕ} :
    ∀ {pes : List PeerlistEntry} {idx skipped : ℕ} {filtered : List ℕ},
    i ∈ (filterPeers skip limit stripe idx filtered skipped pes).1 →
      i ∈ filtered ∨ ∃ j pe, pes[j]? = some pe ∧ i = idx + j ∧ skip pe = false
  | [], _, _, _, h => .inl h
  | pe :: pes, idx, skipped, filtered, h => by
    -- one more peer has been looked at, and its place was taken or not
    have hstep : ∀ {filtered' skipped'},
        i ∈ (filterPeers skip limit stripe (idx + 1) filtered' skipped' pes).1 →
        (i ∈ filtered' → i ∈ filtered ∨ i = idx ∧ skip pe = false) →
        i ∈ filtered ∨ ∃ j pe', (pe :: pes)[j]? = some pe' ∧ i = idx + j ∧ skip pe' = false := by
      intro filtered' skipped' h' hmem
      rcases mem_filterPeers h' with hin | ⟨j, pe', hj, rfl, hskip⟩
      · exact (hmem hin).imp_right fun hi => ⟨0, pe, rfl, hi.1, hi.2⟩
      · exact .inr ⟨j + 1, pe', hj, by omega, hskip⟩
    unfold filterPeers at h
    split_ifs at h with hlimit hskip hany hstripe
    · exact .inl h
    · exact hstep h .inl
    · exact hstep h fun hin => by simpa [hskip] using hin
    · exact hstep h fun hin => by simpa [hskip, or_comm] using hin
    · exact hstep h .inl

/-- A peer that passes and is not skipped is not missed. -/
theorem filterPeers_ne_nil (hlimit : 0 < limit) : ∀ {pes : List PeerlistEntry} {idx skipped : ℕ}
    {filtered : List ℕ}, filtered ≠ [] ∨ (∃ pe ∈ pes, skip pe = false ∧ Passes stripe pe) →
      (filterPeers skip limit stripe idx filtered skipped pes).1 ≠ []
  | [], _, _, _, h => by simpa [filterPeers] using h
  | pe :: pes, idx, skipped, filtered, h => by
    unfold filterPeers
    split_ifs with hfull hskip hany hstripe
    · exact List.ne_nil_of_length_pos (hlimit.trans_le hfull)
    · exact filterPeers_ne_nil hlimit (by simpa [hskip] using h)
    · exact filterPeers_ne_nil hlimit (.inl (by simp))
    · exact filterPeers_ne_nil hlimit (.inl (by simp))
    · refine filterPeers_ne_nil hlimit (h.imp_right fun hex => ?_)
      obtain ⟨pe', hmem, hpe'⟩ := hex
      rcases List.mem_cons.1 hmem with rfl | hmem
      · exact absurd hpe'.2 (by unfold Passes; tauto)
      · exact ⟨pe', hmem, hpe'⟩

end Filter

namespace PickRound

variable {connected : List NetworkAddress} {r : PickRound} {pe : PeerlistEntry}

/-- If a peer shares a network with the connections, one of these is in theirs for every mask. -/
theorem exists_inSubnet {m : UInt32} {a : NetworkAddress} (h : inSubnet m connected a = true) :
    ∃ c, ∀ m', inSubnet m' connected c = true := by
  cases a with
  | ipv4 ip port =>
    simp only [inSubnet, connectedSubnets, decide_eq_true_eq, List.mem_filterMap] at h ⊢
    obtain ⟨c, hc, heq⟩ := h
    refine ⟨c, fun m' => ?_⟩
    cases c with
    | ipv4 ip' port' => simpa [inSubnet, connectedSubnets] using ⟨_, hc, rfl⟩
    | _ => cases heq
  | _ => cases h

/-- The gray list with two peers, and the later one. -/
def ofTwo (old recent : NetworkAddress) (hne : old ≠ recent) : PickRound where
  useWhiteList := false
  peers := ⟨[⟨old, 0, 0, 0, 0⟩, ⟨recent, 0, 1, 0, 0⟩], by simp, by simpa using hne⟩
  tryCount := 1
  nextNeededPruningStripe := 0
  usedStripePeers := UsedStripePeers.clearUsedStripePeers
  draw := 0

theorem pick_ofTwo {old recent : NetworkAddress} (hne : old ≠ recent)
    (h : inSubnet 0xffffff00 connected recent = false ∨ inSubnet 0xffffff00 connected old = true) :
    (ofTwo old recent hne).pick connected = some ⟨recent, 0, 1, 0, 0⟩ := by
  rcases hrecent : inSubnet 0xffffff00 connected recent
  all_goals rcases hold : inSubnet 0xffffff00 connected old
  all_goals simp_all [pick, filtered, filterPeers, byTime, limit, ofTwo]

/-- The peer picked is one of those that passed. -/
theorem mem_of_pick (h : r.pick connected = some pe) :
    ∃ i ∈ r.filtered connected, r.byTime[i]? = some pe := by
  unfold pick at h
  obtain ⟨i, hi, hpe⟩ := Option.bind_eq_some_iff.1 h
  exact ⟨i, List.mem_of_getElem? hi, hpe⟩

theorem limit_pos (h : pe ∈ r.byTime) : 0 < r.limit := by
  have := List.length_pos_of_mem h
  unfold limit whiteLimit
  split_ifs <;> omega

/-- The peer picked is in no network connected to while there is such a peer, for all lists and
draws, just when the last three octets of an address tell the same about the connections as the
first three. -/
theorem pick_avoids_iff (connected : List NetworkAddress) :
    (∀ (r : PickRound) (q pe : PeerlistEntry), q ∈ r.peers.entries →
      Passes r.nextNeededPruningStripe q → inSubnet 0xffffff connected q.adr = false →
      r.pick connected = some pe → inSubnet 0xffffff connected pe.adr = false) ↔
      ∀ a, inSubnet 0xffffff00 connected a = inSubnet 0xffffff connected a := by
  constructor
  · intro h a
    have hpicked : ∀ {old recent : NetworkAddress} (hne : old ≠ recent),
        inSubnet 0xffffff00 connected recent = false ∨ inSubnet 0xffffff00 connected old = true →
        inSubnet 0xffffff connected old = false → inSubnet 0xffffff connected recent = false :=
      fun {old recent} hne hpick hfresh =>
        h (ofTwo old recent hne) ⟨old, 0, 0, 0, 0⟩ _ (by simp [ofTwo]) (.inl rfl) hfresh
          (pick_ofTwo hne hpick)
    cases hmask : inSubnet 0xffffff00 connected a with
    | false =>
      by_contra hin
      -- `a` is picked although the other peer is not in its network
      have hne : .ipv6 0 0 ≠ a := by
        rintro rfl
        exact hin rfl
      exact hin (hpicked hne (.inl hmask) rfl).symm
    | true =>
      by_contra hin
      -- both are skipped, so that the second pass takes a connected one
      have hfresh : inSubnet 0xffffff connected a = false := by simpa using Ne.symm hin
      obtain ⟨c, hc⟩ := exists_inSubnet hmask
      have hne : a ≠ c := by
        rintro rfl
        exact hin (hc _).symm
      exact absurd (hpicked hne (.inr hmask) hfresh) (by simp [hc])
  · intro hsame r q pe hq hpasses hfresh hpick
    have hne : (filterPeers (fun pe => inSubnet 0xffffff00 connected pe.adr) r.limit
        r.nextNeededPruningStripe 0 [] 0 r.byTime).1 ≠ [] := by
      have hq' : q ∈ r.byTime := List.mem_reverse.2 hq
      exact filterPeers_ne_nil (limit_pos hq') (.inr ⟨q, hq', by rw [hsame, hfresh], hpasses⟩)
    obtain ⟨i, hi, hpe⟩ := mem_of_pick hpick
    simp only [filtered, hne, ne_eq, not_false_eq_true, or_true, if_true] at hi
    obtain hin | ⟨j, pe', hj, rfl, hskip⟩ := mem_filterPeers hi
    · cases hin
    · rw [Nat.zero_add, hj, Option.some.injEq] at hpe
      rw [← hpe, ← hsame, hskip]

/-- Connected to 1.2.3.4, with 9.9.9.9 and 1.2.3.5 in the list, the round picks 1.2.3.5. -/
theorem pick_sameNetwork :
    let connected := [NetworkAddress.ipv4 0x04030201 17565]
    let r := ofTwo (.ipv4 0x09090909 17565) (.ipv4 0x05030201 17565) (by decide)
    inSubnet 0xffffff connected (.ipv4 0x09090909 17565) = false ∧
      (r.pick connected).map PeerlistEntry.adr = some (.ipv4 0x05030201 17565) ∧
      inSubnet 0xffffff connected (.ipv4 0x05030201 17565) = true := by
  refine ⟨?_, ?_, ?_⟩ <;> decide

end PickRound

end Nerva
