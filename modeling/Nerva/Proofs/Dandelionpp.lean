import Nerva.Dandelionpp
import Nerva.Lib.Keyed

/-!
# The stems and who uses them

An update keeps the slots whose connections are still there and fills the others from the
connections that are left, so that the filled slots and what is left over are the list it was given.
The counters and the assigned sources move together.
-/

namespace Nerva.Dandelionpp

open List ConnectionMap

/-- The stems that are connected. -/
def live (outs : List Uuid) : List Uuid := outs.filter fun c => c ≠ nilUuid

variable {c : Uuid}

theorem mem_live {outs : List Uuid} : c ∈ live outs ↔ c ∈ outs ∧ c ≠ nilUuid := by
  simp [live]

theorem live_cons_of_ne (h : c ≠ nilUuid) (outs : List Uuid) :
    live (c :: outs) = c :: live outs := by
  simp [live, h]

theorem live_cons_nil (outs : List Uuid) : live (nilUuid :: outs) = live outs := by
  simp [live]

theorem keepLive_length : ∀ (outs current : List Uuid),
    (keepLive outs current).1.length = outs.length
  | [], _ => rfl
  | existing :: outs, current => by
    unfold keepLive
    split_ifs
    · simp [keepLive_length outs]
    · simp [keepLive_length outs]

/-- Each connection is kept as a stem or left over. -/
theorem keepLive_perm : ∀ (outs : List Uuid) {current : List Uuid}, nilUuid ∉ current →
    (live (keepLive outs current).1 ++ (keepLive outs current).2.1).Perm current
  | [], _, _ => by simp [keepLive, live]
  | existing :: outs, current, hnil => by
    unfold keepLive
    split_ifs with hmem
    · have hne : existing ≠ nilUuid := fun h => hnil (h ▸ hmem)
      simp only [live_cons_of_ne hne]
      refine .trans ?_ (perm_cons_erase hmem).symm
      exact (keepLive_perm outs fun h => hnil (mem_of_mem_erase h)).cons existing
    · simp only [live_cons_nil]
      exact keepLive_perm outs hnil

/-- A stem that is still connected keeps its place. -/
theorem keepLive_keeps : ∀ (outs : List Uuid) {current : List Uuid}, (live outs).Nodup →
    ∀ {i : ℕ} {c : Uuid}, outs[i]? = some c → c ≠ nilUuid → c ∈ current →
      (keepLive outs current).1[i]? = some c
  | [], _, _, i, c, h, _, _ => by simp at h
  | existing :: outs, current, hd, i, c, h, hc, hmem => by
    unfold keepLive
    cases i with
    | zero =>
      obtain rfl : existing = c := by simpa using h
      simp [hmem]
    | succ i =>
      have htail : (live outs).Nodup := hd.sublist ((sublist_cons_self _ _).filter _)
      split_ifs with hex
      · simp only [getElem?_cons_succ]
        refine keepLive_keeps outs htail h hc ((mem_erase_of_ne ?_).2 hmem)
        rintro rfl
        rw [live_cons_of_ne hc, nodup_cons] at hd
        exact hd.1 (mem_live.2 ⟨mem_of_getElem? h, hc⟩)
      · simp only [getElem?_cons_succ]
        exact keepLive_keeps outs htail h hc hmem

theorem keepLive_replace : ∀ (outs : List Uuid) {current : List Uuid}, nilUuid ∉ current →
    ((keepLive outs current).2.2 = true ↔ nilUuid ∈ (keepLive outs current).1)
  | [], _, _ => by simp [keepLive]
  | existing :: outs, current, hnil => by
    unfold keepLive
    split_ifs with hmem
    · have hne : nilUuid ≠ existing := fun h => hnil (h ▸ hmem)
      simpa [hne] using keepLive_replace outs fun h => hnil (mem_of_mem_erase h)
    · simp

theorem keepLive_of_subperm : ∀ (outs : List Uuid) {current : List Uuid}, nilUuid ∉ current →
    (live outs).Subperm current → (keepLive outs current).1 = outs
  | [], _, _, _ => rfl
  | existing :: outs, current, hnil, h => by
    by_cases hex : existing = nilUuid
    · subst hex
      simp [keepLive, hnil, keepLive_of_subperm outs hnil h]
    · rw [live_cons_of_ne hex] at h
      have hmem : existing ∈ current := h.subset mem_cons_self
      have hrest := (subperm_cons existing).1 (h.trans (perm_cons_erase hmem).subperm)
      simp [keepLive, hmem,
        keepLive_of_subperm outs (fun hin => hnil (mem_of_mem_erase hin)) hrest]

theorem keepLive_same : ∀ (outs : List Uuid) {current : List Uuid},
    (keepLive outs current).2.2 = false → (keepLive outs current).1 = outs
  | [], _, _ => rfl
  | existing :: outs, current, h => by
    unfold keepLive at h ⊢
    split_ifs at h ⊢ with hmem
    simpa using keepLive_same outs h

/-- What the first pass of `update` leaves. -/
structure Kept (outs current : List Uuid) (kept : List Uuid × List Uuid × Bool) : Prop where
  length : kept.1.length = outs.length
  perm : (live kept.1 ++ kept.2.1).Perm current
  replace : kept.2.2 = true ↔ nilUuid ∈ kept.1
  same : kept.2.2 = false → kept.1 = outs
  all : (live outs).Subperm current → kept.1 = outs
  keeps : (live outs).Nodup → ∀ {i : ℕ} {c : Uuid}, outs[i]? = some c → c ≠ nilUuid →
    c ∈ current → kept.1[i]? = some c

theorem keepLive_kept (outs : List Uuid) {current : List Uuid} (hnil : nilUuid ∉ current) :
    Kept outs current (keepLive outs (current.insertionSort (· ≤ ·))) := by
  have hsort : (current.insertionSort (· ≤ ·)).Perm current := perm_insertionSort _ _
  have hnil' : nilUuid ∉ current.insertionSort (· ≤ ·) := fun h => hnil (hsort.mem_iff.1 h)
  exact
    { length := keepLive_length outs _
      perm := (keepLive_perm outs hnil').trans hsort
      replace := keepLive_replace outs hnil'
      same := keepLive_same outs
      all := fun h => keepLive_of_subperm outs hnil' (h.trans hsort.symm.subperm)
      keeps := fun hd _ _ h hc hmem => keepLive_keeps outs hd h hc (hsort.mem_iff.2 hmem) }

theorem live_eq_self {outs : List Uuid} : live outs = outs ↔ nilUuid ∉ outs := by
  simp only [live, filter_eq_self, decide_eq_true_eq]
  exact ⟨fun h hmem => h _ hmem rfl, fun h c hc heq => h (heq ▸ hc)⟩

section Fill

variable (draws : ℕ → ℕ)

/-- What `fillStems` does: the slots get longer but not more than `n`, what is filled stays, and the
filled ones are as many as there can be. -/
structure Filled (n : ℕ) (outs current filled : List Uuid) : Prop where
  le_length : outs.length ≤ filled.length
  length_le : filled.length ≤ n
  keeps : ∀ {i : ℕ} {c : Uuid}, outs[i]? = some c → c ≠ nilUuid → filled[i]? = some c
  perm : ∃ left, (live filled ++ left).Perm (live outs ++ current)
  live_length : (live filled).length = min n ((live outs).length + current.length)

theorem Filled.cons {n : ℕ} {outs outs' current current' filled : List Uuid} {c : Uuid}
    (h : Filled n outs current' filled) (hc : c ≠ nilUuid) (hlen : outs'.length ≤ outs.length + 1)
    (hkeeps : ∀ {i : ℕ} {d}, outs'[i]? = some d → d ≠ nilUuid → (c :: outs)[i]? = some d)
    (hperm : (c :: (live outs ++ current')).Perm (live outs' ++ current)) :
    Filled (n + 1) outs' current (c :: filled) where
  le_length := hlen.trans (Nat.succ_le_succ h.le_length)
  length_le := Nat.succ_le_succ h.length_le
  keeps {i} _ hi hd := by
    have hold := hkeeps hi hd
    cases i with
    | zero => exact hold
    | succ i => exact h.keeps hold hd
  perm := by
    obtain ⟨left, hleft⟩ := h.perm
    refine ⟨left, ?_⟩
    rw [live_cons_of_ne hc]
    exact (hleft.cons c).trans hperm
  live_length := by
    have hcount := hperm.length_eq
    have := h.live_length
    simp only [live_cons_of_ne hc, length_cons, length_append] at hcount ⊢
    omega

/-- The second pass fills the free places and adds stems while there are connections left. -/
theorem fillStems_filled : ∀ (n : ℕ) (outs current : List Uuid), outs.length ≤ n →
    nilUuid ∉ current → Filled n outs current (fillStems draws n outs current)
  | 0, outs, current, hle, _ => by
    obtain rfl : outs = [] := length_eq_zero_iff.1 (Nat.le_zero.1 hle)
    exact ⟨le_rfl, le_rfl, fun h _ => h, ⟨current, .refl _⟩, by simp [fillStems, live]⟩
  | n + 1, [], current, _, hnil => by
    unfold fillStems
    rcases htake : Shuffle.takeRandom (draws n) current with _ | ⟨c, current'⟩
    · obtain rfl := Shuffle.eq_nil_of_takeRandom htake
      exact ⟨le_rfl, Nat.zero_le _, fun h _ => h, ⟨[], .refl _⟩, by simp [live]⟩
    · have hperm := Shuffle.takeRandom_perm htake
      rw [← hperm.mem_iff, mem_cons, not_or] at hnil
      refine (fillStems_filled n [] current' (Nat.zero_le n) hnil.2).cons (Ne.symm hnil.1)
        (Nat.zero_le _) (fun h _ => ?_) hperm
      simp at h
  | n + 1, out :: outs, current, hle, hnil => by
    have hle' : outs.length ≤ n := Nat.le_of_succ_le_succ hle
    unfold fillStems
    split_ifs with hout
    · subst hout
      rcases htake : Shuffle.takeRandom (draws n) current with _ | ⟨c, current'⟩
      · obtain rfl := Shuffle.eq_nil_of_takeRandom htake
        have hlive : (live outs).length ≤ outs.length := length_filter_le _ _
        refine ⟨le_rfl, hle, fun h _ => h, ⟨[], by simp⟩, ?_⟩
        simp only [live_cons_nil, length_nil]
        omega
      · have hperm := Shuffle.takeRandom_perm htake
        rw [← hperm.mem_iff, mem_cons, not_or] at hnil
        refine (fillStems_filled n outs current' hle' hnil.2).cons (Ne.symm hnil.1) le_rfl ?_ ?_
        · rintro (_ | i) d h hd
          · exact absurd (by simpa using h.symm) hd
          · exact h
        · rw [live_cons_nil]
          exact perm_middle.symm.trans (hperm.append_left _)
    · refine (fillStems_filled n outs current hle' hnil).cons hout le_rfl (fun h _ => h) ?_
      rw [live_cons_of_ne hout, cons_append]

theorem fillStems_nil : ∀ (n : ℕ) (outs : List Uuid), fillStems draws n outs [] = outs
  | 0, _ => rfl
  | _ + 1, [] => rfl
  | n + 1, out :: outs => by
    unfold fillStems
    split_ifs
    · rfl
    · rw [fillStems_nil n outs]

theorem Filled.eq_of_full {n : ℕ} {outs current filled : List Uuid}
    (h : Filled n outs current filled) (hfull : nilUuid ∉ outs)
    (hlen : filled.length ≤ outs.length) : filled = outs := by
  refine ext_getElem? fun i => ?_
  rcases hi : outs[i]? with _ | c
  · exact getElem?_eq_none (hlen.trans (getElem?_eq_none_iff.1 hi))
  · exact h.keeps hi fun hc => hfull (hc ▸ mem_of_getElem? hi)

end Fill

/-- The two passes of `update` together. -/
theorem ConnectionMap.update_filled (draws : ℕ → ℕ) {current : List Uuid} {m : ConnectionMap}
    (hnil : nilUuid ∉ current) (hlen : m.outMapping.length ≤ m.usageCount.length)
    (hlive : (live m.outMapping).Nodup) :
    let outs := (m.update draws current).2.outMapping
    m.outMapping.length ≤ outs.length ∧ outs.length ≤ m.usageCount.length ∧
      (∃ left, (live outs ++ left).Perm current) ∧
      (live outs).length = min m.usageCount.length current.length ∧
      ∀ {i : ℕ} {c : Uuid}, m.outMapping[i]? = some c → c ≠ nilUuid → c ∈ current →
        outs[i]? = some c := by
  have hkept := keepLive_kept m.outMapping hnil
  unfold update
  generalize keepLive m.outMapping (current.insertionSort (· ≤ ·)) = kept at *
  obtain ⟨outs, left, replace⟩ := kept
  obtain ⟨hkeptlen, hperm, hreplace, -, -, hkeeps⟩ := hkept
  simp only [] at hkeptlen hperm hreplace hkeeps ⊢
  have hcount := hperm.length_eq
  rw [length_append] at hcount
  split_ifs with hsame
  · simp only [Bool.and_eq_true, decide_eq_true_eq] at hsame
    have hall : live outs = outs := live_eq_self.2 fun h => by simp [hreplace.2 h] at hsame
    rw [hall] at hcount
    refine ⟨hkeptlen.ge, hsame.2.le, ⟨left, hperm⟩, ?_, hkeeps hlive⟩
    rw [hall]
    omega
  · have hf := fillStems_filled draws m.usageCount.length outs left (hkeptlen ▸ hlen)
      fun h => hnil (hperm.mem_iff.1 (mem_append_right _ h))
    obtain ⟨left', hleft⟩ := hf.perm
    refine ⟨hkeptlen ▸ hf.le_length, hf.length_le, ⟨left', hleft.trans hperm⟩, ?_,
      fun h hc hmem => hf.keeps (hkeeps hlive h hc hmem) hc⟩
    rw [hf.live_length, hcount]

/-- `update` says that the slots have changed just when they have, unless a slot is nil and the
connections are those of the other slots: then it says so and there is nothing to fill it with. -/
theorem ConnectionMap.update_reports_iff (draws : ℕ → ℕ) {current : List Uuid} {m : ConnectionMap}
    (hnil : nilUuid ∉ current) (hlen : m.outMapping.length ≤ m.usageCount.length) :
    ((m.update draws current).1 = true ↔
      (m.update draws current).2.outMapping ≠ m.outMapping) ↔
      ¬ (nilUuid ∈ m.outMapping ∧ current.Perm (live m.outMapping)) := by
  have hkept := keepLive_kept m.outMapping hnil
  unfold update
  generalize keepLive m.outMapping (current.insertionSort (· ≤ ·)) = kept at *
  obtain ⟨outs, left, replace⟩ := kept
  obtain ⟨hkeptlen, hperm, hreplace, hsame, hall, -⟩ := hkept
  simp only [] at hkeptlen hperm hreplace hsame hall ⊢
  have hf := fillStems_filled draws m.usageCount.length outs left (hkeptlen ▸ hlen)
    fun h => hnil (hperm.mem_iff.1 (mem_append_right _ h))
  cases replace with
  | false =>
    obtain rfl := hsame rfl
    have hfull : nilUuid ∉ m.outMapping := fun h => by simpa using hreplace.2 h
    refine iff_of_true ?_ fun h => hfull h.1
    split_ifs
    · simp
    · simp only [Bool.false_or, decide_eq_true_eq]
      refine ⟨fun hlt heq => by simp [heq] at hlt, fun hne => ?_⟩
      by_contra hle
      exact hne (hf.eq_of_full hfull (not_lt.1 hle))
  | true =>
    simp only [Bool.not_true, Bool.false_and, Bool.false_eq_true, if_false, Bool.true_or, true_iff]
    refine not_congr ⟨fun heq => ?_, fun h => ?_⟩
    · -- what is in the slots at the end is in the list, so no connection has gone
      rw [heq] at hf
      obtain ⟨left', hleft⟩ := hf.perm
      have hcurrent := hleft.trans hperm
      obtain rfl := hall ((sublist_append_left _ _).subperm.trans hcurrent.subperm)
      have hmem : nilUuid ∈ m.outMapping := hreplace.1 rfl
      have hlt : (live m.outMapping).length < m.outMapping.length :=
        lt_of_le_of_ne (length_filter_le _ _) fun h =>
          live_eq_self.1 (filter_sublist.eq_of_length h) hmem
      have hlength := hf.live_length
      obtain rfl : left = [] := length_eq_zero_iff.1 (by omega)
      exact ⟨hmem, by simpa using hperm.symm⟩
    · have hcurrent := h.2
      obtain rfl := hall hcurrent.symm.subperm
      have hcount := (hperm.trans hcurrent).length_eq
      rw [length_append] at hcount
      obtain rfl : left = [] := length_eq_zero_iff.1 (by omega)
      exact fillStems_nil draws _ _

/-- The connection of one of two stems is gone. -/
theorem ConnectionMap.update_reports_gone :
    (ConnectionMap.update (fun _ => 0) [1] ⟨[1, 2], [], [0, 0]⟩).1 = true ↔
      (ConnectionMap.update (fun _ => 0) [1] ⟨[1, 2], [], [0, 0]⟩).2.outMapping ≠ [1, 2] :=
  (update_reports_iff (fun _ => 0) (by decide) (by decide)).2 (by decide)

/-- Then the same connections again. -/
theorem ConnectionMap.update_reports_again :
    let m := (ConnectionMap.update (fun _ => 0) [1] (.make (fun _ => 0) [1, 2] 2)).2
    (m.update (fun _ => 0) [1]).1 = true ∧
      (m.update (fun _ => 0) [1]).2.outMapping = m.outMapping :=
  ⟨by decide, by decide⟩

@[simp] theorem ConnectionMap.update_inMapping (draws : ℕ → ℕ) (current : List Uuid)
    (m : ConnectionMap) : (m.update draws current).2.inMapping = m.inMapping := by
  unfold update
  simp only []
  split_ifs <;> rfl

@[simp] theorem ConnectionMap.update_usageCount (draws : ℕ → ℕ) (current : List Uuid)
    (m : ConnectionMap) : (m.update draws current).2.usageCount = m.usageCount := by
  unfold update
  simp only []
  split_ifs <;> rfl

section Select

variable {usage : List ℕ}

theorem mem_leastUsed : ∀ {outs : List Uuid} {location : ℕ} {lowest : Option ℕ} {choices : List ℕ}
    {x : ℕ}, x ∈ leastUsed usage location outs lowest choices →
      x ∈ choices ∨ ∃ j c, outs[j]? = some c ∧ c ≠ nilUuid ∧ x = location + j
  | [], _, _, _, _, h => .inl h
  | out :: outs, location, lowest, choices, x, h => by
    -- one more slot has been looked at, and it was taken or not
    have hstep : ∀ {low choices'}, x ∈ leastUsed usage (location + 1) outs low choices' →
        (x ∈ choices' → x ∈ choices ∨ x = location ∧ out ≠ nilUuid) →
        x ∈ choices ∨ ∃ j c, (out :: outs)[j]? = some c ∧ c ≠ nilUuid ∧ x = location + j := by
      intro low choices' h' hchoices
      rcases mem_leastUsed h' with hin | ⟨j, c, hj, hc, rfl⟩
      · rcases hchoices hin with hin | ⟨rfl, hout⟩
        · exact .inl hin
        · exact .inr ⟨0, out, rfl, hout, rfl⟩
      · exact .inr ⟨j + 1, c, hj, hc, by omega⟩
    unfold leastUsed at h
    split_ifs at h with hout
    · exact hstep h .inl
    · cases lowest with
      | none => exact hstep h fun hx => .inr ⟨by simpa using hx, hout⟩
      | some low =>
        simp only [] at h
        split_ifs at h
        · exact hstep h fun hx => .inr ⟨by simpa using hx, hout⟩
        · refine hstep h fun hx => ?_
          rcases mem_append.1 hx with hx | hx
          · exact .inl hx
          · exact .inr ⟨by simpa using hx, hout⟩
        · exact hstep h .inl

theorem leastUsed_ne_nil : ∀ {outs : List Uuid} {location : ℕ} {lowest : Option ℕ}
    {choices : List ℕ}, choices ≠ [] ∨ lowest = none ∧ live outs ≠ [] →
      leastUsed usage location outs lowest choices ≠ []
  | [], _, _, _, h => by
    rcases h with h | ⟨-, h⟩
    · exact h
    · exact absurd rfl h
  | out :: outs, location, lowest, choices, h => by
    unfold leastUsed
    split_ifs with hout
    · subst hout
      exact leastUsed_ne_nil h
    · cases lowest with
      | none => exact leastUsed_ne_nil (.inl (by simp))
      | some low =>
        have hne : choices ≠ [] := by
          rcases h with h | ⟨h, -⟩
          · exact h
          · cases h
        simp only []
        split_ifs
        · exact leastUsed_ne_nil (.inl (by simp))
        · exact leastUsed_ne_nil (.inl (by simp))
        · exact leastUsed_ne_nil (.inl hne)

variable {outs : List Uuid} {draw : ℕ}

/-- The stem selected is connected. -/
theorem selectStem_some {i : ℕ} (h : selectStem usage outs draw = some i) :
    ∃ c, outs[i]? = some c ∧ c ≠ nilUuid := by
  unfold selectStem at h
  split_ifs at h
  rcases mem_leastUsed (mem_of_getElem? h) with hin | ⟨j, c, hj, hc, rfl⟩
  · exact absurd hin not_mem_nil
  · exact ⟨c, by rwa [Nat.zero_add], hc⟩

/-- No stem is selected only if none is connected. -/
theorem selectStem_eq_none_iff (hlen : outs.length ≤ usage.length) :
    selectStem usage outs draw = none ↔ live outs = [] := by
  unfold selectStem
  rw [if_neg (not_lt.2 hlen)]
  constructor
  · intro h
    by_contra hlive
    have hne : leastUsed usage 0 outs none [] ≠ [] := leastUsed_ne_nil (.inr ⟨rfl, hlive⟩)
    have hpos := length_pos_iff.2 hne
    simp only [getElem?_eq_none_iff] at h
    have := Nat.mod_lt draw hpos
    omega
  · intro hlive
    rcases hc : leastUsed usage 0 outs none [] with _ | ⟨x, xs⟩
    · rfl
    · rcases mem_leastUsed (hc ▸ mem_cons_self (a := x) (l := xs)) with hin | ⟨j, c, hj, hc, -⟩
      · exact absurd hin not_mem_nil
      · have := mem_live.2 ⟨mem_of_getElem? hj, hc⟩
        rw [hlive] at this
        exact absurd this not_mem_nil

end Select

section Count

variable {usage : List ℕ} {ins ins' : List (Uuid × ℕ)} {source : Uuid} {slot : ℕ}

/-- The usage counts are those of the assignments. -/
def Counted (usage : List ℕ) (ins : List (Uuid × ℕ)) : Prop :=
  ∀ i n, usage[i]? = some n → n = ins.countP fun e => e.2 = i

theorem Counted.perm (h : Counted usage ins) (hperm : ins.Perm ins') : Counted usage ins' := by
  intro i n hi
  rw [h i n hi, hperm.countP_eq]

/-- An assignment counts for its stem. -/
theorem Counted.assign (h : Counted usage ins) :
    Counted (usage.modify slot (· + 1)) ((source, slot) :: ins) := by
  intro i n hi
  rw [getElem?_modify, Option.map_eq_map, Option.map_eq_some_iff] at hi
  obtain ⟨k, hk, rfl⟩ := hi
  rw [countP_cons, ← h i k hk]
  by_cases hslot : slot = i <;> simp [hslot]

/-- An assignment that ends is no longer counted. -/
theorem Counted.release (h : Counted usage ((source, slot) :: ins)) :
    Counted (usage.modify slot (· - 1)) ins := by
  intro i n hi
  rw [getElem?_modify, Option.map_eq_map, Option.map_eq_some_iff] at hi
  obtain ⟨k, hk, rfl⟩ := hi
  have hcount := h i k hk
  rw [countP_cons] at hcount
  by_cases hslot : slot = i
  · simp only [hslot, decide_true, if_true] at hcount ⊢
    omega
  · simpa [hslot] using hcount

theorem insertSource_perm (source : Uuid) (index : ℕ) : ∀ ins : List (Uuid × ℕ),
    (insertSource source index ins).Perm ((source, index) :: ins)
  | [] => .refl _
  | (other, i) :: rest => by
    unfold insertSource
    split_ifs
    · exact .refl _
    · exact ((insertSource_perm source index rest).cons _).trans (.swap _ _ _)

/-- The source is assigned to the connection. -/
def ConnectionMap.Held (m : ConnectionMap) (source c : Uuid) : Prop :=
  ∃ slot, (source, slot) ∈ m.inMapping ∧ m.outMapping[slot]? = some c

/-- The sources are assigned to slots that exist, once each, and counted there. -/
structure ConnectionMap.Assigned (m : ConnectionMap) : Prop where
  length_le : m.outMapping.length ≤ m.usageCount.length
  sources : (m.inMapping.map Prod.fst).Nodup
  inRange : ∀ e ∈ m.inMapping, e.2 < m.outMapping.length
  counted : Counted m.usageCount m.inMapping

theorem ConnectionMap.Assigned.of_perm {m m' : ConnectionMap} {others : List (Uuid × ℕ)} (slot : ℕ)
    (h : m.Assigned) (houts : m'.outMapping = m.outMapping)
    (hlen : m'.usageCount.length = m.usageCount.length)
    (hothers : others.Sublist m.inMapping) (hsource : source ∉ others.map Prod.fst)
    (hperm : m'.inMapping.Perm others ∨
      slot < m.outMapping.length ∧ m'.inMapping.Perm ((source, slot) :: others))
    (hcounted : Counted m'.usageCount m'.inMapping) : m'.Assigned := by
  have hnodup : (others.map Prod.fst).Nodup := h.sources.sublist (hothers.map _)
  refine ⟨by rw [houts, hlen]; exact h.length_le, ?_, ?_, hcounted⟩
  · rcases hperm with hperm | ⟨-, hperm⟩
    · exact (hperm.map _).nodup_iff.2 hnodup
    · exact (hperm.map _).nodup_iff.2 (nodup_cons.2 ⟨hsource, hnodup⟩)
  · intro e he
    rw [houts]
    rcases hperm with hperm | ⟨hslot, hperm⟩
    · exact h.inRange e (hothers.subset (hperm.mem_iff.1 he))
    · rcases mem_cons.1 (hperm.mem_iff.1 he) with rfl | he
      · exact hslot
      · exact h.inRange e (hothers.subset he)

theorem lookup_eq_some_iff (hd : (ins.map Prod.fst).Nodup) :
    ins.lookup source = some slot ↔ (source, slot) ∈ ins := by
  have hmem : ∀ {i}, ins.lookup source = some i → (source, i) ∈ ins := by
    intro i hi
    obtain ⟨l₁, l₂, rfl, -⟩ := List.lookup_eq_some_iff.1 hi
    exact mem_append_right _ mem_cons_self
  refine ⟨hmem, fun h => ?_⟩
  cases hl : ins.lookup source with
  | none =>
    have := lookup_eq_none_iff.1 hl _ h
    simp at this
  | some i =>
    have heq := inj_on_of_nodup_map hd (hmem hl) h rfl
    rw [(Prod.mk.inj heq).2]

end Count

namespace ConnectionMap

variable {m : ConnectionMap} {draw : ℕ} {source : Uuid}

/-- What `get_stem` does: the other sources stay as they are, the one that asks is told a filled
slot and is assigned to it, or there is none. -/
structure Told (m : ConnectionMap) (source c : Uuid) (m' : ConnectionMap) : Prop where
  outMapping : m'.outMapping = m.outMapping
  usage_length : m'.usageCount.length = m.usageCount.length
  assigned : m'.Assigned
  others : ∀ {other : Uuid} {slot : ℕ}, other ≠ source → (other, slot) ∈ m.inMapping →
    (other, slot) ∈ m'.inMapping
  told : c = nilUuid ∧ live m.outMapping = [] ∨ c ≠ nilUuid ∧ m'.Held source c
  held : ∀ {d : Uuid}, d ≠ nilUuid → m.Held source d → c = d

theorem told_of_select {others : List (Uuid × ℕ)} {usage : List ℕ} {index : ℕ} {m' : ConnectionMap}
    (h : m.Assigned) (hlen : usage.length = m.usageCount.length)
    (hothers : others.Sublist m.inMapping) (hsource : source ∉ others.map Prod.fst)
    (hkept : ∀ {other slot}, other ≠ source → (other, slot) ∈ m.inMapping → (other, slot) ∈ others)
    (hcounted : Counted usage others) (hnot : ∀ {d : Uuid}, d ≠ nilUuid → ¬ m.Held source d)
    (hselect : selectStem usage m.outMapping draw = some index)
    (houts : m'.outMapping = m.outMapping) (husage : m'.usageCount = usage.modify index (· + 1))
    (hperm : m'.inMapping.Perm ((source, index) :: others)) :
    Told m source (m.outMapping.getD index nilUuid) m' := by
  obtain ⟨c, hc, hne⟩ := selectStem_some hselect
  have hget : m.outMapping.getD index nilUuid = c := by simp [hc]
  have hlen' : m'.usageCount.length = m.usageCount.length := by
    rw [husage, length_modify, hlen]
  refine ⟨houts, hlen', ?_, ?_, .inr ⟨?_, index, ?_, ?_⟩, fun hd hheld => absurd hheld (hnot hd)⟩
  · have hlt := (List.getElem?_eq_some_iff.1 hc).1
    refine h.of_perm index houts hlen' hothers hsource (.inr ⟨hlt, hperm⟩) ?_
    rw [husage]
    exact hcounted.assign.perm hperm.symm
  · intro other slot hother hmem
    exact hperm.mem_iff.2 (mem_cons_of_mem _ (hkept hother hmem))
  · rwa [hget]
  · exact hperm.mem_iff.2 mem_cons_self
  · rw [houts, hget, hc]

/-- `get_stem` returns the stem of the source and keeps the others. -/
theorem getStem_told (draw : ℕ) (source : Uuid) (h : m.Assigned) :
    Told m source (m.getStem draw source).1 (m.getStem draw source).2 := by
  unfold getStem
  cases hl : m.inMapping.lookup source with
  | none =>
    have hsource : source ∉ m.inMapping.map Prod.fst := by
      intro hin
      obtain ⟨⟨_, slot⟩, hmem, rfl⟩ := mem_map.1 hin
      rw [(lookup_eq_some_iff h.sources).2 hmem] at hl
      cases hl
    have hnot : ∀ {d : Uuid}, d ≠ nilUuid → ¬ m.Held source d :=
      fun _ ⟨slot, hmem, _⟩ => hsource (mem_map.2 ⟨_, hmem, rfl⟩)
    cases hselect : selectStem m.usageCount m.outMapping draw with
    | none =>
      exact ⟨rfl, rfl, h, fun _ => id, .inl ⟨rfl, (selectStem_eq_none_iff h.length_le).1 hselect⟩,
        fun hd hheld => absurd hheld (hnot hd)⟩
    | some index =>
      exact told_of_select h rfl (.refl _) hsource (fun _ => id) h.counted hnot hselect rfl rfl
        (insertSource_perm source index m.inMapping)
  | some slot =>
    have hmem := (lookup_eq_some_iff h.sources).1 hl
    obtain ⟨c, hc⟩ : ∃ c, m.outMapping[slot]? = some c :=
      ⟨_, getElem?_eq_getElem (h.inRange _ hmem)⟩
    have hget : m.outMapping.getD slot nilUuid = c := by simp [hc]
    -- the source has no other slot
    have hheld : ∀ {d : Uuid}, m.Held source d → c = d := by
      rintro d ⟨i, hi, hd⟩
      rw [(lookup_eq_some_iff h.sources).2 hi] at hl
      cases hl
      rw [hc] at hd
      exact Option.some.inj hd
    simp only [hget]
    split_ifs with hnil
    · have hperm := Keyed.perm_cons_filter h.sources hmem
      have hsub : (m.inMapping.filter fun e => e.1 ≠ source).Sublist m.inMapping :=
        filter_sublist
      have hsource : source ∉ (m.inMapping.filter fun e => e.1 ≠ source).map Prod.fst := by
        simp
      have hkept : ∀ {other i}, other ≠ source → (other, i) ∈ m.inMapping →
          (other, i) ∈ m.inMapping.filter fun e => e.1 ≠ source := by
        intro other i hother hin
        simp [hin, hother]
      have hcounted := (h.counted.perm hperm).release
      have hlen : (m.usageCount.modify slot (· - 1)).length = m.usageCount.length :=
        length_modify ..
      have hnot : ∀ {d : Uuid}, d ≠ nilUuid → ¬ m.Held source d :=
        fun hd hd' => hd ((hheld hd').symm.trans hnil)
      cases hselect : selectStem (m.usageCount.modify slot (· - 1)) m.outMapping draw with
      | none =>
        refine ⟨rfl, hlen, ?_, hkept, .inl ⟨rfl, ?_⟩, fun hd hd' => absurd hd' (hnot hd)⟩
        · exact h.of_perm slot rfl hlen hsub hsource (.inl (.refl _)) hcounted
        · exact (selectStem_eq_none_iff (hlen ▸ h.length_le)).1 hselect
      | some index =>
        refine told_of_select h hlen hsub hsource hkept hcounted hnot hselect rfl rfl ?_
        refine (hperm.map _).trans ?_
        rw [map_cons, if_pos rfl, map_congr_left (g := id), map_id]
        intro e he
        exact if_neg (by simpa using (mem_filter.1 he).2)
    · exact ⟨rfl, rfl, h, fun _ => id, .inr ⟨hnil, slot, hmem, hc⟩, fun _ hd' => hheld hd'⟩

end ConnectionMap

/-- The ids of connections: distinct, and none is nil. -/
structure Connected (connections : List Uuid) : Prop where
  nodup : connections.Nodup
  nil_notMem : nilUuid ∉ connections

instance (connections : List Uuid) : Decidable (Connected connections) :=
  decidable_of_iff (connections.Nodup ∧ nilUuid ∉ connections)
    ⟨fun h => ⟨h.1, h.2⟩, fun h => ⟨h.1, h.2⟩⟩

/-- The connections given are distinct and none is nil. -/
def Op.Ok : Op → Prop
  | .update _ current => Connected current
  | .getStem .. => True

/-- The connection stays. -/
def Op.Keeps (c : Uuid) : Op → Prop
  | .update _ current => c ∈ current
  | .getStem .. => True

namespace Stems

variable {stems : ℕ} {s : Stems} {c source : Uuid} {op : Op}

/-- The stems are connected, and as many as possible. -/
structure Inv (stems : ℕ) (s : Stems) : Prop where
  usage_length : s.map.usageCount.length = stems
  perm : ∃ left, (live s.map.outMapping ++ left).Perm s.connections
  live_length : (live s.map.outMapping).length = min stems s.connections.length
  connected : Connected s.connections
  assigned : s.map.Assigned

theorem Inv.nodup (h : s.Inv stems) : (live s.map.outMapping).Nodup := by
  obtain ⟨left, hperm⟩ := h.perm
  exact (hperm.nodup_iff.2 h.connected.nodup).of_append_left

theorem Inv.subset (h : s.Inv stems) (hc : c ∈ live s.map.outMapping) : c ∈ s.connections := by
  obtain ⟨left, hperm⟩ := h.perm
  exact hperm.mem_iff.1 (mem_append_left _ hc)

/-- A map starts with as many stems as possible. -/
theorem make_inv (draws : ℕ → ℕ) {connections : List Uuid} (stems : ℕ) (h : Connected connections) :
    (make draws connections stems).Inv stems := by
  have hperm := Shuffle.shuffle_perm draws (min stems connections.length) 0 connections
  have hlive : live (make draws connections stems).map.outMapping =
      (make draws connections stems).map.outMapping := by
    refine filter_eq_self.2 fun c hc => decide_eq_true ?_
    rintro rfl
    exact h.nil_notMem (hperm.mem_iff.1 (mem_of_mem_take hc))
  have hlen : (make draws connections stems).map.outMapping.length =
      min stems connections.length := by
    rw [← hperm.length_eq]
    exact length_take ..
  have hleft : ∃ left,
      (live (make draws connections stems).map.outMapping ++ left).Perm connections := by
    refine ⟨(Shuffle.shuffle draws (min stems connections.length) 0 connections).drop stems, ?_⟩
    rw [hlive]
    exact (List.Perm.of_eq (take_append_drop stems _)).trans hperm
  refine ⟨length_replicate .., hleft, (congrArg _ hlive).trans hlen, h,
    ⟨?_, nodup_nil, ?_, ?_⟩⟩
  · rw [hlen]
    exact (Nat.min_le_left ..).trans_eq (length_replicate ..).symm
  · exact forall_mem_nil _
  · intro i n hi
    exact (eq_of_mem_replicate (mem_of_getElem? hi)).symm ▸ rfl

/-- Every operation keeps the invariant. -/
theorem step_inv (hop : op.Ok) (h : s.Inv stems) : (s.step op).Inv stems := by
  cases op with
  | update draws current =>
    obtain ⟨hle, hle', hperm, hlen, -⟩ := update_filled draws hop.nil_notMem
      h.assigned.length_le h.nodup
    refine ⟨?_, hperm, h.usage_length ▸ hlen, hop, ⟨?_, ?_, ?_, ?_⟩⟩
    · simpa [step] using h.usage_length
    · simpa [step] using hle'
    · simpa [step] using h.assigned.sources
    · intro e he
      rw [step, update_inMapping] at he
      exact (h.assigned.inRange e he).trans_le hle
    · simpa [step] using h.assigned.counted
  | getStem draw source =>
    have ht := getStem_told draw source h.assigned
    refine ⟨ht.usage_length.trans h.usage_length, ?_, ?_, h.connected, ht.assigned⟩
    · exact ht.outMapping.symm ▸ h.perm
    · exact ht.outMapping.symm ▸ h.live_length

/-- While its stem stays connected, a source keeps it. -/
theorem step_held (hc : c ≠ nilUuid) (hop : op.Ok) (hkeeps : op.Keeps c) (h : s.Inv stems)
    (hheld : s.map.Held source c) : (s.step op).map.Held source c := by
  obtain ⟨slot, hmem, hslot⟩ := hheld
  cases op with
  | update draws current =>
    obtain ⟨-, -, -, -, hkept⟩ := update_filled draws hop.nil_notMem
      h.assigned.length_le h.nodup
    exact ⟨slot, by simpa [step] using hmem, hkept hslot hc hkeeps⟩
  | getStem draw other =>
    have ht := getStem_told draw other h.assigned
    by_cases hsource : source = other
    · subst hsource
      have hsame := ht.held hc ⟨slot, hmem, hslot⟩
      rcases ht.told with ⟨hnil, -⟩ | ⟨-, htold⟩
      · exact absurd (hsame.symm.trans hnil) hc
      · exact hsame ▸ htold
    · exact ⟨slot, ht.others hsource hmem, ht.outMapping.symm ▸ hslot⟩

/-- The invariant holds after every run. -/
theorem run_inv : ∀ (ops : List Op) {s : Stems}, (∀ op ∈ ops, op.Ok) → s.Inv stems →
    (s.run ops).Inv stems
  | [], _, _, h => h
  | op :: ops, s, hops, h => by
    rw [forall_mem_cons] at hops
    exact run_inv ops hops.2 (step_inv hops.1 h)

/-- A source keeps its stem over a run in which the stem stays connected. -/
theorem run_held (hc : c ≠ nilUuid) : ∀ (ops : List Op) {s : Stems},
    (∀ op ∈ ops, op.Ok ∧ op.Keeps c) → s.Inv stems → s.map.Held source c →
      (s.run ops).map.Held source c
  | [], _, _, _, hheld => hheld
  | op :: ops, _, hops, h, hheld => by
    rw [forall_mem_cons] at hops
    obtain ⟨⟨hop, hkeeps⟩, hops⟩ := hops
    exact run_held hc ops hops (step_inv hop h) (step_held hc hop hkeeps h hheld)

/-- In every state that a map for distinct connections gets to, the filled slots have distinct
connections of the last list, as many as there can be, and a source is told the same one for as long
as it is there. -/
theorem run_stemMap (draws : ℕ → ℕ) {connections : List Uuid} (stems : ℕ) {ops : List Op}
    (hconnections : Connected connections) (hops : ∀ op ∈ ops, op.Ok) :
    let s := (make draws connections stems).run ops
    ((live s.map.outMapping).Nodup ∧ ∀ c ∈ live s.map.outMapping, c ∈ s.connections) ∧
    (s.map.size = (live s.map.outMapping).length ∧
      s.map.size = min stems s.connections.length) ∧
    (∀ slot n, s.map.usageCount[slot]? = some n →
      n = s.map.inMapping.countP fun e => e.2 = slot) ∧
    (∀ draw source, (s.map.getStem draw source).1 = nilUuid ↔ live s.map.outMapping = []) ∧
    ∀ draw source ops' draw', (s.map.getStem draw source).1 ≠ nilUuid →
      (∀ op ∈ ops', op.Ok ∧ op.Keeps (s.map.getStem draw source).1) →
      (((s.step (.getStem draw source)).run ops').map.getStem draw' source).1 =
        (s.map.getStem draw source).1 := by
  intro s
  have h : s.Inv stems := run_inv ops hops (make_inv draws stems hconnections)
  have hsize : s.map.size = (live s.map.outMapping).length := countP_eq_length_filter
  refine ⟨⟨h.nodup, fun c => h.subset⟩, ⟨hsize, hsize.trans h.live_length⟩, h.assigned.counted,
    ?_, ?_⟩
  · intro draw source
    have ht := getStem_told draw source h.assigned
    rcases ht.told with ⟨hnil, hlive⟩ | ⟨hne, slot, -, hslot⟩
    · exact iff_of_true hnil hlive
    · refine iff_of_false hne fun hlive => ?_
      have hmem := mem_live.2 ⟨mem_of_getElem? (ht.outMapping ▸ hslot), hne⟩
      rw [hlive] at hmem
      exact not_mem_nil hmem
  · intro draw source ops' draw' hne hkeeps
    have ht := getStem_told draw source h.assigned
    have hheld : (s.step (.getStem draw source)).map.Held source (s.map.getStem draw source).1 := by
      rcases ht.told with ⟨hnil, -⟩ | ⟨-, hheld⟩
      · exact absurd hnil hne
      · exact hheld
    have h' : (s.step (.getStem draw source)).Inv stems := step_inv trivial h
    have hrun := run_inv ops' (fun op hop => (hkeeps op hop).1) h'
    exact (getStem_told draw' source hrun.assigned).held hne
      (run_held hne ops' hkeeps h' hheld)

/-- Two stems, a source, and an update without one of the connections. -/
theorem run_stemMap_oneLeaves :
    let s := (make (fun _ => 0) [1, 2, 3] 2).run [.getStem 0 7, .update (fun _ => 0) [2, 3]]
    s.map.size = 2 ∧ ∀ draw source, (s.map.getStem draw source).1 ≠ nilUuid := by
  have hops : ∀ op ∈ [Op.getStem 0 7, .update (fun _ => 0) [2, 3]], op.Ok := by
    intro op hop
    rcases mem_pair.1 hop with rfl | rfl
    · exact trivial
    · exact (by decide : Connected [2, 3])
  have h := run_stemMap (fun _ => 0) 2 (by decide : Connected [1, 2, 3]) hops
  refine ⟨h.2.1.2, fun draw source hnil => ?_⟩
  have hlive := (h.2.2.2.1 draw source).1 hnil
  revert hlive
  decide

/-- A connection that is in the list twice fills two stems. -/
theorem make_repeated : ¬ (live (make (fun _ => 0) [5, 5] 2).map.outMapping).Nodup := by
  decide

end Stems

end Nerva.Dandelionpp
