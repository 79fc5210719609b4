import Mathlib.Data.List.Induction
import Mathlib.Data.Nat.ModEq
import Nerva.Lib.HeapOrder
import Nerva.Lib.Sorting
import Nerva.Reward
import Nerva.RollingMedian

/-!
# What the rolling median computes

The two heaps are kept in order by exchanges, and an exchange only permutes the slots in use. So
after every `insert` the slots left of the median hold values below it and those right of it values
above.
-/

namespace Nerva

open HeapOrder List Side Function

/-- The order of a heap, with the median at its root. -/
def Side.le : Side → ℕ → ℕ → Prop
  | .min, a, b => a ≤ b
  | .max, a, b => b ≤ a

namespace Side

variable {s : Side} {a b : ℕ}

instance : IsTrans ℕ s.le where
  trans a b c hab hbc := by
    cases s with
    | min => exact Nat.le_trans hab hbc
    | max => exact Nat.le_trans hbc hab

instance : Std.Refl s.le where
  refl a := by cases s <;> exact Nat.le_refl a

theorem le_total : s.le a b ∨ s.le b a := by
  cases s with
  | min => exact Nat.le_total a b
  | max => exact Nat.le_total b a

theorem le_of_not_le (h : ¬s.le a b) : s.le b a := s.le_total.resolve_left h

@[simp] theorem other_le : s.other.le a b ↔ s.le b a := by cases s <;> exact Iff.rfl

@[simp] theorem other_other : s.other.other = s := by cases s <;> rfl

theorem eq_or_eq_other (s t : Side) : t = s ∨ t = s.other := by
  cases s <;> cases t <;> decide

theorem slot_injective (s : Side) : Function.Injective s.slot := by
  intro a b h
  cases s <;> simp only [slot] at h <;> omega

@[simp] theorem slot_zero (s : Side) : s.slot 0 = 0 := by cases s <;> rfl

theorem other_slot_ne (s : Side) {j k : ℕ} (h : j ≠ 0 ∨ k ≠ 0) : s.other.slot j ≠ s.slot k := by
  cases s <;> simp only [slot, other] <;> omega

end Side

namespace RollingMedian

variable {m m' : RollingMedian} {s : Side} {k : ℕ} {j n v : ℕ} {w : List ℕ}

/-- The value at a slot of the heap. -/
def val (m : RollingMedian) (i : ℤ) : ℕ := m.data (m.heap i)

def side (m : RollingMedian) (s : Side) (k : ℕ) : ℕ := m.val (s.slot k)

theorem side_zero (m : RollingMedian) (s t : Side) : m.side s 0 = m.side t 0 := by
  simp only [side, slot_zero]

/-- The positions and the heap slots are inverse to each other. -/
structure Inverse (m : RollingMedian) : Prop where
  heap_pos : ∀ k, m.heap (m.pos k) = k
  pos_heap : ∀ i, m.pos (m.heap i) = i

/-- The same items in other slots. -/
def permuted (m : RollingMedian) (σ : Equiv.Perm ℤ) : RollingMedian :=
  { m with heap := m.heap ∘ σ, pos := σ.symm ∘ m.pos }

theorem Inverse.permuted (h : m.Inverse) (σ : Equiv.Perm ℤ) : (m.permuted σ).Inverse where
  heap_pos k := by simp [RollingMedian.permuted, h.heap_pos]
  pos_heap i := by simp [RollingMedian.permuted, h.pos_heap]

def exch (m : RollingMedian) (s : Side) (j k : ℕ) : RollingMedian :=
  m.permuted (Equiv.swap (s.slot j) (s.slot k))

/-- `mmexchange` swaps two slots. -/
theorem mmexchange_eq (h : m.Inverse) (i j : ℤ) :
    m.mmexchange i j = m.permuted (Equiv.swap i j) := by
  have hheap : Function.update (Function.update m.heap i (m.heap j)) j (m.heap i) =
      m.heap ∘ Equiv.swap i j := by
    funext x
    simp only [update_apply, comp_apply, Equiv.swap_apply_def]
    split_ifs with hj hi <;> simp_all
  have hpos : Function.update (Function.update m.pos (m.heap j) i) (m.heap i) j =
      Equiv.swap i j ∘ m.pos := by
    funext x
    have hx : ∀ y, x = m.heap y ↔ m.pos x = y := fun y =>
      ⟨fun hxy => by rw [hxy, h.pos_heap], fun hxy => by rw [← hxy, h.heap_pos]⟩
    simp only [update_apply, comp_apply, Equiv.swap_apply_def, hx]
  unfold mmexchange permuted
  simp only [hheap, comp_apply, Equiv.swap_apply_left, Equiv.swap_apply_right, hpos,
    Equiv.symm_swap]

/-- Only slots within the heaps are permuted. -/
def Moved (m m' : RollingMedian) : Prop :=
  ∃ σ : Equiv.Perm ℤ, (∀ i : ℤ, i < -m.maxCt ∨ m.minCt < i → σ i = i) ∧ m' = m.permuted σ

theorem Moved.refl (m : RollingMedian) : m.Moved m :=
  ⟨Equiv.refl ℤ, fun _ _ => rfl, rfl⟩

theorem Moved.trans {m₁ m₂ m₃ : RollingMedian} (h : m₁.Moved m₂) (h' : m₂.Moved m₃) :
    m₁.Moved m₃ := by
  obtain ⟨σ, hσ, rfl⟩ := h
  obtain ⟨τ, hτ, rfl⟩ := h'
  refine ⟨τ.trans σ, fun i hi => ?_, rfl⟩
  rw [Equiv.trans_apply, hτ i hi, hσ i hi]

theorem Moved.inverse (h : m.Moved m') (hinv : m.Inverse) : m'.Inverse := by
  obtain ⟨σ, -, rfl⟩ := h
  exact hinv.permuted σ

theorem Moved.ct (h : m.Moved m') (s : Side) : m'.ct s = m.ct s := by
  obtain ⟨σ, -, rfl⟩ := h
  rfl

theorem moved_swap {k : ℕ} (hj : j ≤ m.ct s) (hk : k ≤ m.ct s) :
    m.Moved (m.exch s j k) := by
  refine ⟨_, fun i hi => Equiv.swap_apply_of_ne_of_ne ?_ ?_, rfl⟩ <;>
    · rintro rfl
      cases s <;> simp only [RollingMedian.ct, slot] at * <;> omega

theorem before_iff {k : ℕ} : m.before s j k = true ↔ ¬s.le (m.side s k) (m.side s j) := by
  cases s <;> simp [before, mmless, le, side, val, slot]

theorem cmpExch_eq (h : m.Inverse) (s : Side) (j k : ℕ) :
    m.cmpExch s j k =
      if m.before s j k then some (m.exch s j k) else none := by
  cases s with
  | min =>
    rw [cmpExch, mmCmpExch, mmexchange_eq h]
    rfl
  | max =>
    rw [cmpExch, mmCmpExch, mmexchange_eq h, Equiv.swap_comm]
    rfl

theorem side_swap (m : RollingMedian) (s : Side) (j k : ℕ) :
    (m.exch s j k).side s = m.side s ∘ Equiv.swap j k := by
  funext x
  simp only [side, val, exch, permuted, comp_apply, s.slot_injective.swap_apply]

theorem other_side_swap (m : RollingMedian) (s : Side) {k x : ℕ} (h : x ≠ 0 ∨ j ≠ 0 ∧ k ≠ 0) :
    (m.exch s j k).side s.other x = m.side s.other x := by
  simp only [side, val, exch, permuted, comp_apply]
  rw [Equiv.swap_apply_of_ne_of_ne (s.other_slot_ne (by omega)) (s.other_slot_ne (by omega))]

/-- After `minSortDown` or `maxSortDown` the side is ordered. -/
structure SortedDown (s : Side) (m m' : RollingMedian) : Prop where
  moved : m.Moved m'
  ordered : Ordered s.le (m.ct s) (m'.side s)
  rest : ∀ x, m'.side s.other x = m.side s.other x

theorem chosen_first (hk : 1 ≤ k) (hkn : k * 2 ≤ m.ct s) :
    ∃ j, j = (if k * 2 < m.ct s && m.before s (k * 2 + 1) (k * 2) then k * 2 + 1 else k * 2) ∧
      j ≤ m.ct s ∧ j / 2 = k ∧ k < j ∧
      ∀ x, 1 ≤ x → x ≤ m.ct s → x / 2 = k → s.le (m.side s j) (m.side s x) := by
  refine ⟨_, rfl, ?_⟩
  split_ifs with hright
  · simp only [Bool.and_eq_true, decide_eq_true_eq, before_iff] at hright
    refine ⟨by omega, by omega, by omega, fun x _ _ hxk => ?_⟩
    obtain rfl | rfl : x = k * 2 ∨ x = k * 2 + 1 := by omega
    · exact le_of_not_le hright.2
    · exact refl_of s.le _
  · simp only [Bool.and_eq_true, decide_eq_true_eq, before_iff, not_and, not_not] at hright
    refine ⟨hkn, by omega, by omega, fun x _ hxn hxk => ?_⟩
    obtain rfl | rfl : x = k * 2 ∨ x = k * 2 + 1 := by omega
    · exact refl_of s.le _
    · exact hright (by omega)

/-- Sinking a value restores the order of its side. -/
theorem sortDown_sorted : ∀ (fuel : ℕ) (m : RollingMedian) (k : ℕ), m.Inverse → 1 ≤ k →
    m.ct s < k + fuel → DownAt s.le (m.ct s) (m.side s) k → SortedDown s m (sortDown s fuel m k)
  | 0, m, k, _, _, hfuel, hdown =>
    ⟨.refl m, hdown.ordered fun j _ hjn hjk => absurd hjn (by omega), fun _ => rfl⟩
  | fuel + 1, m, k, hinv, hk, hfuel, hdown => by
    unfold sortDown
    by_cases hchild : k * 2 ≤ m.ct s
    · simp only [if_pos hchild]
      obtain ⟨j, hj, hjn, hjk, hlt, hfirst⟩ := chosen_first hk hchild
      rw [← hj, hjk, cmpExch_eq hinv]
      by_cases hbefore : m.before s j k = true
      · rw [if_pos hbefore]
        rw [before_iff] at hbefore
        have hmoved : m.Moved (m.exch s j k) :=
          moved_swap hjn (by omega)
        have hnext := sortDown_sorted fuel (m.exch s j k) j
          (hinv.permuted _) (by omega) (by rw [hmoved.ct]; omega) (by
            rw [side_swap]
            exact hdown.swap hk hjn hjk hfirst (le_of_not_le hbefore))
        refine ⟨hmoved.trans hnext.moved, ?_, fun x => ?_⟩
        · rw [← hmoved.ct]
          exact hnext.ordered
        · rw [hnext.rest, other_side_swap m s (.inr ⟨by omega, by omega⟩)]
      · rw [if_neg hbefore]
        rw [before_iff, not_not] at hbefore
        exact ⟨.refl m, hdown.ordered fun x hx hxn hxk =>
          trans_of s.le hbefore (hfirst x hx hxn hxk), fun _ => rfl⟩
    · simp only [if_neg hchild]
      exact ⟨.refl m, hdown.ordered fun j _ hjn hjk => absurd hjn (by omega), fun _ => rfl⟩

/-- What moving slot `k` up leaves: the side is in order, and when the slot has become the median
the old median is next to it. -/
structure SortedUp (s : Side) (k : ℕ) (m m' : RollingMedian) (atMedian : Bool) : Prop where
  moved : m.Moved m'
  ordered : Ordered s.le (m.ct s) (m'.side s)
  rest : ∀ x, 1 ≤ x → m'.side s.other x = m.side s.other x
  kept : atMedian = false → m'.side s 0 = m.side s 0
  replaced : atMedian = true → m'.side s 0 = m.side s k ∧ (1 ≤ k → m'.side s 1 = m.side s 0)

theorem sortUp_zero (fuel : ℕ) (m : RollingMedian) : sortUp s fuel m 0 = (m, true) := by
  cases fuel <;> rfl

/-- Raising a value restores the order of its side, up to the median. -/
theorem sortUp_sorted : ∀ (fuel : ℕ) (m : RollingMedian) (k : ℕ), m.Inverse → k ≤ fuel →
    k ≤ m.ct s → UpAt s.le (m.ct s) (m.side s) k →
    SortedUp s k m (sortUp s fuel m k).1 (sortUp s fuel m k).2
  | fuel, m, 0, _, _, _, hup => by
    rw [sortUp_zero]
    exact ⟨.refl m, hup.ordered (by omega), fun _ _ => rfl, fun h => Bool.noConfusion h,
      fun _ => ⟨rfl, by omega⟩⟩
  | fuel + 1, m, k + 1, hinv, hfuel, hkn, hup => by
    unfold sortUp
    rw [if_pos (Nat.succ_pos k), cmpExch_eq hinv]
    by_cases hbefore : m.before s (k + 1) ((k + 1) / 2) = true
    · rw [if_pos hbefore]
      rw [before_iff] at hbefore
      have hmoved : m.Moved (m.exch s (k + 1) ((k + 1) / 2)) :=
        moved_swap hkn (by omega)
      have hside := side_swap m s (k + 1) ((k + 1) / 2)
      have hnext := sortUp_sorted fuel
        (m.exch s (k + 1) ((k + 1) / 2)) ((k + 1) / 2)
        (hinv.permuted _) (by omega) (by rw [hmoved.ct]; omega) (by
          rw [hside]
          exact hup.swap (by omega) hkn (le_of_not_le hbefore))
      simp only []
      refine ⟨hmoved.trans hnext.moved, ?_, fun x hx => ?_, fun hflag => ?_, fun hflag => ?_⟩
      · rw [← hmoved.ct]
        exact hnext.ordered
      · rw [hnext.rest x hx, other_side_swap m s (.inl (by omega))]
      · have hpos : (k + 1) / 2 ≠ 0 := by
          intro hzero
          rw [hzero, sortUp_zero] at hflag
          cases hflag
        rw [hnext.kept hflag, hside, comp_apply,
          Equiv.swap_apply_of_ne_of_ne (by omega) (by omega)]
      · obtain ⟨hroot, hnextto⟩ := hnext.replaced hflag
        refine ⟨by rw [hroot, hside, comp_apply, Equiv.swap_apply_right], fun _ => ?_⟩
        by_cases hzero : (k + 1) / 2 = 0
        · have hk : k = 0 := by omega
          rw [hzero, sortUp_zero, ← hzero, hside, comp_apply]
          subst hk
          rw [Equiv.swap_apply_left]
        · rw [hnextto (by omega), hside, comp_apply,
            Equiv.swap_apply_of_ne_of_ne (by omega) (by omega)]
    · rw [if_neg hbefore]
      rw [before_iff, not_not] at hbefore
      exact ⟨.refl m, hup.ordered fun _ => hbefore, fun _ _ => rfl, fun _ => rfl,
        fun h => Bool.noConfusion h⟩

/-- Both heaps are ordered. -/
def Settled (m m' : RollingMedian) : Prop :=
  m.Moved m' ∧ ∀ t, Ordered t.le (m.ct t) (m'.side t)

theorem settled_of (s : Side) (hmoved : m.Moved m') (h : Ordered s.le (m.ct s) (m'.side s))
    (h' : Ordered s.other.le (m.ct s.other) (m'.side s.other)) : m.Settled m' := by
  refine ⟨hmoved, fun t => ?_⟩
  rcases eq_or_eq_other s t with rfl | rfl
  · exact h
  · exact h'

theorem ordered_of_root {w w' : ℕ → ℕ} (h : Ordered s.le n w) (hsame : ∀ x, 1 ≤ x → w' x = w x)
    (hroot : 1 ≤ n → s.le (w' 0) (w 1)) : Ordered s.le n w' := by
  intro j hj hjn
  by_cases h1 : j / 2 = 0
  · obtain rfl : j = 1 := by omega
    rw [hsame 1 hj]
    exact hroot hjn
  · rw [hsame j hj, hsame (j / 2) (by omega)]
    exact h j hj hjn

theorem sortDown_one (hinv : m.Inverse) (hct : 1 ≤ m.ct s)
    (hbelow : ∀ j, 2 ≤ j → j ≤ m.ct s → s.le (m.side s (j / 2)) (m.side s j))
    (hbefore : ¬s.le (m.side s 0) (m.side s 1)) :
    SortedDown s (m.exch s 1 0)
      (sortDown s (m.ct s) (m.exch s 1 0) 1) := by
  have hside := side_swap m s 1 0
  have hat : ∀ x, x ≠ 1 → x ≠ 0 → (m.side s ∘ Equiv.swap 1 0) x = m.side s x := fun x h₁ h₀ => by
    rw [comp_apply, Equiv.swap_apply_of_ne_of_ne h₁ h₀]
  have hat0 : (m.side s ∘ Equiv.swap 1 0) 0 = m.side s 1 := by simp
  refine sortDown_sorted _ _ 1 (hinv.permuted _) (Nat.le_refl 1) ?_ ?_
  · rw [(moved_swap hct (Nat.zero_le _)).ct]
    omega
  · rw [hside]
    constructor
    · intro j hj hjn hj1
      by_cases hzero : j / 2 = 0
      · obtain rfl : j = 1 := by omega
        exact le_of_not_le hbefore
      · rw [hat (j / 2) hj1 hzero, hat j (by omega) (by omega)]
        exact hbelow j (by omega) hjn
    · intro j hj hjn hj1
      rw [hat j (by omega) (by omega)]
      have := hbelow j (by omega) hjn
      rw [hj1] at this
      exact (congrArg (fun a => s.le a (m.side s j)) hat0).mpr this

/-- Raises a value, and sinks what the median was if it got there. -/
def settle (m : RollingMedian) (s : Side) (k : ℕ) : RollingMedian :=
  let (m, atMedian) := sortUp s k m k
  if atMedian && decide (m.ct s.other ≠ 0) then
    match m.cmpExch s.other 1 0 with
    | none => m
    | some m => sortDown s.other (m.ct s.other) m 1
  else m

/-- A raised value leaves both heaps ordered. -/
theorem settle_settled (hinv : m.Inverse) (hk : 1 ≤ k) (hkn : k ≤ m.ct s)
    (hup : UpAt s.le (m.ct s) (m.side s) k)
    (hother : Ordered s.other.le (m.ct s.other) (m.side s.other)) : m.Settled (m.settle s k) := by
  have hsorted := sortUp_sorted k m k hinv (Nat.le_refl k) hkn hup
  unfold settle
  rcases hrun : sortUp s k m k with ⟨m₁, atMedian⟩
  rw [hrun] at hsorted
  simp only [] at hsorted ⊢
  have hroot₁ : m₁.side s.other 0 = m₁.side s 0 := side_zero m₁ _ _
  by_cases hflag : (atMedian && decide (m₁.ct s.other ≠ 0)) = true
  · rw [if_pos hflag]
    simp only [Bool.and_eq_true, decide_eq_true_eq] at hflag
    obtain ⟨hroot, hnext⟩ := hsorted.replaced hflag.1
    have hnext := hnext hk
    have hinv₁ := hsorted.moved.inverse hinv
    have hct₁ := hsorted.moved.ct s.other
    -- the old median is next to the new one, and the other side's first slot came before it
    have hold : s.le (m.side s.other 1) (m.side s 0) := by
      have := hother 1 (Nat.le_refl 1) (by omega)
      rw [other_le, side_zero m s.other s] at this
      exact this
    rw [cmpExch_eq hinv₁]
    by_cases hbefore : m₁.before s.other 1 0 = true
    · rw [if_pos hbefore]
      rw [before_iff] at hbefore
      have hdown := sortDown_one hinv₁ (by rw [hct₁]; omega) (fun j hj hjn => by
        rw [hsorted.rest (j / 2) (by omega), hsorted.rest j (by omega)]
        exact hother j (by omega) (by rwa [← hct₁])) hbefore
      have hmoved₂ := moved_swap (m := m₁) (s := s.other) (j := 1) (k := 0)
        (by rw [hct₁]; omega) (Nat.zero_le _)
      simp only [hmoved₂.ct]
      refine settled_of s (hsorted.moved.trans (hmoved₂.trans hdown.moved)) ?_ ?_
      · have hrest := hdown.rest
        rw [other_other] at hrest
        refine ordered_of_root hsorted.ordered (fun x hx => ?_) fun _ => ?_
        · rw [hrest x]
          have := other_side_swap m₁ s.other (x := x) (j := 1) (k := 0) (.inl (by omega))
          rwa [other_other] at this
        · rw [hrest 0, side_zero _ s s.other, side_swap, comp_apply,
            Equiv.swap_apply_right, hsorted.rest 1 (Nat.le_refl 1), hnext]
          exact hold
      · rw [← hct₁]
        exact hdown.ordered
    · rw [if_neg hbefore]
      rw [before_iff, not_not] at hbefore
      refine settled_of s hsorted.moved hsorted.ordered ?_
      refine ordered_of_root hother hsorted.rest fun _ => ?_
      rwa [← hsorted.rest 1 (Nat.le_refl 1)]
  · rw [if_neg hflag]
    simp only [Bool.and_eq_true, decide_eq_true_eq, hsorted.moved.ct, not_and] at hflag
    refine settled_of s hsorted.moved hsorted.ordered ?_
    refine ordered_of_root hother hsorted.rest fun hct => ?_
    cases atMedian with
    | false =>
      rw [hroot₁, hsorted.kept rfl, side_zero m s s.other]
      exact hother 1 (Nat.le_refl 1) hct
    | true => exact absurd (hflag rfl) (by omega)

theorem settleMin_eq (h : m.maxCt ≠ 0) (hinv : m.Inverse) (hkn : k ≤ m.minCt)
    (hup : UpAt min.le m.minCt (m.side .min) k) : m.settleMin k = m.settle .min k := by
  have hct : (sortUp .min k m k).1.ct .max ≠ 0 := by
    rw [(sortUp_sorted (s := .min) k m k hinv (Nat.le_refl k) hkn hup).moved.ct]
    exact h
  unfold settleMin minSortUp settle maxSortDown
  rcases hrun : sortUp .min k m k with ⟨m₁, atMedian⟩
  rw [hrun] at hct
  simp only [other, hct, ne_eq, not_false_eq_true, decide_true, Bool.and_true]
  rfl

theorem settleMax_eq (m : RollingMedian) (k : ℕ) : m.settleMax k = m.settle .max k := rfl

/-- One half of `settleMedian`: the new median and the slot next to it on side `s`. -/
def settleRoot (m : RollingMedian) (s : Side) : RollingMedian :=
  if m.ct s ≠ 0 then
    let (m, atMedian) := sortUp s 1 m 1
    if atMedian then sortDown s (m.ct s) m 1 else m
  else m

theorem sortUp_one (m : RollingMedian) (s : Side) :
    sortUp s 1 m 1 = match m.cmpExch s 1 0 with
      | none => (m, false)
      | some m => (m, true) := rfl

/-- What `settleRoot` leaves of a side whose slots are in order below the median. -/
structure RootSettled (s : Side) (m m' : RollingMedian) : Prop where
  moved : m.Moved m'
  ordered : Ordered s.le (m.ct s) (m'.side s)
  rest : ∀ x, 1 ≤ x → m'.side s.other x = m.side s.other x
  root : m'.side s 0 = m.side s 0 ∨ 1 ≤ m.ct s ∧ m'.side s 0 = m.side s 1
  nextTo : 1 ≤ m.ct s → s.le (m.side s 1) (m'.side s 1)

theorem settleRoot_settled (hinv : m.Inverse)
    (hbelow : ∀ j, 2 ≤ j → j ≤ m.ct s → s.le (m.side s (j / 2)) (m.side s j)) :
    RootSettled s m (m.settleRoot s) := by
  unfold settleRoot
  by_cases hct : m.ct s ≠ 0
  · rw [if_pos hct, sortUp_one, cmpExch_eq hinv]
    by_cases hbefore : m.before s 1 0 = true
    · rw [if_pos hbefore]
      rw [before_iff] at hbefore
      have hmoved := moved_swap (m := m) (s := s) (j := 1) (k := 0) (by omega) (Nat.zero_le _)
      have hdown := sortDown_one hinv (by omega) hbelow hbefore
      have hroot : (sortDown s (m.ct s) (m.exch s 1 0) 1).side s 0 =
          m.side s 1 := by
        rw [side_zero _ s s.other, hdown.rest 0, side_zero _ s.other s, side_swap,
          comp_apply, Equiv.swap_apply_right]
      simp only [if_pos, hmoved.ct]
      refine ⟨hmoved.trans hdown.moved, hdown.ordered, fun x hx => ?_, .inr ⟨by omega, hroot⟩,
        fun _ => ?_⟩
      · rw [hdown.rest x, other_side_swap m s (.inl (by omega))]
      · rw [← hroot]
        exact hdown.ordered 1 (Nat.le_refl 1) (Nat.one_le_iff_ne_zero.mpr hct)
    · rw [if_neg hbefore]
      rw [before_iff, not_not] at hbefore
      refine ⟨.refl m, fun j hj hjn => ?_, fun _ _ => rfl, .inl rfl, fun _ => refl_of s.le _⟩
      by_cases h1 : j = 1
      · rw [h1]
        exact hbefore
      · exact hbelow j (by omega) hjn
  · rw [if_neg hct]
    exact ⟨.refl m, fun j hj hjn => absurd hjn (by omega), fun _ _ => rfl, .inl rfl,
      fun h => absurd h (by omega)⟩

/-- A new median leaves both heaps ordered. -/
theorem settleMedian_settled (hinv : m.Inverse)
    (hbelow : ∀ t, ∀ j, 2 ≤ j → j ≤ m.ct t → le t (m.side t (j / 2)) (m.side t j))
    (hnext : 1 ≤ m.maxCt → 1 ≤ m.minCt → m.side .max 1 ≤ m.side .min 1) :
    m.Settled m.settleMedian := by
  change m.Settled ((m.settleRoot .max).settleRoot .min)
  have hmax := settleRoot_settled hinv (hbelow .max)
  have hct : ∀ t, (m.settleRoot .max).ct t = m.ct t := hmax.moved.ct
  have hmin : RootSettled .min (m.settleRoot .max) ((m.settleRoot .max).settleRoot .min) := by
    refine settleRoot_settled (hmax.moved.inverse hinv) fun j hj hjn => ?_
    rw [hct] at hjn
    have hrest := hmax.rest
    simp only [other] at hrest
    rw [hrest (j / 2) (by omega), hrest j (by omega)]
    exact hbelow .min j hj hjn
  refine settled_of .min (hmax.moved.trans hmin.moved) ?_ ?_
  · rw [← hct]
    exact hmin.ordered
  · refine ordered_of_root hmax.ordered hmin.rest fun hmaxct => ?_
    have hrest1 : (m.settleRoot .max).side .min 1 = m.side .min 1 := hmax.rest 1 (Nat.le_refl 1)
    rcases hmin.root with hroot | ⟨hminct, hroot⟩
    · rw [side_zero _ _ .min, hroot]
      exact hmax.ordered 1 (Nat.le_refl 1) hmaxct
    · -- the min heap's first slot has become the median
      rw [side_zero _ _ .min, hroot, hrest1]
      rw [hct] at hminct
      exact Nat.le_trans (hmax.nextTo hmaxct) (hnext hmaxct hminct)

theorem fillHeap_fillPos (k : ℕ) : fillHeap (fillPos k) = k := by
  unfold fillHeap fillPos
  split_ifs <;> omega

theorem fillPos_fillHeap (i : ℤ) : fillPos (fillHeap i) = i := by
  unfold fillHeap fillPos
  split_ifs <;> omega

/-- The rolling median holds the values `w`, oldest first. -/
structure Holds (m : RollingMedian) (w : List ℕ) : Prop where
  inverse : m.Inverse
  pos : 0 < m.nItems
  length : w.length = m.sz
  le : m.sz ≤ m.nItems
  maxCt : m.maxCt = m.sz / 2
  minCt : m.minCt = (m.sz - 1) / 2
  /-- Values yet to come are put where `clear` said. -/
  fresh : ∀ k, m.sz ≤ k → m.pos k = fillPos k
  idx_lt : m.idx < m.nItems
  idx_eq : m.sz < m.nItems → m.idx = m.sz
  window : ∀ j (hj : j < w.length),
    m.data ((m.idx + (m.nItems - m.sz) + j) % m.nItems) = w.get ⟨j, hj⟩
  ordered : ∀ t, Ordered t.le (m.ct t) (m.side t)

theorem holds_create (hn : 0 < n) (data : ℕ → ℕ) : (create n data).Holds [] where
  inverse := ⟨fillHeap_fillPos, fillPos_fillHeap⟩
  pos := hn
  length := rfl
  le := Nat.zero_le n
  maxCt := (Nat.zero_div 2).symm
  minCt := (Nat.zero_div 2).symm
  fresh _ _ := rfl
  idx_lt := hn
  idx_eq _ := rfl
  window _ hj := absurd hj (Nat.not_lt_zero _)
  ordered t j hj hjn := absurd hjn (by cases t <;> simp only [ct, create] <;> omega)

/-- Nothing is held after `clear`. -/
theorem Holds.clear (h : m.Holds w) : m.clear.Holds [] := holds_create h.pos m.data

theorem fillPos_out {k : ℕ} (hk : n ≤ k) (hpos : 0 < k) :
    fillPos k < -(n / 2 : ℕ) ∨ ((n - 1) / 2 : ℕ) < fillPos k := by
  unfold fillPos
  split_ifs <;> omega

theorem Holds.pos_mem (h : m.Holds w) {k : ℕ} (hk : k < m.sz) :
    -(m.maxCt : ℤ) ≤ m.pos k ∧ m.pos k ≤ m.minCt := by
  have hfresh := h.fresh
  have hinv := h.inverse
  -- any other slot belongs to a value yet to come
  have hout : ∀ j, fillPos j = m.pos k → j < m.sz := fun j hj => by
    by_contra hge
    rw [← hfresh j (by omega)] at hj
    have := congrArg m.heap hj
    rw [hinv.heap_pos, hinv.heap_pos] at this
    omega
  have hsz := hout (fillHeap (m.pos k)) (fillPos_fillHeap _)
  rw [h.maxCt, h.minCt]
  revert hsz
  unfold fillHeap
  split_ifs <;> omega

theorem heap_eq_iff (h : m.Inverse) {i : ℤ} {k : ℕ} : m.heap i = k ↔ i = m.pos k :=
  ⟨fun hk => by rw [← hk, h.pos_heap], fun hi => by rw [hi, h.heap_pos]⟩

/-- The window after one more value. -/
def pushed (n : ℕ) (w : List ℕ) (v : ℕ) : List ℕ := (w ++ [v]).drop (w.length + 1 - n)

/-- `insert` before the heaps are put in order: the value is in the ring, and in use when it has
taken a new slot. -/
def placed (m : RollingMedian) (v : ℕ) : RollingMedian :=
  { m with
    data := Function.update m.data m.idx v
    idx := (m.idx + 1) % m.nItems
    sz := Nat.min (m.sz + 1) m.nItems
    minCt := (Nat.min (m.sz + 1) m.nItems - 1) / 2
    maxCt := Nat.min (m.sz + 1) m.nItems / 2 }

theorem Holds.grown (h : m.Holds w) (v : ℕ) :
    m.sz < m.nItems ∧ m.idx = m.sz ∧ (m.placed v).sz = m.sz + 1 ∨
      m.sz = m.nItems ∧ (m.placed v).sz = m.nItems := by
  rcases Nat.lt_or_eq_of_le h.le with hlt | hfull
  · exact .inl ⟨hlt, h.idx_eq hlt, Nat.min_eq_left hlt⟩
  · exact .inr ⟨hfull, Nat.min_eq_right (by omega)⟩

theorem placed_ct (m : RollingMedian) (v : ℕ) :
    (m.placed v).minCt = ((m.placed v).sz - 1) / 2 ∧ (m.placed v).maxCt = (m.placed v).sz / 2 :=
  ⟨rfl, rfl⟩

theorem Holds.placed_inverse (h : m.Holds w) : (m.placed v).Inverse :=
  ⟨h.inverse.heap_pos, h.inverse.pos_heap⟩

theorem Holds.data_idx (h : m.Holds w) (hslot : m.pos m.idx = s.slot k) :
    m.side s k = m.data m.idx := by
  rw [side, val, ← hslot, h.inverse.heap_pos]

/-- The ring buffer holds the window, oldest value first. -/
theorem Holds.placed_window (h : m.Holds w) (v : ℕ) :
    (pushed m.nItems w v).length = (m.placed v).sz ∧
    ∀ j (hj : j < (pushed m.nItems w v).length),
      (m.placed v).data (((m.placed v).idx + (m.nItems - (m.placed v).sz) + j) % m.nItems) =
        (pushed m.nItems w v).get ⟨j, hj⟩ := by
  have hlen := h.length
  have hidx := h.idx_lt
  have hgrown := h.grown v
  have hplaced : (m.placed v).data = Function.update m.data m.idx v ∧
      (m.placed v).idx = (m.idx + 1) % m.nItems := ⟨rfl, rfl⟩
  simp only [pushed, hplaced, get_eq_getElem, getElem_drop, length_drop,
    length_append, length_singleton, update_apply]
  refine ⟨by omega, fun j hj => ?_⟩
  rcases hgrown with ⟨hlt, hidx', hsz⟩ | ⟨hfull, hsz⟩
  · have hdrop : w.length + 1 - m.nItems = 0 := by omega
    have hat : ((m.idx + 1) % m.nItems + (m.nItems - (m.sz + 1)) + j) % m.nItems = j := by
      by_cases hwrap : m.sz + 1 = m.nItems
      · rw [hidx', hwrap, Nat.mod_self, Nat.sub_self, Nat.zero_add, Nat.mod_eq_of_lt (by omega)]
      · rw [hidx', Nat.mod_eq_of_lt (by omega : m.sz + 1 < m.nItems),
          Nat.add_sub_cancel' (by omega), Nat.add_mod_left, Nat.mod_eq_of_lt (by omega)]
    simp only [hsz, hat, hdrop, Nat.zero_add]
    by_cases hlast : j = m.sz
    · rw [if_pos (by omega), getElem_append_right (by omega)]
      simp
    · rw [if_neg (by omega), getElem_append_left (by omega)]
      have := h.window j (by omega)
      rw [hidx', Nat.add_sub_cancel' h.le, Nat.add_mod_left, Nat.mod_eq_of_lt (by omega)] at this
      exact this
  · -- the oldest value is overwritten
    have hdrop : w.length + 1 - m.nItems = 1 := by omega
    simp only [hsz, hdrop, Nat.sub_self, Nat.add_zero]
    rw [Nat.mod_add_mod]
    by_cases hlast : j + 1 = m.nItems
    · rw [if_pos (by rw [Nat.add_assoc, Nat.add_comm 1 j, hlast, Nat.add_mod_right,
        Nat.mod_eq_of_lt hidx])]
      rw [getElem_append_right (by omega)]
      simp
    · have hne : (m.idx + 1 + j) % m.nItems ≠ m.idx := by
        intro heq
        by_cases hwrap : m.idx + 1 + j < m.nItems
        · rw [Nat.mod_eq_of_lt hwrap] at heq
          omega
        · rw [Nat.mod_eq_sub_mod (by omega), Nat.mod_eq_of_lt (by omega)] at heq
          omega
      rw [if_neg hne, getElem_append_left (by omega)]
      have := h.window (1 + j) (by omega)
      rw [hfull, Nat.sub_self, ← Nat.add_assoc] at this
      exact this

theorem Holds.of_settled (h : m.Holds w) (hsettled : (m.placed v).Settled m') :
    m'.Holds (pushed m.nItems w v) := by
  obtain ⟨hlen, hwindow⟩ := h.placed_window v
  obtain ⟨⟨σ, hσ, rfl⟩, hordered⟩ := hsettled
  have hpos := h.pos
  have hgrown := h.grown v
  refine ⟨h.placed_inverse.permuted σ, hpos, hlen, Nat.min_le_right _ _, rfl, rfl, ?_,
    Nat.mod_lt _ hpos, ?_, hwindow, hordered⟩
  · intro k (hk : (m.placed v).sz ≤ k)
    have hfill : m.pos k = fillPos k := h.fresh k (by omega)
    have hfix : σ (fillPos k) = fillPos k := hσ _ (fillPos_out hk (by omega))
    have : (((m.placed v).permuted σ).pos k) = σ.symm (m.pos k) := rfl
    rw [this, hfill, Equiv.symm_apply_eq, hfix]
  · intro (hlt : (m.placed v).sz < m.nItems)
    have hidx : ((m.placed v).permuted σ).idx = (m.idx + 1) % m.nItems := rfl
    have hsz : ((m.placed v).permuted σ).sz = (m.placed v).sz := rfl
    rw [hidx, Nat.mod_eq_of_lt (by omega)]
    omega

theorem placed_side (hinv : m.Inverse) (hslot : m.pos m.idx = s.slot k) :
    (m.placed v).side s = Function.update (m.side s) k v := by
  funext x
  simp only [side, val, placed, update_apply, heap_eq_iff hinv, hslot,
    s.slot_injective.eq_iff]

theorem placed_side_other (hinv : m.Inverse) (hslot : m.pos m.idx = s.slot k) (hk : 1 ≤ k) :
    (m.placed v).side s.other = m.side s.other := by
  funext x
  have hne : s.other.slot x ≠ s.slot k := s.other_slot_ne (by omega)
  simp only [side, val, placed, update_apply, heap_eq_iff hinv, hslot, if_neg hne]

/-- The slot that a new value comes to. -/
structure Placed (m : RollingMedian) (v : ℕ) (s : Side) (k : ℕ) : Prop where
  slot : m.pos m.idx = s.slot k
  pos : 1 ≤ k
  le : k ≤ (m.placed v).ct s
  other : (m.placed v).ct s.other = m.ct s.other
  otherPos : 1 ≤ (m.placed v).maxCt

theorem Holds.placed_cases (h : m.Holds w) (v : ℕ) {s : Side} {k : ℕ}
    (hslot : m.pos m.idx = s.slot k) (hk : 1 ≤ k) :
    Placed m v s k ∧
      ((m.sz < m.nItems ∧ (m.placed v).ct s = m.ct s + 1 ∧ k = m.ct s + 1) ∨
        (m.sz = m.nItems ∧ (m.placed v).ct s = m.ct s)) := by
  have hmaxCt := h.maxCt
  have hminCt := h.minCt
  have hct := m.placed_ct v
  rcases h.grown v with ⟨hlt, hidx, hsz⟩ | ⟨hfull, hsz⟩
  · have hfill : s.slot k = fillPos m.sz := by rw [← hslot, hidx, h.fresh m.sz le_rfl]
    unfold fillPos at hfill
    refine ⟨⟨hslot, hk, ?_, ?_, ?_⟩, .inl ⟨hlt, ?_, ?_⟩⟩ <;> cases s <;>
      simp only [slot, ct, other] at hfill ⊢ <;> split_ifs at hfill <;> omega
  · have hrange : -(m.maxCt : ℤ) ≤ s.slot k ∧ s.slot k ≤ m.minCt := by
      rw [← hslot]
      exact h.pos_mem (by have := h.idx_lt; omega)
    refine ⟨⟨hslot, hk, ?_, ?_, ?_⟩, .inr ⟨hfull, ?_⟩⟩ <;> cases s <;>
      simp only [slot, ct, other] at hrange ⊢ <;> omega

/-- A value that does not sink in its heap is raised. -/
theorem Holds.settle_placed (h : m.Holds w) (hslot : m.pos m.idx = s.slot k) (hk : 1 ≤ k)
    (hv : m.sz = m.nItems → s.le v (m.data m.idx)) :
    UpAt s.le ((m.placed v).ct s) ((m.placed v).side s) k ∧
      (m.placed v).Settled ((m.placed v).settle s k) := by
  obtain ⟨hplaced, hcase⟩ := h.placed_cases v hslot hk
  have hup : UpAt s.le ((m.placed v).ct s) ((m.placed v).side s) k := by
    rw [placed_side h.inverse hslot]
    rcases hcase with ⟨-, hct, rfl⟩ | ⟨hfull, hct⟩
    · rw [hct]
      exact (h.ordered s).upAt_succ
    · have hkn := hplaced.le
      rw [hct] at hkn ⊢
      refine (h.ordered s).upAt hk hkn ?_
      rw [h.data_idx hslot]
      exact hv hfull
  refine ⟨hup, settle_settled h.placed_inverse hk hplaced.le hup ?_⟩
  rw [hplaced.other, placed_side_other h.inverse hslot hk]
  exact h.ordered s.other

/-- A value that does not rise in its heap is sunk. -/
theorem Holds.sortDown_placed (h : m.Holds w) (hslot : m.pos m.idx = s.slot k) (hk : 1 ≤ k)
    (hfull : m.sz = m.nItems) (hv : s.le (m.data m.idx) v) :
    (m.placed v).Settled (sortDown s ((m.placed v).ct s) (m.placed v) k) := by
  obtain ⟨hplaced, hcase⟩ := h.placed_cases v hslot hk
  have hct : (m.placed v).ct s = m.ct s := by
    rcases hcase with ⟨hlt, -⟩ | ⟨-, hct⟩
    · omega
    · exact hct
  have hdown : DownAt s.le ((m.placed v).ct s) ((m.placed v).side s) k := by
    have hkn := hplaced.le
    rw [placed_side h.inverse hslot]
    rw [hct] at hkn ⊢
    refine (h.ordered s).downAt hk hkn ?_
    rw [h.data_idx hslot]
    exact hv
  have hsorted := sortDown_sorted ((m.placed v).ct s) (m.placed v) k h.placed_inverse hk
    (by omega) hdown
  refine settled_of s hsorted.moved hsorted.ordered ?_
  have hside : (sortDown s ((m.placed v).ct s) (m.placed v) k).side s.other = m.side s.other := by
    funext x
    rw [hsorted.rest x, placed_side_other h.inverse hslot hk]
  rw [hplaced.other, hside]
  exact h.ordered s.other

theorem Holds.settleMedian_placed (h : m.Holds w) (hslot : m.pos m.idx = 0) :
    (m.placed v).minCt = m.minCt ∧ (m.placed v).maxCt = m.maxCt ∧
      (m.placed v).Settled (m.placed v).settleMedian := by
  have hmin := h.minCt
  have hmax := h.maxCt
  have hcts : (m.placed v).minCt = m.minCt ∧ (m.placed v).maxCt = m.maxCt := by
    have hct := m.placed_ct v
    rcases h.grown v with ⟨hlt, hidx, hsz⟩ | ⟨hfull, hsz⟩
    · have hfill := h.fresh m.sz le_rfl
      rw [← hidx] at hfill
      unfold fillPos at hfill
      split_ifs at hfill <;> omega
    · omega
  have hct : ∀ t, (m.placed v).ct t = m.ct t := fun t => by
    cases t
    · exact hcts.1
    · exact hcts.2
  have hside : ∀ t, (m.placed v).side t = Function.update (m.side t) 0 v := fun t =>
    placed_side h.inverse (by rw [hslot, slot_zero])
  refine ⟨hcts.1, hcts.2, settleMedian_settled h.placed_inverse
    (fun t j hj hjn => ?_) fun hmaxct hminct => ?_⟩
  · rw [hct] at hjn
    rw [hside, update_of_ne (by omega), update_of_ne (by omega)]
    exact h.ordered t j (by omega) hjn
  · rw [hcts.2] at hmaxct
    rw [hcts.1] at hminct
    rw [hside, hside]
    have hlow : m.side .max 1 ≤ m.side .max 0 := h.ordered .max 1 (Nat.le_refl 1) hmaxct
    have hhigh : m.side .min 0 ≤ m.side .min 1 := h.ordered .min 1 (Nat.le_refl 1) hminct
    exact Nat.le_trans hlow hhigh

theorem placed_ct_le (m : RollingMedian) (v : ℕ) :
    (m.placed v).minCt ≤ (m.nItems - 1) / 2 ∧ (m.placed v).maxCt ≤ m.nItems / 2 :=
  have hle : Nat.min (m.sz + 1) m.nItems ≤ m.nItems := Nat.min_le_right _ _
  ⟨Nat.div_le_div_right (Nat.sub_le_sub_right hle 1), Nat.div_le_div_right hle⟩

/-- Whichever slot is overwritten, `insert` leaves both heaps ordered. -/
theorem Holds.insert_settled (h : m.Holds w) (v : ℕ) : (m.placed v).Settled (m.insert v) := by
  have hmin := h.minCt
  have hmax := h.maxCt
  have hcts := m.placed_ct_le v
  -- the counters as `insert` leaves them are those of `placed`
  have heq : ∀ a b, a = (m.placed v).minCt → b = (m.placed v).maxCt →
      { m with data := Function.update m.data m.idx v, idx := (m.idx + 1) % m.nItems,
               sz := Nat.min (m.sz + 1) m.nItems, minCt := a, maxCt := b } = m.placed v := by
    rintro a b rfl rfl
    rfl
  unfold insert
  simp only []
  by_cases hright : 0 < m.pos m.idx
  · rw [if_pos hright]
    have hslot : m.pos m.idx = min.slot (m.pos m.idx).natAbs := by
      simp only [slot]
      omega
    have hk : 1 ≤ (m.pos m.idx).natAbs := by omega
    obtain ⟨hplaced, hcase⟩ := h.placed_cases v hslot hk
    have hother : (m.placed v).maxCt = m.maxCt := hplaced.other
    rcases hcase with ⟨hlt, hct, -⟩ | ⟨hfull, hct⟩
    · have hct : (m.placed v).minCt = m.minCt + 1 := hct
      obtain ⟨hup, hsettled⟩ := h.settle_placed (v := v) hslot hk (by omega)
      rw [if_pos (by omega), heq _ _ hct.symm hother.symm,
        settleMin_eq (Nat.one_le_iff_ne_zero.mp hplaced.otherPos) h.placed_inverse hplaced.le hup]
      exact hsettled
    · have hct : (m.placed v).minCt = m.minCt := hct
      rw [if_neg (by omega), heq _ _ hct.symm hother.symm]
      split_ifs with hold
      · exact h.sortDown_placed hslot hk hfull (Nat.le_of_lt hold)
      · obtain ⟨hup, hsettled⟩ := h.settle_placed (v := v) hslot hk fun _ => not_lt.mp hold
        rw [settleMin_eq (Nat.one_le_iff_ne_zero.mp hplaced.otherPos) h.placed_inverse
          hplaced.le hup]
        exact hsettled
  · rw [if_neg hright]
    by_cases hleft : m.pos m.idx < 0
    · rw [if_pos hleft]
      have hslot : m.pos m.idx = max.slot (m.pos m.idx).natAbs := by
        simp only [slot]
        omega
      have hk : 1 ≤ (m.pos m.idx).natAbs := by omega
      obtain ⟨hplaced, hcase⟩ := h.placed_cases v hslot hk
      have hother : (m.placed v).minCt = m.minCt := hplaced.other
      rcases hcase with ⟨hlt, hct, -⟩ | ⟨hfull, hct⟩
      · have hct : (m.placed v).maxCt = m.maxCt + 1 := hct
        rw [if_pos (by omega), heq _ _ hother.symm hct.symm]
        exact (h.settle_placed hslot hk (by omega)).2
      · have hct : (m.placed v).maxCt = m.maxCt := hct
        rw [if_neg (by omega), heq _ _ hother.symm hct.symm]
        split_ifs with hold
        · exact h.sortDown_placed hslot hk hfull (Nat.le_of_lt hold)
        · rw [settleMax_eq]
          exact (h.settle_placed hslot hk fun _ => not_lt.mp hold).2
    · rw [if_neg hleft]
      obtain ⟨hminCt, hmaxCt, hsettled⟩ := h.settleMedian_placed (v := v) (by omega)
      rw [heq _ _ hminCt.symm hmaxCt.symm]
      exact hsettled

/-- `insert` moves the window by one value. -/
theorem Holds.insert (h : m.Holds w) (v : ℕ) :
    (m.insert v).Holds (pushed m.nItems w v) := h.of_settled (h.insert_settled v)

theorem Holds.insert_nItems (h : m.Holds w) (v : ℕ) : (m.insert v).nItems = m.nItems := by
  obtain ⟨⟨σ, -, heq⟩, -⟩ := h.insert_settled v
  rw [heq]
  rfl

theorem pushed_of_lt (h : w.length < n) : pushed n w v = w ++ [v] := by
  rw [pushed, Nat.sub_eq_zero_of_le (by omega), drop_zero]

theorem pushed_of_full (h : w.length = n) : pushed n w v = (w ++ [v]).drop 1 := by
  rw [pushed, h, Nat.add_sub_cancel_left]

theorem Holds.foldl_insert : ∀ (l : List ℕ) {m : RollingMedian} {w : List ℕ}, m.Holds w →
    w.length + l.length ≤ m.nItems →
    (l.foldl RollingMedian.insert m).Holds (w ++ l) ∧
      (l.foldl RollingMedian.insert m).nItems = m.nItems
  | [], _, _, h, _ => by simpa using h
  | v :: l, m, w, h, hroom => by
    rw [length_cons] at hroom
    have hv := h.insert v
    rw [pushed_of_lt (by omega)] at hv
    have := foldl_insert l hv (by
      rw [h.insert_nItems, length_append, length_singleton]
      omega)
    rw [append_assoc, h.insert_nItems] at this
    exact this

/-- The slots in use, from the lowest value of one heap to the highest of the other. -/
def slots (m : RollingMedian) : List ℤ :=
  (range m.maxCt).map (fun k => Side.max.slot (k + 1)) ++
    0 :: (range m.minCt).map fun k => Side.min.slot (k + 1)

theorem mem_slots {i : ℤ} : i ∈ m.slots ↔ -(m.maxCt : ℤ) ≤ i ∧ i ≤ m.minCt := by
  simp only [slots, mem_append, mem_cons, mem_map, mem_range, slot]
  constructor
  · rintro (⟨k, hk, rfl⟩ | rfl | ⟨k, hk, rfl⟩) <;> omega
  · intro hi
    rcases Int.lt_trichotomy i 0 with h | h | h
    · exact .inl ⟨i.natAbs - 1, by omega, by omega⟩
    · exact .inr (.inl h)
    · exact .inr (.inr ⟨i.natAbs - 1, by omega, by omega⟩)

theorem nodup_slots (m : RollingMedian) : m.slots.Nodup := by
  have hmap : ∀ (s : Side) (n : ℕ), ((range n).map fun k => s.slot (k + 1)).Nodup := fun s n =>
    nodup_range.map fun a b hab => by
      have := s.slot_injective hab
      omega
  unfold slots
  rw [nodup_append, nodup_cons]
  refine ⟨hmap .max m.maxCt, ⟨?_, hmap .min m.minCt⟩, ?_⟩
  · simp only [mem_map, slot, not_exists]
    intro k _
    omega
  · intro a ha b hb
    simp only [mem_cons, mem_map, slot] at ha hb
    obtain ⟨k, -, rfl⟩ := ha
    rcases hb with rfl | ⟨j, -, rfl⟩ <;> omega

theorem ring_perm {sz i : ℕ} (hn : 0 < n) (hle : sz ≤ n) (hi : sz < n → i = sz) :
    ((range sz).map fun j => (i + (n - sz) + j) % n).Perm (range sz) := by
  by_cases hfull : sz = n
  · subst hfull
    have hinj : ∀ a ∈ range sz, ∀ b ∈ range sz,
        (i + (sz - sz) + a) % sz = (i + (sz - sz) + b) % sz → a = b := by
      intro a ha b hb hab
      rw [mem_range] at ha hb
      exact Nat.ModEq.eq_of_lt_of_lt (Nat.ModEq.add_left_cancel' _ hab) ha hb
    refine List.Subperm.perm_of_length_le
      (subperm_of_subset (nodup_range.map_on hinj) fun k hk => ?_) (by simp)
    obtain ⟨j, -, rfl⟩ := mem_map.mp hk
    exact mem_range.mpr (Nat.mod_lt _ hn)
  · have hsame : (range sz).map (fun j => (i + (n - sz) + j) % n) = range sz := by
      conv_rhs => rw [← map_id (range sz)]
      refine map_congr_left fun j hj => ?_
      rw [mem_range] at hj
      rw [hi (by omega), Nat.add_sub_cancel' hle, Nat.add_mod_left, Nat.mod_eq_of_lt (by omega), id]
    rw [hsame]

/-- The slots in use hold the window. -/
theorem Holds.slots_perm (h : m.Holds w) (hne : w ≠ []) : (m.slots.map m.val).Perm w := by
  have hsz : 0 < m.sz := h.length ▸ length_pos_iff.mpr hne
  have hmin := h.minCt
  have hmax := h.maxCt
  -- both run over the first `sz` places of the ring
  have hslots : (m.slots.map m.heap).Perm (range m.sz) := by
    have hinj : Function.Injective m.heap := fun i j hij => by
      rw [← h.inverse.pos_heap i, hij, h.inverse.pos_heap]
    rw [perm_ext_iff_of_nodup (m.nodup_slots.map hinj) nodup_range]
    intro k
    rw [mem_map, mem_range]
    constructor
    · rintro ⟨i, hi, rfl⟩
      rw [mem_slots] at hi
      by_contra hge
      have hfresh := h.fresh (m.heap i) (by omega)
      rw [h.inverse.pos_heap] at hfresh
      have := fillPos_out (n := m.sz) (k := m.heap i) (by omega) (by omega)
      omega
    · intro hk
      exact ⟨m.pos k, mem_slots.mpr (h.pos_mem hk), h.inverse.heap_pos k⟩
  have hring := ring_perm h.pos h.le h.idx_eq
  have hwindow : w = ((range m.sz).map fun j =>
      (m.idx + (m.nItems - m.sz) + j) % m.nItems).map m.data := by
    refine ext_getElem (by simp [h.length]) fun j hj _ => ?_
    simp only [getElem_map, getElem_range]
    exact (h.window j hj).symm
  rw [hwindow]
  have := (hslots.trans hring.symm).map m.data
  rwa [map_map] at this

/-- The median of the heaps is the median of the window. -/
theorem Holds.median_eq (h : m.Holds w) (hne : w ≠ []) : m.median = medianWeight w := by
  have hsz : 0 < m.sz := h.length ▸ length_pos_iff.mpr hne
  have hmin := h.minCt
  have hmax := h.maxCt
  have hlen := h.length
  -- the values below the median, the median, the values above it
  obtain ⟨low, hlow⟩ : ∃ low, low = (range m.maxCt).map fun k => m.side .max (k + 1) := ⟨_, rfl⟩
  obtain ⟨high, hhigh⟩ : ∃ high, high = (range m.minCt).map fun k => m.side .min (k + 1) :=
    ⟨_, rfl⟩
  have hperm : (low ++ m.val 0 :: high).Perm w := by
    have := h.slots_perm hne
    rw [slots, map_append, map_cons, map_map, map_map] at this
    rw [hlow, hhigh]
    exact this
  have hlowlen : low.length = m.maxCt := by rw [hlow, length_map, List.length_range]
  have hbelow : ∀ a ∈ low, a ≤ m.val 0 := by
    intro a ha
    rw [hlow, mem_map] at ha
    obtain ⟨k, hk, rfl⟩ := ha
    exact (h.ordered .max).root_le (by rw [mem_range] at hk; exact hk)
  have habove : ∀ a ∈ high, m.val 0 ≤ a := by
    intro a ha
    rw [hhigh, mem_map] at ha
    obtain ⟨k, hk, rfl⟩ := ha
    exact (h.ordered .min).root_le (by rw [mem_range] at hk; exact hk)
  have hsort : w.insertionSort (· ≤ ·) =
      low.insertionSort (· ≤ ·) ++ m.val 0 :: high.insertionSort (· ≤ ·) := by
    rw [← Sorting.insertionSort_eq_of_perm _ hperm,
      Sorting.insertionSort_append_cons _ hbelow habove]
  have hmid : (w.insertionSort (· ≤ ·)).getD m.maxCt 0 = m.val 0 := by
    rw [hsort, getD_append_right _ _ _ _ (by rw [length_insertionSort]; omega),
      length_insertionSort, hlowlen, Nat.sub_self, getD_cons_zero]
  have hleft : 0 < m.maxCt → (w.insertionSort (· ≤ ·)).getD (m.maxCt - 1) 0 = m.val (-1) := by
    intro hpos
    obtain ⟨n, hn⟩ := Nat.exists_eq_add_one_of_ne_zero (Nat.ne_of_gt hpos)
    obtain ⟨rest, hrest⟩ : ∃ rest, rest = (range n).map fun k => m.side .max (k + 2) := ⟨_, rfl⟩
    have hsplit : low = m.val (-1) :: rest := by
      rw [hlow, hn, range_succ_eq_map, map_cons, map_map, hrest]
      rfl
    have htop : ∀ a ∈ rest, a ≤ m.val (-1) := by
      intro a ha
      rw [hrest, mem_map] at ha
      obtain ⟨k, hk, rfl⟩ := ha
      rw [mem_range] at hk
      exact (h.ordered .max).top_le (by omega) (by simp only [ct]; omega)
    have hlast : low.insertionSort (· ≤ ·) = rest.insertionSort (· ≤ ·) ++ [m.val (-1)] := by
      have hcomm : low.Perm (rest ++ m.val (-1) :: []) := by
        rw [hsplit]
        exact (perm_append_singleton _ _).symm
      rw [Sorting.insertionSort_eq_of_perm _ hcomm,
        Sorting.insertionSort_append_cons _ htop (by simp), insertionSort_nil]
    have hrestlen : rest.length = n := by rw [hrest, length_map, List.length_range]
    rw [hsort, getD_append _ _ _ _ (by rw [length_insertionSort]; omega), hlast,
      getD_append_right _ _ _ _ (by rw [length_insertionSort]; omega),
      length_insertionSort, hrestlen, hn, Nat.add_sub_cancel, Nat.sub_self,
      getD_cons_zero]
  unfold RollingMedian.median medianWeight
  by_cases hone : w.length ≤ 1
  · rw [if_neg (by omega)]
    obtain ⟨a, rfl⟩ := length_eq_one_iff.mp (by omega : w.length = 1)
    have hzero : m.maxCt = 0 := by rw [length_singleton] at hlen; omega
    rw [hzero] at hmid
    exact hmid.symm
  · rw [if_neg hone]
    by_cases hodd : w.length % 2 = 1
    · rw [if_pos hodd, if_neg (by omega), show w.length / 2 = m.maxCt by omega, hmid]
      rfl
    · rw [if_neg hodd, if_pos (by omega), show w.length / 2 = m.maxCt by omega, hmid,
        hleft (by omega), Nat.add_comm]
      rfl

theorem pushed_drop (l : List ℕ) (v : ℕ) :
    pushed n (l.drop (l.length - n)) v = (l ++ [v]).drop ((l ++ [v]).length - n) := by
  rw [pushed, ← drop_append_of_le_length (Nat.sub_le _ _), drop_drop, length_drop, length_append,
    length_singleton]
  congr 1
  omega

def step (m : RollingMedian) : Option ℕ → RollingMedian
  | some v => m.insert v
  | none => m.clear

theorem Holds.foldl_step (ops : List (Option ℕ)) (h : m.Holds w) :
    (∃ w', (ops.foldl step m).Holds w') ∧ (ops.foldl step m).nItems = m.nItems := by
  induction ops generalizing m w with
  | nil => exact ⟨⟨w, h⟩, rfl⟩
  | cons op ops ih =>
    cases op with
    | some v =>
      obtain ⟨hholds, hn⟩ := ih (h.insert v)
      exact ⟨hholds, hn.trans (h.insert_nItems v)⟩
    | none => exact ih h.clear

/-- After any insertions the last ones are held. -/
theorem Holds.foldl_last (h : m.Holds []) (l : List ℕ) :
    (l.foldl RollingMedian.insert m).Holds (l.drop (l.length - m.nItems)) ∧
      (l.foldl RollingMedian.insert m).nItems = m.nItems := by
  induction l using reverseRecOn with
  | nil => exact ⟨by rwa [drop_nil], rfl⟩
  | append_singleton l v ih =>
    obtain ⟨hholds, hn⟩ := ih
    have hv := hholds.insert v
    rw [hn, pushed_drop] at hv
    rw [foldl_append]
    exact ⟨hv, (hholds.insert_nItems v).trans hn⟩

/-- Whatever was inserted and cleared before, the median is that of the last `n` values since the
last clear. -/
theorem median_foldl_insert (hn : 0 < n) (data : ℕ → ℕ) (ops : List (Option ℕ)) {l : List ℕ}
    (hne : l ≠ []) :
    (l.foldl RollingMedian.insert (ops.foldl step (create n data)).clear).median =
      medianWeight (l.drop (l.length - n)) := by
  obtain ⟨⟨w, hholds⟩, hitems⟩ := (holds_create hn data).foldl_step ops
  have hlast := (hholds.clear.foldl_last l).1
  rw [show (ops.foldl step (create n data)).clear.nItems = n from hitems] at hlast
  refine hlast.median_eq fun hnil => ?_
  have := length_pos_iff.mpr hne
  have := drop_eq_nil_iff.mp hnil
  omega

theorem median_foldl_insert_three :
    ([4, 1, 9, 2].foldl RollingMedian.insert
      ([some 5, none, some 8].foldl step (create 3 fun _ => 0)).clear).median = 2 :=
  (median_foldl_insert (by decide) _ _ (by decide)).trans (by decide)

end RollingMedian

end Nerva
