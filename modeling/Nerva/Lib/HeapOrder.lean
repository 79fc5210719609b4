import Mathlib.Logic.Equiv.Basic

/-!
# Restoring the order of a binary heap

A heap is given by the values of its slots: slot `j` has the parent `j / 2`, so that slot 0 sits
above slot 1. One slot out of order is put right by exchanging it with a child or with its parent;
what each exchange keeps is said here for any total preorder of the values.
-/

namespace HeapOrder

open Function

variable {α : Type*} (r : α → α → Prop)

/-- Every value is in order with the one above it. -/
def Ordered (n : ℕ) (w : ℕ → α) : Prop := ∀ j, 1 ≤ j → j ≤ n → r (w (j / 2)) (w j)

/-- In order but for slot `k` and its children. -/
structure DownAt (n : ℕ) (w : ℕ → α) (k : ℕ) : Prop where
  off : ∀ j, 1 ≤ j → j ≤ n → j / 2 ≠ k → r (w (j / 2)) (w j)
  grand : ∀ j, 1 ≤ j → j ≤ n → j / 2 = k → r (w (k / 2)) (w j)

/-- In order but for slot `k` and its parent. -/
structure UpAt (n : ℕ) (w : ℕ → α) (k : ℕ) : Prop where
  off : ∀ j, 1 ≤ j → j ≤ n → j ≠ k → r (w (j / 2)) (w j)
  grand : ∀ j, 1 ≤ j → j ≤ n → j / 2 = k → r (w (k / 2)) (w j)

variable {r} {n k : ℕ} {w : ℕ → α}

section Ordered

variable [IsTrans α r] [Std.Refl r]

theorem Ordered.root_le (h : Ordered r n w) : ∀ {j : ℕ}, j ≤ n → r (w 0) (w j)
  | 0, _ => refl_of r _
  | j + 1, hj =>
    trans_of r (h.root_le (by omega : (j + 1) / 2 ≤ n)) (h (j + 1) (by omega) hj)
termination_by j => j

/-- The top of a heap is in order with all of it. -/
theorem Ordered.top_le (h : Ordered r n w) {j : ℕ} (hj : 1 ≤ j) (hjn : j ≤ n) : r (w 1) (w j) := by
  by_cases h1 : j = 1
  · rw [h1]
    exact refl_of r _
  · have hlt : j / 2 < j := by omega
    exact trans_of r (h.top_le (by omega : 1 ≤ j / 2) (by omega)) (h j hj hjn)
termination_by j

end Ordered

section Update

variable {v : α}

theorem Ordered.downAt [IsTrans α r] (h : Ordered r n w) (hk : 1 ≤ k) (hkn : k ≤ n)
    (hv : r (w k) v) : DownAt r n (Function.update w k v) k := by
  have hup : r (w (k / 2)) (w k) := h k hk hkn
  constructor
  · intro j hj hjn hjk
    rw [update_of_ne hjk]
    by_cases heq : j = k
    · rw [heq, update_self]
      exact trans_of r hup hv
    · rw [update_of_ne heq]
      exact h j hj hjn
  · intro j hj hjn hjk
    rw [update_of_ne (by omega), update_of_ne (by omega)]
    have := h j hj hjn
    rw [hjk] at this
    exact trans_of r hup this

theorem Ordered.upAt [IsTrans α r] (h : Ordered r n w) (hk : 1 ≤ k) (hkn : k ≤ n)
    (hv : r v (w k)) : UpAt r n (Function.update w k v) k := by
  constructor
  · intro j hj hjn hjk
    rw [update_of_ne hjk]
    by_cases heq : j / 2 = k
    · rw [heq, update_self]
      have := h j hj hjn
      rw [heq] at this
      exact trans_of r hv this
    · rw [update_of_ne heq]
      exact h j hj hjn
  · intro j hj hjn hjk
    rw [update_of_ne (by omega), update_of_ne (by omega)]
    have := h j hj hjn
    rw [hjk] at this
    exact trans_of r (h k hk hkn) this

theorem Ordered.upAt_succ (h : Ordered r n w) :
    UpAt r (n + 1) (Function.update w (n + 1) v) (n + 1) := by
  constructor
  · intro j hj hjn hjk
    rw [update_of_ne hjk, update_of_ne (by omega)]
    exact h j hj (by omega)
  · intro j _ hjn hjk
    exact absurd hjn (by omega)

end Update

/-- Sinking may end where the value is in order with those below. -/
theorem DownAt.ordered (h : DownAt r n w k)
    (hstop : ∀ j, 1 ≤ j → j ≤ n → j / 2 = k → r (w k) (w j)) : Ordered r n w := by
  intro j hj hjn
  by_cases hk : j / 2 = k
  · rw [hk]
    exact hstop j hj hjn hk
  · exact h.off j hj hjn hk

/-- Sinking by one level: the smaller of the two children comes up. -/
theorem DownAt.swap (h : DownAt r n w k) (hk : 1 ≤ k) {c : ℕ} (hcn : c ≤ n) (hck : c / 2 = k)
    (hfirst : ∀ j, 1 ≤ j → j ≤ n → j / 2 = k → r (w c) (w j)) (hlt : r (w c) (w k)) :
    DownAt r n (w ∘ Equiv.swap c k) c := by
  have hat : ∀ j, j ≠ c → j ≠ k → (w ∘ Equiv.swap c k) j = w j := fun j h₁ h₂ =>
    congrArg w (Equiv.swap_apply_of_ne_of_ne h₁ h₂)
  have hatc : (w ∘ Equiv.swap c k) c = w k := congrArg w (Equiv.swap_apply_left c k)
  have hatk : (w ∘ Equiv.swap c k) k = w c := congrArg w (Equiv.swap_apply_right c k)
  constructor
  · intro j hj hjn hjc
    by_cases hjk : j / 2 = k
    · -- a child of `k`: `c` itself or its sibling
      rw [hjk, hatk]
      by_cases heq : j = c
      · rw [heq, hatc]
        exact hlt
      · rw [hat j heq (by omega)]
        exact hfirst j hj hjn hjk
    · rw [hat (j / 2) hjc hjk]
      by_cases heq : j = k
      · rw [heq, hatk]
        exact h.grand c (by omega) hcn hck
      · rw [hat j (by rintro rfl; exact hjk hck) heq]
        exact h.off j hj hjn hjk
  · intro j hj hjn hjc
    rw [hck, hatk, hat j (by omega) (by omega)]
    have := h.off j hj hjn (by omega)
    rwa [hjc] at this

/-- Rising may end where the value is in order with the one above. -/
theorem UpAt.ordered (h : UpAt r n w k) (hstop : 1 ≤ k → r (w (k / 2)) (w k)) : Ordered r n w := by
  intro j hj hjn
  by_cases hk : j = k
  · rw [hk]
    exact hstop (hk ▸ hj)
  · exact h.off j hj hjn hk

/-- Rising by one level. -/
theorem UpAt.swap [IsTrans α r] (h : UpAt r n w k) (hk : 1 ≤ k) (hkn : k ≤ n)
    (hlt : r (w k) (w (k / 2))) : UpAt r n (w ∘ Equiv.swap k (k / 2)) (k / 2) := by
  have hat : ∀ j, j ≠ k → j ≠ k / 2 → (w ∘ Equiv.swap k (k / 2)) j = w j := fun j h₁ h₂ =>
    congrArg w (Equiv.swap_apply_of_ne_of_ne h₁ h₂)
  have hatk : (w ∘ Equiv.swap k (k / 2)) k = w (k / 2) := congrArg w (Equiv.swap_apply_left _ _)
  have hatp : (w ∘ Equiv.swap k (k / 2)) (k / 2) = w k := congrArg w (Equiv.swap_apply_right _ _)
  constructor
  · intro j hj hjn hjp
    by_cases hjk : j = k
    · rw [hjk, hatk, hatp]
      exact hlt
    · rw [hat j hjk hjp]
      by_cases hchild : j / 2 = k
      · rw [hchild, hatk]
        exact h.grand j hj hjn hchild
      · by_cases hsibling : j / 2 = k / 2
        · rw [hsibling, hatp]
          have := h.off j hj hjn hjk
          rw [hsibling] at this
          exact trans_of r hlt this
        · rw [hat (j / 2) hchild hsibling]
          exact h.off j hj hjn hjk
  · intro j hj hjn hjp
    by_cases hp : k / 2 = 0
    · -- the root: its only child is slot 1
      have hj1 : j = 1 := by omega
      have hk1 : k = 1 := by omega
      rw [hj1]
      have e0 := hatp
      have e1 := hatk
      rw [hk1] at e0 e1 hlt
      rw [show k = 1 from hk1]
      exact hlt
    · have hup := h.off (k / 2) (by omega) (by omega) (by omega)
      rw [hat (k / 2 / 2) (by omega) (by omega)]
      by_cases hjk : j = k
      · rw [hjk, hatk]
        exact hup
      · rw [hat j hjk (by omega)]
        have := h.off j hj hjn hjk
        rw [hjp] at this
        exact trans_of r hup this

end HeapOrder
