import Mathlib.Algebra.Order.Ring.Nat
import Mathlib.Algebra.Order.BigOperators.Group.List

/-!
# Totals over a list of stacks

What a number attached to the elements of some stacks adds up to, and how the total changes when the
top of one of the stacks does.
-/

namespace Nerva

open List

variable {α : Type*} (g : α → ℕ) {l : List (List α)} {i : ℕ} {a b : α} {st st' : List α} {j : ℕ}
  {β : Type*}

/-- The sum over all stacks. -/
def total (l : List (List α)) : ℕ := (l.map fun st => (st.map g).sum).sum

/-- How the total changes with the top of one stack. -/
theorem total_set (new : List α) : ∀ {l : List (List α)} {i : ℕ} {old st : List α},
    l[i]? = some (old ++ st) →
    total g (l.set i (new ++ st)) + (old.map g).sum = total g l + (new.map g).sum
  | [], i, old, st, h => by simp at h
  | l₀ :: l, 0, old, st, h => by
    simp only [getElem?_cons_zero, Option.some.injEq] at h
    subst h
    simp only [total, set_cons_zero, map_cons, sum_cons, map_append,
      sum_append]
    omega
  | l₀ :: l, i + 1, old, st, h => by
    have ih := total_set new (by simpa using h : l[i]? = some (old ++ st))
    simp only [total, set_cons_succ, map_cons, sum_cons] at ih ⊢
    omega

variable {g}

theorem total_eq_flatten (l : List (List α)) : total g l = (l.flatten.map g).sum := by
  induction l with
  | nil => rfl
  | cons st l ih => simp_all [total]

theorem le_total (hst : l[i]? = some st) (ha : a ∈ st) : g a ≤ total g l := by
  rw [total_eq_flatten]
  apply single_le_sum (by simp)
  exact mem_map_of_mem (mem_flatten.mpr ⟨st, mem_of_getElem? hst, ha⟩)

/-- A positive total comes from some element. -/
theorem exists_of_total_pos (h : 0 < total g l) :
    ∃ (i : ℕ) (st : List α) (a : α), l[i]? = some st ∧ a ∈ st ∧ 0 < g a := by
  by_contra hnone
  have hzero : total g l = 0 := by
    rw [total_eq_flatten]
    apply sum_eq_zero
    intro x hx
    obtain ⟨a, ha, rfl⟩ := mem_map.mp hx
    obtain ⟨st, hst, ha⟩ := mem_flatten.mp ha
    obtain ⟨i, hi⟩ := getElem?_of_mem hst
    exact Nat.eq_zero_of_not_pos fun hpos => hnone ⟨i, st, a, hi, ha, hpos⟩
  omega

theorem add_le_sum_of_mem {l : List α} (ha : a ∈ l) (hb : b ∈ l) (hne : a ≠ b) :
    g a + g b ≤ (l.map g).sum := by
  obtain ⟨l₁, l₂, rfl⟩ := append_of_mem ha
  have hb' : b ∈ l₁ ++ l₂ := by
    simp only [mem_append, mem_cons] at hb ⊢
    rcases hb with hb | rfl | hb
    · exact .inl hb
    · exact absurd rfl hne
    · exact .inr hb
  have hle : g b ≤ ((l₁ ++ l₂).map g).sum :=
    single_le_sum (by simp) _ (mem_map_of_mem hb')
  simp only [map_append, sum_append, map_cons, sum_cons] at hle ⊢
  omega

/-- Two elements together are within the total. -/
theorem add_le_total (hst : l[i]? = some st) (ha : a ∈ st) (hst' : l[j]? = some st') (hb : b ∈ st')
    (hne : a ≠ b) : g a + g b ≤ total g l := by
  rw [total_eq_flatten]
  exact add_le_sum_of_mem (mem_flatten.mpr ⟨st, mem_of_getElem? hst, ha⟩)
    (mem_flatten.mpr ⟨st', mem_of_getElem? hst', hb⟩) hne

theorem add_le_total_of_ne (hst : l[i]? = some st) (ha : a ∈ st) (hst' : l[j]? = some st')
    (hb : b ∈ st') (hne : i ≠ j) : g a + g b ≤ total g l := by
  have hset : total g (l.set i []) + (st.map g).sum = total g l := by
    simpa using total_set g [] (by simpa using hst : l[i]? = some (st ++ []))
  have hle : g b ≤ total g (l.set i []) := le_total (by rwa [getElem?_set_ne hne]) hb
  have hle' : g a ≤ (st.map g).sum := single_le_sum (by simp) _ (mem_map_of_mem ha)
  omega

/-- A count grows by at most the copies of one value. -/
theorem countP_le_add_count [BEq β] [LawfulBEq β] {p q : β → Bool} {k : β} :
    ∀ {l : List β}, (∀ j ∈ l, q j → p j ∨ j = k) → l.countP q ≤ l.countP p + l.count k
  | [], _ => by simp
  | j :: l, h => by
    have ih := countP_le_add_count fun j hj => h j (mem_cons_of_mem _ hj)
    have hj := h j mem_cons_self
    simp only [countP_cons, count_cons]
    by_cases hq : q j
    · rcases hj hq with hp | rfl
      · simp only [hq, hp]
        omega
      · simp only [hq, beq_self_eq_true]
        omega
    · simp only [hq, Bool.false_eq_true, if_false]
      omega

theorem countP_add_count_le [BEq β] [LawfulBEq β] {p q : β → Bool} {k : β} :
    ∀ {l : List β}, (∀ j ∈ l, q j → p j ∧ j ≠ k) → p k → l.countP q + l.count k ≤ l.countP p
  | [], _, _ => by simp
  | j :: l, h, hk => by
    have ih := countP_add_count_le (fun j hj => h j (mem_cons_of_mem _ hj)) hk
    have hj := h j mem_cons_self
    simp only [countP_cons, count_cons]
    by_cases hq : q j
    · obtain ⟨hp, hne⟩ := hj hq
      simp only [hq, hp, beq_iff_eq, hne, if_false]
      omega
    · by_cases hjk : j = k
      · subst hjk
        simp only [hq, hk, beq_self_eq_true, Bool.false_eq_true, if_false]
        omega
      · simp only [hq, beq_iff_eq, hjk, Bool.false_eq_true, if_false]
        omega

end Nerva
