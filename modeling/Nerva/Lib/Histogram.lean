import Mathlib.Data.List.Basic

/-!
# Counters that follow a list

Counters of what is in a list, kept up as elements come and go at its two ends.
-/

namespace Histogram

open List

variable {α : Type*} [DecidableEq α] {h : α → ℕ} {l : List α} {a : α}

/-- One more of a value. -/
def bump (h : α → ℕ) (a : α) : α → ℕ := Function.update h a (h a + 1)

/-- One fewer of a value. -/
def unbump (h : α → ℕ) (a : α) : α → ℕ := Function.update h a (h a - 1)

/-- The histogram counts the list. -/
def Of (h : α → ℕ) (l : List α) : Prop := ∀ a, h a = l.count a

theorem of_nil : Of (fun _ : α => 0) [] := fun _ => rfl

theorem Of.perm {l' : List α} (hl : Of h l) (hperm : l.Perm l') : Of h l' := by
  intro b
  rw [hl b, hperm.count_eq]

theorem Of.cons (hl : Of h l) (a : α) : Of (bump h a) (a :: l) := by
  intro b
  by_cases hb : b = a
  · subst hb
    simp [bump, hl b]
  · rw [bump, Function.update_of_ne hb, count_cons_of_ne (Ne.symm hb)]
    exact hl b

theorem Of.tail (hl : Of h (a :: l)) : Of (unbump h a) l := by
  intro b
  by_cases hb : b = a
  · subst hb
    simp [unbump, hl b]
  · rw [unbump, Function.update_of_ne hb, hl b, count_cons_of_ne (Ne.symm hb)]

theorem Of.concat (hl : Of h l) (a : α) : Of (bump h a) (l ++ [a]) :=
  (hl.cons a).perm (perm_append_singleton a l).symm

theorem Of.dropLast (hl : Of h (l ++ [a])) : Of (unbump h a) l :=
  (hl.perm (perm_append_singleton a l)).tail

/-- Drops values from the front until fewer than the window are left. -/
def trim (window : ℕ) : List α → (α → ℕ) → List α × (α → ℕ)
  | [], h => ([], h)
  | a :: l, h => if window ≤ l.length + 1 then trim window l (unbump h a) else (a :: l, h)

/-- Trimming leaves the last values, and the histogram counts them. -/
theorem trim_eq {window : ℕ} (hpos : 0 < window) : ∀ (l : List α) {h : α → ℕ}, Of h l →
    (trim window l h).1 = l.drop (l.length + 1 - window) ∧
      Of (trim window l h).2 (trim window l h).1
  | [], _, hl => ⟨by simp [trim], hl⟩
  | a :: l, h, hl => by
    unfold trim
    split_ifs with hle
    · obtain ⟨hdrop, hof⟩ := trim_eq hpos l hl.tail
      refine ⟨?_, hof⟩
      have hsucc : l.length + 1 + 1 - window = (l.length + 1 - window) + 1 := by omega
      rw [hdrop, length_cons, hsucc, drop_succ_cons]
    · have hzero : l.length + 1 + 1 - window = 0 := by omega
      exact ⟨by rw [length_cons, hzero, drop_zero], hl⟩

end Histogram
