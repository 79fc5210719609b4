import Mathlib.Data.List.Count
import Mathlib.Data.List.Infix

/-!
# Lists numbered from their end

A list that is kept with the number of its last element only: element `i` of `l` has the number
`last + 1 + i - l.length`. Taking elements off the front keeps the numbers of the others, and no
other way to shorten the list does.
-/

namespace Numbered

open List

variable {α : Type*} {f : ℕ → Option α} {last : ℕ} {l l' : List α}

/-- The elements of the list are those numbered up to a last one, in order. -/
def To (f : ℕ → Option α) (last : ℕ) (l : List α) : Prop :=
  ∀ i a, l[i]? = some a → ∃ n, n + l.length = last + 1 + i ∧ f n = some a

theorem To.suffix (hl : To f last l) (hs : l' <:+ l) : To f last l' := by
  obtain ⟨t, rfl⟩ := hs
  intro i a ha
  have hi : (t ++ l')[t.length + i]? = some a := by
    rw [getElem?_append_right (Nat.le_add_right _ _), Nat.add_sub_cancel_left]
    exact ha
  obtain ⟨n, hn, hf⟩ := hl _ _ hi
  refine ⟨n, ?_, hf⟩
  rw [length_append] at hn
  omega

/-- Of two lists up to one number, the shorter ends the longer. -/
theorem To.suffix_of_le (hl : To f last l) (hl' : To f last l') (hlen : l'.length ≤ l.length) :
    l' <:+ l := by
  have hdrop : l' = l.drop (l.length - l'.length) := by
    apply ext_getElem?
    intro i
    rw [getElem?_drop]
    by_cases hi : i < l'.length
    · have ha := getElem?_eq_getElem hi
      have hj : l.length - l'.length + i < l.length := by omega
      have hb := getElem?_eq_getElem hj
      obtain ⟨n, hn, hfn⟩ := hl' _ _ ha
      obtain ⟨m, hm, hfm⟩ := hl _ _ hb
      obtain rfl : n = m := by omega
      rw [ha, hb, ← hfn, ← hfm]
    · rw [getElem?_eq_none (by omega), getElem?_eq_none (by omega)]
  rw [hdrop]
  exact drop_suffix _ _

/-- A list goes up to the same number exactly when it ends the longer one. -/
theorem To.suffix_iff (hl : To f last l) (hlen : l'.length ≤ l.length) : To f last l' ↔ l' <:+ l :=
  ⟨fun hl' => hl.suffix_of_le hl' hlen, hl.suffix⟩

/-- The elements of a list, numbered from a start. -/
def window (start : ℕ) (l : List α) (n : ℕ) : Option α := if n < start then none else l[n - start]?

/-- A front of a list goes up to the number of its last element. -/
theorem to_window {start : ℕ} (h : last + 1 = start + l'.length) (hp : l' <+: l) :
    To (window start l) last l' := by
  obtain ⟨t, rfl⟩ := hp
  intro i a ha
  have hi : i < l'.length := (List.getElem?_eq_some_iff.1 ha).1
  refine ⟨start + i, by omega, ?_⟩
  rw [window, if_neg (by omega), Nat.add_sub_cancel_left, getElem?_append_left hi, ha]

theorem To.last_isSome (hl : To f last l) (hne : l ≠ []) : (f last).isSome := by
  have hpos : 0 < l.length := length_pos_iff.2 hne
  obtain ⟨n, hn, hf⟩ := hl (l.length - 1) _ (getElem?_eq_getElem (by omega))
  obtain rfl : n = last := by omega
  simp [hf]

theorem To.length_le (hl : To f last l) : l.length ≤ last + 1 := by
  by_cases hne : l = []
  · simp [hne]
  · have hpos : 0 < l.length := length_pos_iff.2 hne
    obtain ⟨n, hn, -⟩ := hl 0 _ (getElem?_eq_getElem hpos)
    omega

section Erased

variable [DecidableEq α] {m : List α}

theorem append_diff_left : ∀ front rest : List α, (front ++ rest).diff front = rest
  | [], _ => rfl
  | a :: front, rest => by
    rw [cons_append, diff_cons, erase_cons_head, append_diff_left]

theorem diff_of_disjoint : ∀ {m : List α}, (∀ a ∈ l, a ∉ m) → l.diff m = l
  | [], _ => rfl
  | b :: m, h => by
    have hb : b ∉ l := fun hb => h b hb mem_cons_self
    rw [diff_cons, erase_of_not_mem hb]
    exact diff_of_disjoint fun a ha hm => h a ha (mem_cons_of_mem b hm)

/-- The elements of `m` that `l` has stand at its front. -/
def AtFront (m l : List α) : Prop := ∃ n, l.take n <+~ m ∧ ∀ a ∈ l.drop n, a ∉ m.diff (l.take n)

/-- Erasing the elements of a list leaves an end of the list exactly when they stand at its
front. -/
theorem diff_suffix_iff : l.diff m <:+ l ↔ AtFront m l := by
  constructor
  · rintro ⟨front, heq⟩
    have htake : l.take front.length = front := by
      rw [← heq, take_left]
    have hdrop : l.drop front.length = l.diff m := by
      conv_lhs => rw [← heq, drop_left]
    have hcount : ∀ a, l.count a = front.count a + (l.count a - m.count a) := by
      intro a
      conv_lhs => rw [← heq, count_append, count_diff]
    refine ⟨front.length, ?_⟩
    rw [htake, hdrop]
    constructor
    · refine subperm_ext_iff.mpr fun a ha => ?_
      have hpos := count_pos_iff.mpr ha
      have := hcount a
      omega
    · intro a ha hm
      have hpos := count_pos_iff.mpr ha
      have hpos' := count_pos_iff.mpr hm
      rw [count_diff] at hpos hpos'
      have := hcount a
      omega
  · rintro ⟨n, hsub, hnot⟩
    have hm : m.Perm (l.take n ++ m.diff (l.take n)) :=
      (subperm_append_diff_self_of_count_le (subperm_ext_iff.mp hsub)).symm
    have hfront : l.diff (l.take n) = l.drop n := by
      have h := append_diff_left (l.take n) (l.drop n)
      rwa [take_append_drop] at h
    have hdiff : l.diff m = l.drop n := by
      rw [hm.diff_left, diff_append, hfront, diff_of_disjoint hnot]
    exact ⟨l.take n, by rw [hdiff, take_append_drop]⟩

end Erased

end Numbered
