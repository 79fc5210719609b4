import Mathlib.Algebra.BigOperators.Group.List.Basic
import Mathlib.Data.List.Nodup

/-!
# Running sums

The partial sums of a list in an additive group, such as the machine integers modulo a power of
two: when two of them coincide, and which run of summands lies between them.
-/

namespace RunningSums

open List

variable {α : Type*}

/-- The sums of the nonempty initial segments of a list, on top of `acc`. -/
def runningSumsFrom [Add α] : α → List α → List α
  | _, [] => []
  | acc, x :: xs => (acc + x) :: runningSumsFrom (acc + x) xs

/-- Each element added to the sum before it; the first element is left as it is. -/
def runningSums [Add α] : List α → List α
  | [] => []
  | x :: xs => x :: runningSumsFrom x xs

/-- Each element without the one before it, the first without `acc`. -/
def differencesFrom [Sub α] : α → List α → List α
  | _, [] => []
  | acc, x :: xs => (x - acc) :: differencesFrom x xs

def differences [Sub α] : List α → List α
  | [] => []
  | x :: xs => x :: differencesFrom x xs

@[simp] theorem length_runningSumsFrom [Add α] (acc : α) (xs : List α) :
    (runningSumsFrom acc xs).length = xs.length := by
  induction xs generalizing acc with
  | nil => rfl
  | cons x xs ih => simp [runningSumsFrom, ih]

@[simp] theorem length_runningSums [Add α] (xs : List α) : (runningSums xs).length = xs.length := by
  cases xs <;> simp [runningSums]

@[simp] theorem runningSums_eq_nil [Add α] {xs : List α} : runningSums xs = [] ↔ xs = [] := by
  rw [← length_eq_zero_iff, length_runningSums, length_eq_zero_iff]

section Group

variable [AddGroup α]

/-- A running sum is the sum of a front. -/
theorem mem_runningSumsFrom {a acc : α} {xs : List α} :
    a ∈ runningSumsFrom acc xs ↔ ∃ p, p ≠ [] ∧ p <+: xs ∧ a = acc + p.sum := by
  induction xs generalizing acc with
  | nil => simp [runningSumsFrom]
  | cons x xs ih =>
    simp only [runningSumsFrom, mem_cons, ih]
    constructor
    · rintro (rfl | ⟨p, -, hp, rfl⟩)
      · exact ⟨[x], by simp, by simp, by simp⟩
      · exact ⟨x :: p, by simp, by simpa using hp, by simp [add_assoc]⟩
    · rintro ⟨p, hne, hp, rfl⟩
      obtain ⟨y, q, rfl⟩ := exists_cons_of_ne_nil hne
      obtain ⟨rfl, hq⟩ := cons_prefix_cons.mp hp
      by_cases hnil : q = []
      · exact .inl (by simp [hnil])
      · exact .inr ⟨q, hnil, hq, by simp [add_assoc]⟩

/-- The running sums and the value they start from are distinct exactly when no run of consecutive
summands adds up to zero. -/
theorem notMem_and_nodup_runningSumsFrom {acc : α} {xs : List α} :
    acc ∉ runningSumsFrom acc xs ∧ (runningSumsFrom acc xs).Nodup ↔
      ∀ run, run ≠ [] → run <:+: xs → run.sum ≠ 0 := by
  induction xs generalizing acc with
  | nil => simp +contextual [runningSumsFrom]
  | cons x xs ih =>
    have hmem : acc ∉ runningSumsFrom acc (x :: xs) ↔
        ∀ p, p ≠ [] → p <+: x :: xs → p.sum ≠ 0 := by
      simp [mem_runningSumsFrom]
    have htail : (runningSumsFrom acc (x :: xs)).Nodup ↔
        ∀ run, run ≠ [] → run <:+: xs → run.sum ≠ 0 := by
      rw [← ih, runningSumsFrom, nodup_cons]
    rw [hmem, htail]
    constructor
    · rintro ⟨hpre, hinf⟩ run hne hrun
      rcases infix_cons_iff.mp hrun with h | h
      · exact hpre run hne h
      · exact hinf run hne h
    · intro h
      exact ⟨fun p hne hp => h p hne hp.isInfix, fun run hne hrun =>
        h run hne (infix_cons_iff.mpr (.inr hrun))⟩

/-- Running sums are distinct exactly when no run of terms after the first sums to zero. -/
theorem nodup_runningSums {xs : List α} :
    (runningSums xs).Nodup ↔ ∀ run, run ≠ [] → run <:+: xs.tail → run.sum ≠ 0 := by
  cases xs with
  | nil => simp +contextual [runningSums]
  | cons x xs =>
    rw [runningSums, nodup_cons]
    exact notMem_and_nodup_runningSumsFrom

end Group

section CommGroup

variable [AddCommGroup α]

/-- Running sums undo differences. -/
theorem runningSums_differences (xs : List α) : runningSums (differences xs) = xs := by
  have hfrom : ∀ (xs : List α) (acc : α), runningSumsFrom acc (differencesFrom acc xs) = xs := by
    intro xs
    induction xs with
    | nil => exact fun _ => rfl
    | cons x xs ih => simp [differencesFrom, runningSumsFrom, ih]
  cases xs with
  | nil => rfl
  | cons x xs => rw [differences, runningSums, hfrom]

/-- Differences undo running sums. -/
theorem differences_runningSums (xs : List α) : differences (runningSums xs) = xs := by
  have hfrom : ∀ (xs : List α) (acc : α), differencesFrom acc (runningSumsFrom acc xs) = xs := by
    intro xs
    induction xs with
    | nil => exact fun _ => rfl
    | cons x xs ih => simp [differencesFrom, runningSumsFrom, ih]
  cases xs with
  | nil => rfl
  | cons x xs => rw [runningSums, differences, hfrom]

end CommGroup

end RunningSums
