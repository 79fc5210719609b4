import Std.Data.ExtTreeMap.Lemmas
import Mathlib.Data.Nat.Notation

/-!
# Sorted tables

The tables of a key-value store are sorted maps. `append` only takes a key after all others, so
what it has added can be erased again without a trace. A table with several rows for a key is a
table of tables, none of them empty.
-/

open Std

namespace Nerva

open ExtTreeMap

abbrev Table (κ α : Type) [Ord κ] := ExtTreeMap κ α

namespace Table

/-- The key after the last one. -/
def nextKey {α : Type} (t : Table ℕ α) : ℕ :=
  match t.keys.getLast? with
  | none => 0
  | some last => last + 1

variable {κ α : Type} [Ord κ] [TransOrd κ] {t t' : Table κ α} {k k' : κ} {v v' : α}

def append (t : Table κ α) (k : κ) (v : α) : Option (Table κ α) :=
  match t.keys.getLast? with
  | none => some (t.insert k v)
  | some last => if compare last k = .lt then some (t.insert k v) else none

theorem append_eq_some (h : t.append k v = some t') : t[k]? = none ∧ t' = t.insert k v := by
  unfold append at h
  rw [← maxKey?_eq_getLast?_keys] at h
  split at h
  · rename_i hlast
    cases h
    rw [maxKey?_eq_none_iff.1 hlast]
    exact ⟨getElem?_empty, rfl⟩
  · rename_i last hlast
    split at h
    · rename_i hlt
      cases h
      refine ⟨getElem?_eq_none fun hmem => ?_, rfl⟩
      have hle : (compare k last).isLE :=
        maxKey?_le.1 (fun _ hkey => by simp_all) k hmem
      rw [OrientedOrd.eq_swap, hlt] at hle
      cases hle
    · cases h

theorem size_insert_of_none (h : t[k]? = none) : (t.insert k v).size = t.size + 1 := by
  rw [size_insert, contains_eq_isSome_getElem?, h]
  rfl

variable [LawfulEqOrd κ]

theorem getElem?_insert_of_ne (h : k ≠ k') : (t.insert k v)[k']? = t[k']? := by
  rw [getElem?_insert, if_neg (mt LawfulEqCmp.compare_eq_iff_eq.1 h)]

theorem getElem?_erase_of_ne (h : k ≠ k') : (t.erase k)[k']? = t[k']? := by
  rw [getElem?_erase, if_neg (mt LawfulEqCmp.compare_eq_iff_eq.1 h)]

theorem getElem?_insert_eq_some : (t.insert k v)[k']? = some v' ↔
    k = k' ∧ v = v' ∨ k ≠ k' ∧ t[k']? = some v' := by
  by_cases h : k = k'
  · subst h
    simp
  · rw [getElem?_insert_of_ne h]
    simp [h]

theorem getElem?_erase_eq_some : (t.erase k)[k']? = some v ↔ k ≠ k' ∧ t[k']? = some v := by
  by_cases h : k = k'
  · subst h
    simp
  · rw [getElem?_erase_of_ne h]
    simp [h]

/-- Erasing undoes an insertion. -/
theorem erase_insert (h : t[k]? = none) : (t.insert k v).erase k = t := by
  refine ext_getElem? fun k' => ?_
  by_cases hk : k = k'
  · subst hk
    rw [getElem?_erase_self, h]
  · rw [getElem?_erase_of_ne hk, getElem?_insert_of_ne hk]

theorem erase_of_none (h : t[k]? = none) : t.erase k = t := by
  refine ext_getElem? fun k' => ?_
  by_cases hk : k = k'
  · subst hk
    rw [getElem?_erase_self, h]
  · rw [getElem?_erase_of_ne hk]

/-- Inserting undoes an erasure. -/
theorem insert_erase (h : t[k]? = some v) : (t.erase k).insert k v = t := by
  refine ext_getElem? fun k' => ?_
  by_cases hk : k = k'
  · subst hk
    rw [getElem?_insert_self, h]
  · rw [getElem?_insert_of_ne hk, getElem?_erase_of_ne hk]

/-- The rows of the first keys. -/
def range (f : ℕ → α) : ℕ → Table ℕ α
  | 0 => ∅
  | n + 1 => (range f n).insert n (f n)

theorem getElem?_range (f : ℕ → α) (i : ℕ) :
    ∀ n, (range f n)[i]? = if i < n then some (f i) else none
  | 0 => by simp [range]
  | n + 1 => by
    by_cases hi : n = i
    · subst hi
      simp [range]
    · rw [range, getElem?_insert_of_ne hi, getElem?_range f i n]
      by_cases hlt : i < n
      · rw [if_pos hlt, if_pos (Nat.lt_succ_of_lt hlt)]
      · rw [if_neg hlt, if_neg (by omega)]

theorem size_range (f : ℕ → α) : ∀ n, (range f n).size = n
  | 0 => rfl
  | n + 1 => by
    rw [range, size_insert_of_none (by simp [getElem?_range]), size_range f n]

theorem size_erase_of_some (h : t[k]? = some v) : (t.erase k).size + 1 = t.size := by
  rw [← size_insert_of_none (v := v) getElem?_erase_self, insert_erase h]

end Table

/-- A table with several rows under a key; no key is there without rows. -/
structure DupTable (κ ι α : Type) [Ord κ] [Ord ι] [TransOrd κ] where
  rows : Table κ (Table ι α)
  nonempty : ∀ (k : κ) (r : Table ι α), rows[k]? = some r → r ≠ ∅

namespace DupTable

variable {κ ι α : Type} [Ord κ] [TransOrd κ] [LawfulEqOrd κ] [Ord ι] {t t' : DupTable κ ι α}
  {k k' : κ} {i : ι} {v : α} {r : Table ι α}

def empty : DupTable κ ι α := ⟨∅, by simp⟩

/-- The rows under a key. -/
def dups (t : DupTable κ ι α) (k : κ) : Table ι α := t.rows[k]?.getD ∅

/-- Tables are equal if they have the same rows under every key. -/
theorem ext_dups (h : ∀ k, t.dups k = t'.dups k) : t = t' := by
  have hrows : t.rows = t'.rows := by
    refine ext_getElem? fun k => ?_
    have hk := h k
    unfold dups at hk
    cases ht : t.rows[k]? with
    | none =>
      cases ht' : t'.rows[k]? with
      | none => rfl
      | some r =>
        rw [ht, ht'] at hk
        exact absurd hk.symm (t'.nonempty k r ht')
    | some r =>
      cases ht' : t'.rows[k]? with
      | none =>
        rw [ht, ht'] at hk
        exact absurd hk (t.nonempty k r ht)
      | some r' =>
        rw [ht, ht'] at hk
        exact congrArg some hk
  cases t
  cases t'
  cases hrows
  rfl

variable [TransOrd ι]

def put (t : DupTable κ ι α) (k : κ) (r : Table ι α) : DupTable κ ι α :=
  if h : r.isEmpty then
    { rows := t.rows.erase k
      nonempty := fun k' r' hr' => t.nonempty k' r' (Table.getElem?_erase_eq_some.1 hr').2 }
  else
    { rows := t.rows.insert k r
      nonempty := fun k' r' hr' => by
        rcases Table.getElem?_insert_eq_some.1 hr' with ⟨-, rfl⟩ | ⟨-, hr'⟩
        · simpa [ExtTreeMap.isEmpty_iff] using h
        · exact t.nonempty k' r' hr' }

def append (t : DupTable κ ι α) (k : κ) (i : ι) (v : α) : Option (DupTable κ ι α) :=
  ((t.dups k).append i v).map (t.put k)

def erase (t : DupTable κ ι α) (k : κ) (i : ι) : DupTable κ ι α := t.put k ((t.dups k).erase i)

@[simp] theorem dups_put_self : (t.put k r).dups k = r := by
  unfold put dups
  split
  · rename_i h
    simp [isEmpty_iff.1 h]
  · simp

theorem dups_put_of_ne (h : k ≠ k') : (t.put k r).dups k' = t.dups k' := by
  unfold put dups
  split
  · rw [Table.getElem?_erase_of_ne h]
  · rw [Table.getElem?_insert_of_ne h]

theorem append_eq_some (h : t.append k i v = some t') :
    (t.dups k)[i]? = none ∧ t' = t.put k ((t.dups k).insert i v) := by
  obtain ⟨r, hr, rfl⟩ := Option.map_eq_some_iff.1 h
  obtain ⟨hnone, rfl⟩ := Table.append_eq_some hr
  exact ⟨hnone, rfl⟩

variable [LawfulEqOrd ι]

/-- Erasing undoes an insertion under a key. -/
theorem erase_put_insert (h : (t.dups k)[i]? = none) :
    (t.put k ((t.dups k).insert i v)).erase k i = t := by
  refine ext_dups fun k' => ?_
  by_cases hk : k = k'
  · subst hk
    rw [erase, dups_put_self, dups_put_self, Table.erase_insert h]
  · rw [erase, dups_put_of_ne hk, dups_put_of_ne hk]

end DupTable

end Nerva
