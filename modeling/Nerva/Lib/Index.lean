import Mathlib.Data.Finset.Basic

/-!
# Indexes

An index maps each key to the set of the ids filed under it, and has no entry where that set would
be empty. It describes a relation between keys and ids.
-/

/-- For each key the set of what is filed under it, if there is an entry. -/
abbrev Index (κ ι : Type*) := κ → Option (Finset ι)

namespace Index

variable {κ ι : Type*} {idx : Index κ ι} {R R' : κ → ι → Prop} {k : κ} {i : ι}

def empty : Index κ ι := fun _ => none

/-- What is filed under a key. -/
def ids (idx : Index κ ι) (k : κ) : Finset ι := (idx k).getD ∅

/-- Sets or removes the entry of a key. -/
def put [DecidableEq κ] (idx : Index κ ι) (k : κ) (s : Option (Finset ι)) : Index κ ι := fun k' =>
  if k' = k then s else idx k'

theorem put_self [DecidableEq κ] (idx : Index κ ι) (k : κ) (s : Option (Finset ι)) :
    idx.put k s k = s := if_pos rfl

theorem put_of_ne [DecidableEq κ] {k' : κ} (h : k' ≠ k) (s : Option (Finset ι)) :
    idx.put k s k' = idx k' := if_neg h

/-- The index has an entry for a key when ids are related to it, and the entry is those ids. -/
structure Describes (idx : Index κ ι) (R : κ → ι → Prop) : Prop where
  nonempty : ∀ {k s}, idx k = some s → s ≠ ∅
  mem_ids : ∀ {k i}, i ∈ idx.ids k ↔ R k i

theorem Describes.congr (h : idx.Describes R) (hR : ∀ k i, R k i ↔ R' k i) : idx.Describes R' :=
  ⟨h.nonempty, fun {k i} => h.mem_ids.trans (hR k i)⟩

theorem describes_empty : (empty : Index κ ι).Describes fun _ _ => False :=
  ⟨fun h => (by cases h), fun {_ i} => iff_of_false (Finset.notMem_empty i) id⟩

/-- A key has an entry exactly when something is filed under it. -/
theorem Describes.isSome_iff (h : idx.Describes R) : (idx k).isSome = true ↔ ∃ i, R k i := by
  cases hk : idx k with
  | none =>
    refine iff_of_false Bool.false_ne_true ?_
    rintro ⟨i, hi⟩
    have := h.mem_ids.mpr hi
    rw [ids, hk] at this
    exact Finset.notMem_empty i this
  | some s =>
    refine iff_of_true rfl ?_
    obtain ⟨i, hi⟩ := Finset.nonempty_iff_ne_empty.mpr (h.nonempty hk)
    exact ⟨i, h.mem_ids.mp (by rw [ids, hk]; exact hi)⟩

theorem Describes.ids_eq_empty_iff (h : idx.Describes R) : idx.ids k = ∅ ↔ ∀ i, ¬R k i := by
  rw [Finset.eq_empty_iff_forall_notMem]
  exact forall_congr' fun i => not_congr h.mem_ids

section Update

variable [DecidableEq κ] [DecidableEq ι]

/-- Files a value under a key. -/
def add (idx : Index κ ι) (k : κ) (i : ι) : Index κ ι := idx.put k (some (insert i (idx.ids k)))

/-- Takes a value from under a key, and the entry with the last one. -/
def drop (idx : Index κ ι) (k : κ) (i : ι) : Index κ ι :=
  let left := (idx.ids k).erase i
  idx.put k (if left = ∅ then none else some left)

theorem ids_add (idx : Index κ ι) (k k' : κ) (i : ι) :
    (idx.add k i).ids k' = if k' = k then insert i (idx.ids k) else idx.ids k' := by
  unfold ids add put
  split <;> rfl

theorem ids_drop (idx : Index κ ι) (k k' : κ) (i : ι) :
    (idx.drop k i).ids k' = if k' = k then (idx.ids k).erase i else idx.ids k' := by
  unfold ids drop put
  by_cases hk : k' = k
  · rw [if_pos hk]
    split
    · rename_i hempty
      exact hempty.symm
    · rfl
  · rw [if_neg hk, if_neg hk]

/-- Adding to the index adds to the relation. -/
theorem Describes.add (h : idx.Describes R) (k : κ) (i : ι) :
    (idx.add k i).Describes fun k' i' => (k' = k ∧ i' = i) ∨ R k' i' := by
  refine ⟨fun {k' s} hs => ?_, fun {k' i'} => ?_⟩
  · by_cases hk : k' = k
    · subst hk
      rw [Index.add, put_self] at hs
      rw [← Option.some.inj hs]
      exact Finset.insert_ne_empty _ _
    · rw [Index.add, put_of_ne hk] at hs
      exact h.nonempty hs
  · rw [ids_add]
    split
    · rename_i hk
      rw [Finset.mem_insert, h.mem_ids, hk]
      simp
    · rename_i hk
      rw [h.mem_ids]
      simp [hk]

/-- Dropping from the index drops from the relation. -/
theorem Describes.drop (h : idx.Describes R) (k : κ) (i : ι) :
    (idx.drop k i).Describes fun k' i' => R k' i' ∧ ¬(k' = k ∧ i' = i) := by
  refine ⟨fun {k' s} hs => ?_, fun {k' i'} => ?_⟩
  · by_cases hk : k' = k
    · subst hk
      rw [Index.drop] at hs
      simp only [put_self] at hs
      split at hs
      · cases hs
      · rename_i hleft
        rwa [← Option.some.inj hs]
    · rw [Index.drop] at hs
      simp only [put_of_ne hk] at hs
      exact h.nonempty hs
  · rw [ids_drop]
    split
    · rename_i hk
      rw [Finset.mem_erase, h.mem_ids, hk]
      simp [and_comm]
    · rename_i hk
      rw [h.mem_ids]
      simp [hk]

/-- Files a value under several keys. -/
def addAll (i : ι) : List κ → Index κ ι → Index κ ι
  | [], idx => idx
  | k :: ks, idx => addAll i ks (idx.add k i)

/-- Takes a value from under several keys. -/
def dropAll (i : ι) : List κ → Index κ ι → Index κ ι
  | [], idx => idx
  | k :: ks, idx => dropAll i ks (idx.drop k i)

theorem Describes.addAll (i : ι) : ∀ (ks : List κ) {idx : Index κ ι} {R : κ → ι → Prop},
    idx.Describes R → (Index.addAll i ks idx).Describes fun k' i' => (k' ∈ ks ∧ i' = i) ∨ R k' i'
  | [], _, _, h => h.congr fun k' i' => by simp
  | k :: ks, idx, R, h => by
    refine (Describes.addAll i ks (h.add k i)).congr fun k' i' => ?_
    rw [List.mem_cons]
    tauto

theorem Describes.dropAll (i : ι) : ∀ (ks : List κ) {idx : Index κ ι} {R : κ → ι → Prop},
    idx.Describes R → (Index.dropAll i ks idx).Describes fun k' i' => R k' i' ∧ ¬(k' ∈ ks ∧ i' = i)
  | [], _, _, h => h.congr fun k' i' => by simp
  | k :: ks, idx, R, h => by
    refine (Describes.dropAll i ks (h.drop k i)).congr fun k' i' => ?_
    rw [List.mem_cons]
    tauto

end Update

end Index
