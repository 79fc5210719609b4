import Mathlib.Data.List.Nodup
import Mathlib.Order.Lattice

/-!
# Tables with a key and a time

A container with two indices: one entry for each key, and an order by time in which entries of one
time stand as they came. It is kept as the list in order of time.
-/

/-- The entries in order of time, no two with the same key. -/
structure TimedTable {α κ τ : Type*} [LinearOrder τ] (key : α → κ) (time : α → τ) where
  entries : List α
  sorted : entries.Pairwise fun a b => time a ≤ time b
  distinct : (entries.map key).Nodup

namespace TimedTable

open List

variable {α κ τ : Type*} [LinearOrder τ] {key : α → κ} {time : α → τ} {a : α} {limit : ℕ}
  {t : TimedTable key time} {k : κ}

/-- The keys in the order of the times. -/
def keys (t : TimedTable key time) : List κ := t.entries.map key

def empty : TimedTable key time := ⟨[], .nil, .nil⟩

def part (t : TimedTable key time) (entries : List α) (h : entries.Sublist t.entries) :
    TimedTable key time :=
  ⟨entries, t.sorted.sublist h, t.distinct.sublist (h.map key)⟩

/-- Drops the oldest entries above a limit. -/
def trim (t : TimedTable key time) (limit : ℕ) : TimedTable key time :=
  t.part (t.entries.drop (t.entries.length - limit)) (drop_sublist _ _)

theorem trim_length_le (t : TimedTable key time) (limit : ℕ) :
    (t.trim limit).entries.length ≤ limit := by
  simp only [trim, part, length_drop]
  omega

theorem mem_of_trim (h : a ∈ (t.trim limit).entries) : a ∈ t.entries :=
  (drop_sublist _ _).subset h

theorem mem_keys_of_trim (h : k ∈ (t.trim limit).keys) : k ∈ t.keys :=
  ((drop_sublist _ _).map key).subset h

/-- What is dropped is not newer than what is kept. -/
theorem time_le_of_trim {b : α} (ha : a ∈ t.entries) (hgone : a ∉ (t.trim limit).entries)
    (hb : b ∈ (t.trim limit).entries) : time a ≤ time b := by
  have hsplit := take_append_drop (t.entries.length - limit) t.entries
  have hsorted := t.sorted
  rw [← hsplit, pairwise_append] at hsorted
  rw [← hsplit, mem_append] at ha
  exact hsorted.2.2 a (ha.resolve_right hgone) b hb

/-- Changes entries without their keys and times. -/
def modify (t : TimedTable key time) (f : α → α) (hkey : ∀ a, key (f a) = key a)
    (htime : ∀ a, time (f a) = time a) : TimedTable key time where
  entries := t.entries.map f
  sorted := pairwise_map.2 (by simpa only [htime] using t.sorted)
  distinct := by simpa only [map_map, Function.comp_def, hkey] using t.distinct

theorem keys_modify (t : TimedTable key time) (f : α → α) (hkey : ∀ a, key (f a) = key a)
    (htime : ∀ a, time (f a) = time a) : (t.modify f hkey htime).keys = t.keys := by
  simp only [keys, modify, map_map, Function.comp_def, hkey]

/-- Inserts after the entries that are not newer. -/
def place (time : α → τ) (a : α) : List α → List α
  | [] => [a]
  | b :: l => if time a < time b then a :: b :: l else b :: place time a l

theorem place_perm (a : α) (l : List α) : (place time a l).Perm (a :: l) := by
  induction l with
  | nil => exact .refl _
  | cons b l ih =>
    unfold place
    split_ifs
    · exact .refl _
    · exact (ih.cons b).trans (.swap a b l)

theorem sorted_place (a : α) {l : List α} (h : l.Pairwise fun a b => time a ≤ time b) :
    (place time a l).Pairwise fun a b => time a ≤ time b := by
  induction h with
  | nil => exact pairwise_singleton _ _
  | @cons b l hb hl ih =>
    unfold place
    split_ifs with hlt
    · refine .cons (fun c hc => ?_) (.cons hb hl)
      rcases mem_cons.1 hc with rfl | hc
      · exact hlt.le
      · exact hlt.le.trans (hb c hc)
    · refine .cons (fun c hc => ?_) ih
      rcases mem_cons.1 ((place_perm a l).mem_iff.1 hc) with rfl | hc
      · exact not_lt.1 hlt
      · exact hb c hc

variable [DecidableEq κ]

def erase (t : TimedTable key time) (k : κ) : TimedTable key time :=
  t.part (t.entries.filter fun a => key a ≠ k) filter_sublist

theorem mem_keys_erase {k' : κ} : k' ∈ (t.erase k).keys ↔ k' ∈ t.keys ∧ k' ≠ k := by
  simp only [keys, erase, part, mem_map, mem_filter, decide_eq_true_eq]
  constructor
  · rintro ⟨a, ⟨ha, hne⟩, rfl⟩
    exact ⟨⟨a, ha, rfl⟩, hne⟩
  · rintro ⟨⟨a, ha, rfl⟩, hne⟩
    exact ⟨a, ⟨ha, hne⟩, rfl⟩

theorem erase_length_le (t : TimedTable key time) (k : κ) :
    (t.erase k).entries.length ≤ t.entries.length :=
  length_filter_le _ _

/-- A key that is there already is not inserted again. -/
def insert (t : TimedTable key time) (a : α) : TimedTable key time :=
  if h : key a ∈ t.keys then t
  else {
    entries := place time a t.entries
    sorted := sorted_place a t.sorted
    distinct := by
      refine (((place_perm a t.entries).map key).nodup_iff).2 ?_
      exact nodup_cons.2 ⟨h, t.distinct⟩ }

theorem mem_insert {b : α} (h : key a ∉ t.keys) :
    b ∈ (t.insert a).entries ↔ b = a ∨ b ∈ t.entries := by
  rw [insert, dif_neg h, (place_perm a t.entries).mem_iff, mem_cons]

/-- The keys after an insertion. -/
theorem mem_keys_insert : k ∈ (t.insert a).keys ↔ k = key a ∨ k ∈ t.keys := by
  unfold insert
  split_ifs with h
  · refine ⟨.inr, ?_⟩
    rintro (rfl | hk)
    · exact h
    · exact hk
  · rw [keys, ((place_perm a t.entries).map key).mem_iff, map_cons, mem_cons]
    rfl

end TimedTable
