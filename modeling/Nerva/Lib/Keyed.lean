import Mathlib.Data.List.Nodup
import Mathlib.Data.List.Perm.Basic

/-!
# Lists with distinct keys

A list whose elements have pairwise different keys is a finite map: looking a key up finds the only
element that has it, whatever the order.
-/

namespace Keyed

open List

variable {α κ : Type*} [DecidableEq κ] {key : α → κ} {l l₁ l₂ : List α} {k : κ} {a : α}

/-- The first element with a key. -/
def lookup (key : α → κ) (k : κ) (l : List α) : Option α := l.find? fun a => decide (key a = k)

variable (h : (l.map key).Nodup)

include h

/-- In a list of distinct keys, the element found is the one with the key. -/
theorem lookup_eq_some_iff : lookup key k l = some a ↔ a ∈ l ∧ key a = k := by
  induction l with
  | nil => simp [lookup]
  | cons b l ih =>
    rw [map_cons, nodup_cons] at h
    unfold lookup at ih ⊢
    rw [find?_cons]
    by_cases hb : key b = k
    · rw [decide_eq_true hb]
      constructor
      · rintro ⟨⟩
        exact ⟨mem_cons_self, hb⟩
      · rintro ⟨hmem, ha⟩
        rcases mem_cons.mp hmem with rfl | hmem
        · rfl
        · exact absurd (mem_map.mpr ⟨a, hmem, ha.trans hb.symm⟩) h.1
    · rw [decide_eq_false hb]
      simp only [ih h.2, mem_cons]
      constructor
      · exact fun ⟨hmem, ha⟩ => ⟨.inr hmem, ha⟩
      · rintro ⟨rfl | hmem, ha⟩
        · exact absurd ha hb
        · exact ⟨hmem, ha⟩

theorem lookup_filter (p : α → Bool) : lookup key k (l.filter p) = (lookup key k l).filter p := by
  have hfilter : ((l.filter p).map key).Nodup := h.sublist (filter_sublist.map _)
  refine Option.ext fun a => ?_
  rw [lookup_eq_some_iff hfilter, Option.filter_eq_some_iff, lookup_eq_some_iff h, mem_filter]
  exact ⟨fun ⟨⟨hm, hp⟩, hk⟩ => ⟨⟨hm, hk⟩, hp⟩, fun ⟨⟨hm, hk⟩, hp⟩ => ⟨⟨hm, hp⟩, hk⟩⟩

/-- Up to order, a list is one of its elements and those with other keys. -/
theorem perm_cons_filter (ha : a ∈ l) : l.Perm (a :: l.filter fun b => decide (key b ≠ key a)) := by
  have hleft : ∀ b, b ∈ l.filter (fun b => decide (key b ≠ key a)) ↔ b ∈ l ∧ key b ≠ key a := by
    intro b
    rw [mem_filter, decide_eq_true_iff]
  refine (perm_ext_iff_of_nodup h.of_map ?_).mpr fun b => ?_
  · exact nodup_cons.mpr ⟨fun hin => ((hleft a).mp hin).2 rfl, h.of_map.filter _⟩
  · rw [mem_cons]
    refine ⟨fun hb => ?_, ?_⟩
    · by_cases hk : key b = key a
      · exact .inl (inj_on_of_nodup_map h hb ha hk)
      · exact .inr ((hleft b).mpr ⟨hb, hk⟩)
    · rintro (rfl | hb)
      · exact ha
      · exact ((hleft b).mp hb).1

theorem eraseP_eq_filter (k : κ) :
    l.eraseP (fun b => decide (key b = k)) = l.filter fun b => decide (key b ≠ k) := by
  induction l with
  | nil => rfl
  | cons b l ih =>
    rw [map_cons, nodup_cons] at h
    by_cases hb : key b = k
    · -- no other element has the key
      have hrest : l.filter (fun c => decide (key c ≠ k)) = l := by
        refine filter_eq_self.mpr fun c hc => decide_eq_true fun hk => h.1 ?_
        exact mem_map.mpr ⟨c, hc, hk.trans hb.symm⟩
      rw [eraseP_cons, filter_cons, hrest]
      simp [hb]
    · rw [eraseP_cons, filter_cons, ih h.2]
      simp [hb]

theorem erase_eq_filter [DecidableEq α] (ha : a ∈ l) :
    l.erase a = l.filter fun b => decide (key b ≠ key a) := by
  rw [h.of_map.erase_eq_filter]
  refine filter_congr fun b hb => ?_
  have hinj : key b = key a ↔ b = a := ⟨inj_on_of_nodup_map h hb ha, congrArg key⟩
  rw [Bool.eq_iff_iff, bne_iff_ne, decide_eq_true_iff]
  exact not_congr hinj.symm

end Keyed
