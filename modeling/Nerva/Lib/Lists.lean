import Mathlib.Algebra.Ring.Nat
import Mathlib.Data.List.Forall2
import Mathlib.Data.List.TakeWhile

/-!
# Lists walked in step, and association lists

What a relation between corresponding elements of two lists says about one element, and about the
last ones; which keys an association list knows; a sum where one element has changed.
-/

namespace Lists

open List

variable {α β : Type*} {R : α → β → Prop}

/-- Each element of the first list has its partner in the second. -/
theorem forall₂_exists_of_mem {a : α} : ∀ {as : List α} {bs : List β},
    List.Forall₂ R as bs → a ∈ as → ∃ b ∈ bs, R a b
  | _, _, .cons h t, ha => by
    rcases mem_cons.mp ha with rfl | ha
    · exact ⟨_, mem_cons_self, h⟩
    · obtain ⟨b, hb, hR⟩ := forall₂_exists_of_mem t ha
      exact ⟨b, mem_cons_of_mem _ hb, hR⟩

theorem forall₂_getElem? : ∀ {as : List α} {bs : List β} {i : ℕ} {a : α},
    List.Forall₂ R as bs → as[i]? = some a → ∃ b, bs[i]? = some b ∧ R a b
  | _, _, 0, _, .cons h _, ha => ⟨_, rfl, Option.some.inj ha ▸ h⟩
  | _ :: _, _ :: _, _ + 1, _, .cons _ t, ha => by
    rw [getElem?_cons_succ] at ha ⊢
    exact forall₂_getElem? t ha

theorem forall₂_getLast? {a : α} : ∀ {as : List α} {bs : List β},
    List.Forall₂ R as bs → as.getLast? = some a → ∃ b, bs.getLast? = some b ∧ R a b
  | _, _, .nil, ha => by simp at ha
  | _, b :: _, .cons h .nil, ha => by
    cases ha
    exact ⟨b, rfl, h⟩
  | _, _, .cons _ (.cons h t), ha => by
    rw [getLast?_cons_cons] at ha ⊢
    exact forall₂_getLast? (.cons h t) ha

theorem exists_getElem?_pred {l : List α} {i : ℕ} {a : α} (h : l[i + 1]? = some a) :
    ∃ b, l[i]? = some b :=
  ⟨_, getElem?_eq_getElem (Nat.lt_of_succ_lt (List.getElem?_eq_some_iff.mp h).1)⟩

theorem of_getElem?_concat {l : List α} {a b : α} {i : ℕ} (h : (l ++ [a])[i]? = some b) :
    l[i]? = some b ∨ i = l.length ∧ a = b := by
  rcases Nat.lt_or_ge i l.length with hlt | hge
  · exact .inl (getElem?_append_left hlt ▸ h)
  · have hlen := (List.getElem?_eq_some_iff.1 h).1
    rw [length_append, length_singleton] at hlen
    obtain rfl : i = l.length := by omega
    rw [getElem?_concat_length] at h
    exact .inr ⟨rfl, Option.some.inj h⟩

theorem isSome_lookup_iff {κ : Type*} [BEq κ] [LawfulBEq κ] {l : List (κ × β)} {k : κ} :
    (l.lookup k).isSome = true ↔ k ∈ l.map Prod.fst := by
  rw [← not_iff_not, Option.not_isSome_iff_eq_none, lookup_eq_none_iff, mem_map]
  simp only [bne_iff_ne, not_exists, not_and]
  exact forall₂_congr fun x _ => ⟨fun h h' => h h'.symm, fun h h' => h h'.symm⟩

theorem forall₂_of_mapM_eq_some {f : α → Option β} : ∀ {as : List α} {bs : List β},
    as.mapM f = some bs → List.Forall₂ (fun a b => f a = some b) as bs
  | [], bs, h => by
    cases h
    exact .nil
  | a :: as, bs, h => by
    rw [mapM_cons] at h
    simp only [Option.bind_eq_bind, Option.bind_eq_some_iff, Option.pure_def,
      Option.some.injEq] at h
    obtain ⟨b, hb, bs', hbs', rfl⟩ := h
    exact .cons hb (forall₂_of_mapM_eq_some hbs')

/-- A sum after one element is modified. -/
theorem sum_map_modify (f : α → α) (g : α → ℕ) : ∀ (l : List α) (i : ℕ) (a : α), l[i]? = some a →
    ((l.modify i f).map g).sum + g a = (l.map g).sum + g (f a)
  | b :: l, 0, a, h => by
    cases h
    simp only [modify_zero_cons, map_cons, sum_cons]
    omega
  | b :: l, i + 1, a, h => by
    have ih := sum_map_modify f g l i a h
    simp only [modify_succ_cons, map_cons, sum_cons]
    omega

/-- The elements before the first that meets a condition. -/
theorem take_findIdx (p : α → Bool) : ∀ l : List α, l.take (l.findIdx p) = l.takeWhile (! p ·)
  | [] => by simp
  | a :: l => by
    rw [findIdx_cons, takeWhile_cons]
    cases ha : p a with
    | false => simp [take_findIdx p l]
    | true => simp

/-- Cutting a list off at the first element that satisfies `p` leaves those that do not satisfy it
just when none of these stands behind one that does. -/
theorem length_takeWhile_eq_iff (p : α → Bool) : ∀ l : List α,
    (l.takeWhile (! p ·)).length = (l.filter (! p ·)).length ↔
      l.Pairwise fun a b => p a → p b
  | [] => by simp
  | a :: l => by
    have ih := length_takeWhile_eq_iff p l
    cases ha : p a with
    | false => simp [ha, ih]
    | true =>
      simp only [takeWhile_cons, filter_cons, ha, Bool.not_true, Bool.false_eq_true,
        if_false, length_nil, pairwise_cons]
      rw [eq_comm, length_eq_zero_iff, filter_eq_nil_iff]
      refine ⟨fun hall => ⟨fun b hb => by simpa using hall b hb, ?_⟩,
        fun h b hb => by simp [h.1 b hb]⟩
      exact pairwise_of_forall_mem_list fun b _ c hc _ => by simpa using hall c hc

/-- If the elements that meet a condition stand at the end, those before it are the others. -/
theorem takeWhile_eq_filter {p : α → Bool} {l : List α} (h : l.Pairwise fun a b => p a → p b) :
    l.takeWhile (! p ·) = l.filter (! p ·) := by
  have hlen := (length_takeWhile_eq_iff p l).mpr h
  have hsub : (l.takeWhile (! p ·)).Sublist (l.filter (! p ·)) := by
    have hall : (l.takeWhile (! p ·)).filter (! p ·) = l.takeWhile (! p ·) :=
      filter_eq_self.mpr fun a ha => mem_takeWhile_imp (p := (! p ·)) ha
    rw [← hall]
    exact (takeWhile_sublist _).filter _
  exact hsub.eq_of_length hlen

end Lists
