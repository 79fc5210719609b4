import Mathlib.Data.List.Infix

/-!
# Codecs

A codec reads a value off the front of a string and writes one. It has two readers: the lenient one
may take a value that the end of its input cuts off, the strict one refuses it. For a lawful codec
what the strict reader accepts is what the writer writes, and where the readers differ the lenient
one has come to the end of the input. A codec is closed if its readers agree.
-/

/-- The two readers, which return what is left of the input, and the writer. -/
structure Codec (B α : Type*) where
  read : (lenient : Bool) → List B → Option (α × List B)
  write : α → Option (List B)

namespace Codec

open Option

variable {B α β : Type*}

/-- Nothing is read or written. -/
def skip (a : α) : Codec B α where
  read _ s := some (a, s)
  write _ := some []

/-- Nothing can be read or written. -/
def fail : Codec B α where
  read _ _ := none
  write _ := none

/-- The codec of other values: `f` takes what is read to them, `g` back. -/
def emap (c : Codec B α) (f : α → Option β) (g : β → Option α) : Codec B β where
  read lenient s := (c.read lenient s).bind fun p => (f p.1).map (·, p.2)
  write b := (g b).bind c.write

def map (c : Codec B α) (f : α → β) (g : β → α) : Codec B β :=
  c.emap (fun a => some (f a)) (fun b => some (g b))

/-- Values that do not pass are refused by the reader and by the writer. -/
def check (c : Codec B α) (p : α → Bool) : Codec B α :=
  c.emap (Option.guard p) (Option.guard p)

/-- The reader refuses a value for which the input that is left is too short. -/
def room (c : Codec B α) (p : α → ℕ → Bool) : Codec B α where
  read lenient s := (c.read lenient s).filter fun x => p x.1 x.2.length
  write := c.write

/-- One value after the other, the second in a format that may depend on the first. -/
def seq (c : Codec B α) (d : α → Codec B β) : Codec B (α × β) where
  read lenient s := (c.read lenient s).bind fun p =>
    ((d p.1).read lenient p.2).map fun q => ((p.1, q.1), q.2)
  write x := (c.write x.1).bind fun w => ((d x.1).write x.2).map (w ++ ·)

/-- As many values as the length says. -/
def array (c : Codec B α) : ℕ → Codec B (List α)
  | 0 => (skip ()).emap (fun _ => some []) fun
    | [] => some ()
    | _ :: _ => none
  | n + 1 => (c.seq fun _ => array c n).emap (fun x => some (x.1 :: x.2)) fun
    | [] => none
    | a :: l => some (a, l)

/-- The whole input is read. -/
def parse (c : Codec B α) (lenient : Bool) (s : List B) : Option α :=
  match c.read lenient s with
  | some (a, []) => some a
  | _ => none

/-- The value can be the result of a reading. -/
def Reads (c : Codec B α) (a : α) : Prop := ∃ lenient s rest, c.read lenient s = some (a, rest)

/-- What is read strictly is what would be written. What only the lenient reader takes ends the
input, and is not what would be written. -/
structure Lawful (c : Codec B α) : Prop where
  strict : ∀ {s a rest}, c.read false s = some (a, rest) → ∃ w, c.write a = some w ∧ s = w ++ rest
  lenient : ∀ {s a rest}, c.read true s = some (a, rest) → c.read false s = some (a, rest) ∨
    rest = [] ∧ c.read false s = none ∧ ∀ w, c.write a = some w → ¬w <+: s

/-- The lenient reader takes nothing that the strict one refuses. -/
def Closed (c : Codec B α) : Prop := ∀ s x, c.read true s = some x → c.read false s = some x

/-- Nothing is read from an empty input, not even leniently. -/
def Hungry (c : Codec B α) : Prop := c.read true [] = none

variable {c : Codec B α} {d : α → Codec B β} {s rest : List B} {lenient : Bool} {b : β} {x : α × β}
  {a : α} {f : α → β} {g : β → α} {c' : Codec B α}

theorem read_emap_iff {f : α → Option β} {g : β → Option α} :
    (c.emap f g).read lenient s = some (b, rest) ↔
      ∃ a, c.read lenient s = some (a, rest) ∧ f a = some b := by
  simp only [emap, bind_eq_some_iff, map_eq_some_iff, Prod.mk.injEq, Prod.exists]
  constructor
  · rintro ⟨a, r, hread, b', hf, rfl, rfl⟩
    exact ⟨a, hread, hf⟩
  · rintro ⟨a, hread, hf⟩
    exact ⟨a, rest, hread, b, hf, rfl, rfl⟩

theorem read_seq_iff :
    (c.seq d).read lenient s = some (x, rest) ↔
      ∃ s', c.read lenient s = some (x.1, s') ∧ (d x.1).read lenient s' = some (x.2, rest) := by
  simp only [seq, bind_eq_some_iff, map_eq_some_iff, Prod.mk.injEq, Prod.exists]
  constructor
  · rintro ⟨a, s', hc, b, r, hd, rfl, rfl⟩
    exact ⟨s', hc, hd⟩
  · rintro ⟨s', hc, hd⟩
    exact ⟨x.1, s', hc, x.2, rest, hd, rfl, rfl⟩

theorem write_seq_iff {w : List B} :
    (c.seq d).write x = some w ↔
      ∃ w₁ w₂, c.write x.1 = some w₁ ∧ (d x.1).write x.2 = some w₂ ∧ w = w₁ ++ w₂ := by
  simp only [seq, bind_eq_some_iff, map_eq_some_iff]
  constructor
  · rintro ⟨w₁, hw₁, w₂, hw₂, rfl⟩
    exact ⟨w₁, w₂, hw₁, hw₂, rfl⟩
  · rintro ⟨w₁, w₂, hw₁, hw₂, rfl⟩
    exact ⟨w₁, hw₁, w₂, hw₂, rfl⟩

theorem read_room_iff {p : α → ℕ → Bool} :
    (c.room p).read lenient s = some (a, rest) ↔
      c.read lenient s = some (a, rest) ∧ p a rest.length := by
  simp [room]

theorem read_map_iff :
    (c.map f g).read lenient s = some (b, rest) ↔
      ∃ a, c.read lenient s = some (a, rest) ∧ f a = b := by
  rw [map, read_emap_iff]
  simp only [some.injEq]

theorem Reads.of_emap {f : α → Option β} {g : β → Option α} (h : (c.emap f g).Reads b) :
    ∃ a, c.Reads a ∧ f a = some b := by
  obtain ⟨lenient, s, rest, hread⟩ := h
  obtain ⟨a, hread, hf⟩ := read_emap_iff.mp hread
  exact ⟨a, ⟨lenient, s, rest, hread⟩, hf⟩

theorem Reads.of_seq (h : (c.seq d).Reads x) : c.Reads x.1 ∧ (d x.1).Reads x.2 := by
  obtain ⟨lenient, s, rest, hread⟩ := h
  obtain ⟨s', hfst, hsnd⟩ := read_seq_iff.mp hread
  exact ⟨⟨lenient, s, s', hfst⟩, ⟨lenient, s', rest, hsnd⟩⟩

theorem read_emap_eq_none {f : α → Option β} {g : β → Option α} (h : c.read lenient s = none) :
    (c.emap f g).read lenient s = none := by
  simp [emap, h]

theorem Lawful.rest_of_nil (hc : c.Lawful) (h : c.read true [] = some (a, rest)) : rest = [] := by
  rcases hc.lenient h with hread | ⟨hrest, -⟩
  · obtain ⟨w, -, happ⟩ := hc.strict hread
    exact (List.append_eq_nil_iff.mp happ.symm).2
  · exact hrest

theorem lawful_skip (a : α) : (skip a : Codec B α).Lawful where
  strict h := by
    simp only [skip, some.injEq, Prod.mk.injEq] at h
    exact ⟨[], rfl, h.2⟩
  lenient h := .inl h

theorem closed_skip (a : α) : (skip a : Codec B α).Closed := fun _ _ h => h

theorem lawful_fail : (fail : Codec B α).Lawful where
  strict h := by simp [fail] at h
  lenient h := by simp [fail] at h

theorem closed_fail : (fail : Codec B α).Closed := fun _ _ h => h

theorem Lawful.ite {c : Codec B α} (p : Prop) [Decidable p] (hc : c.Lawful) (hc' : c'.Lawful) :
    (if p then c else c').Lawful := by
  split_ifs
  · exact hc
  · exact hc'

theorem Closed.ite {c : Codec B α} (p : Prop) [Decidable p] (hc : c.Closed) (hc' : c'.Closed) :
    (if p then c else c').Closed := by
  split_ifs
  · exact hc
  · exact hc'

theorem Hungry.ite {c : Codec B α} (p : Prop) [Decidable p] (hc : c.Hungry) (hc' : c'.Hungry) :
    (if p then c else c').Hungry := by
  split_ifs
  · exact hc
  · exact hc'

section Emap

variable {f : α → Option β} {g : β → Option α}

theorem Lawful.emap (hc : c.Lawful) (hg : ∀ {a b}, c.Reads a → f a = some b → g b = some a) :
    (c.emap f g).Lawful where
  strict h := by
    obtain ⟨a, hread, hf⟩ := read_emap_iff.mp h
    obtain ⟨w, hw, happ⟩ := hc.strict hread
    exact ⟨w, by simp [Codec.emap, hg ⟨_, _, _, hread⟩ hf, hw], happ⟩
  lenient h := by
    obtain ⟨a, hread, hf⟩ := read_emap_iff.mp h
    have hback := hg ⟨_, _, _, hread⟩ hf
    rcases hc.lenient hread with hstrict | ⟨hrest, hnone, hcut⟩
    · exact .inl (read_emap_iff.mpr ⟨a, hstrict, hf⟩)
    · refine .inr ⟨hrest, read_emap_eq_none hnone, fun w hw => hcut w ?_⟩
      simpa [Codec.emap, hback] using hw

theorem Closed.emap (hc : c.Closed) : (c.emap f g).Closed := by
  rintro s ⟨b, rest⟩ h
  obtain ⟨a, hread, hf⟩ := read_emap_iff.mp h
  exact read_emap_iff.mpr ⟨a, hc _ _ hread, hf⟩

theorem Hungry.emap (hc : c.Hungry) : (c.emap f g).Hungry := read_emap_eq_none hc

end Emap

theorem Lawful.map (hc : c.Lawful) (hg : ∀ a, c.Reads a → g (f a) = a) : (c.map f g).Lawful := by
  refine hc.emap fun {a b} ha hf => ?_
  obtain rfl : f a = b := by simpa using hf
  rw [hg a ha]

theorem Closed.map (hc : c.Closed) : (c.map f g).Closed := hc.emap

theorem Hungry.map (hc : c.Hungry) : (c.map f g).Hungry := hc.emap

theorem Lawful.check (hc : c.Lawful) (p : α → Bool) : (c.check p).Lawful := by
  refine hc.emap fun {a b} _ hf => ?_
  obtain ⟨rfl, hp⟩ := guard_eq_some_iff.mp hf
  exact guard_eq_some_iff.mpr ⟨rfl, hp⟩

theorem Lawful.room (hc : c.Lawful) (p : α → ℕ → Bool) : (c.room p).Lawful where
  strict h := hc.strict (read_room_iff.mp h).1
  lenient h := by
    obtain ⟨hread, hp⟩ := read_room_iff.mp h
    rcases hc.lenient hread with hstrict | ⟨hrest, hnone, hcut⟩
    · exact .inl (read_room_iff.mpr ⟨hstrict, hp⟩)
    · exact .inr ⟨hrest, by simp [Codec.room, hnone], hcut⟩

/-- The second codec may depend on the value of the first. -/
theorem Lawful.seq (hc : c.Lawful) (hd : ∀ a, (d a).Lawful) : (c.seq d).Lawful where
  strict {s x rest} h := by
    obtain ⟨s', hfst, hsnd⟩ := read_seq_iff.mp h
    obtain ⟨w, hw, happ⟩ := hc.strict hfst
    obtain ⟨w', hw', happ'⟩ := (hd x.1).strict hsnd
    exact ⟨w ++ w', by simp [Codec.seq, hw, hw'], by simp [happ, happ']⟩
  lenient {s x rest} h := by
    obtain ⟨s', hfst, hsnd⟩ := read_seq_iff.mp h
    rcases hc.lenient hfst with hstrict | ⟨rfl, hnone, hcut⟩
    · rcases (hd x.1).lenient hsnd with hstrict' | ⟨hrest, hnone', hcut'⟩
      · exact .inl (read_seq_iff.mpr ⟨s', hstrict, hstrict'⟩)
      · refine .inr ⟨hrest, by simp [Codec.seq, hstrict, hnone'], fun w hw hpre => ?_⟩
        obtain ⟨w₁, w₂, hw₁, hw₂, rfl⟩ := write_seq_iff.mp hw
        obtain ⟨w₁', hw₁', rfl⟩ := hc.strict hstrict
        obtain rfl : w₁ = w₁' := some.inj (hw₁.symm.trans hw₁')
        exact hcut' w₂ hw₂ ((List.prefix_append_right_inj w₁).mp hpre)
    · -- the first value is cut off already, and the second is read off nothing
      refine .inr ⟨(hd x.1).rest_of_nil hsnd, by simp [Codec.seq, hnone], fun w hw hpre => ?_⟩
      obtain ⟨w₁, w₂, hw₁, -, rfl⟩ := write_seq_iff.mp hw
      exact hcut w₁ hw₁ ((List.prefix_append w₁ w₂).trans hpre)

theorem Closed.seq (hc : c.Closed) (hd : ∀ a, (d a).Closed) : (c.seq d).Closed := by
  rintro s ⟨x, rest⟩ h
  obtain ⟨s', hfst, hsnd⟩ := read_seq_iff.mp h
  exact read_seq_iff.mpr ⟨s', hc _ _ hfst, hd _ _ _ hsnd⟩

/-- A codec whose last part is closed and needs input is closed. -/
theorem Lawful.closed_seq (hc : c.Lawful) (hd : ∀ a, (d a).Closed) (hungry : ∀ a, (d a).Hungry) :
    (c.seq d).Closed := by
  rintro s ⟨x, rest⟩ h
  obtain ⟨s', hfst, hsnd⟩ := read_seq_iff.mp h
  rcases hc.lenient hfst with hstrict | ⟨rfl, -⟩
  · exact read_seq_iff.mpr ⟨s', hstrict, hd _ _ _ hsnd⟩
  · rw [hungry] at hsnd
    cases hsnd

theorem Hungry.seq (hc : c.Hungry) (d : α → Codec B β) : (c.seq d).Hungry := by
  unfold Hungry at hc
  simp [Hungry, Codec.seq, hc]

theorem Lawful.hungry_seq (hc : c.Lawful) (hungry : ∀ a, (d a).Hungry) : (c.seq d).Hungry := by
  rw [Hungry, eq_none_iff_forall_ne_some]
  rintro ⟨x, rest⟩ h
  obtain ⟨s', hfst, hsnd⟩ := read_seq_iff.mp h
  obtain rfl := hc.rest_of_nil hfst
  rw [hungry] at hsnd
  cases hsnd

/-- An array of lawful values is lawful. -/
theorem Lawful.array (hc : c.Lawful) : ∀ n, (c.array n).Lawful
  | 0 => (lawful_skip ()).emap fun _ hf => by simp_all
  | n + 1 => (hc.seq fun _ => hc.array n).emap fun _ hf => by
    simp only [some.injEq] at hf
    simp [← hf]

theorem Closed.array (hc : c.Closed) : ∀ n, (c.array n).Closed
  | 0 => (closed_skip ()).emap
  | n + 1 => (hc.seq fun _ => hc.array n).emap

theorem Hungry.array (hc : c.Hungry) {n : ℕ} (hn : n ≠ 0) : (c.array n).Hungry := by
  obtain ⟨n, rfl⟩ := Nat.exists_eq_succ_of_ne_zero hn
  exact (hc.seq _).emap

/-- An array that is read has the length it was read with. -/
theorem length_of_reads_array : ∀ {n : ℕ} {l : List α}, (c.array n).Reads l → l.length = n
  | 0, l, h => by
    obtain ⟨-, -, hl⟩ := h.of_emap
    simp_all
  | n + 1, l, h => by
    obtain ⟨x, hread, hl⟩ := h.of_emap
    have hlen := length_of_reads_array hread.of_seq.2
    simp only [some.injEq] at hl
    simp [← hl, hlen]

theorem write_array_map {f : α → α} (hf : ∀ a, c.write (f a) = c.write a) :
    ∀ (n : ℕ) (l : List α), (c.array n).write (l.map f) = (c.array n).write l
  | 0, [] => rfl
  | 0, _ :: _ => rfl
  | _ + 1, [] => rfl
  | n + 1, a :: l => by
    simp only [array, emap, seq, List.map_cons, bind_some, hf, write_array_map hf n l]

theorem parse_eq_some_iff : c.parse lenient s = some a ↔ c.read lenient s = some (a, []) := by
  unfold parse
  split
  · next hread => simp [hread]
  · next hread =>
    constructor
    · intro h
      cases h
    · intro h
      exact absurd h (hread a)

/-- A value that the lenient reader accepts is written as it was read just when the strict reader
accepts the input too. -/
theorem Lawful.write_eq_iff (hc : c.Lawful) (h : c.parse true s = some a) :
    c.write a = some s ↔ (c.parse false s).isSome := by
  rcases hc.lenient (parse_eq_some_iff.mp h) with hstrict | ⟨-, hnone, hcut⟩
  · obtain ⟨w, hw, happ⟩ := hc.strict hstrict
    obtain rfl : s = w := by simpa using happ
    simp [parse_eq_some_iff.mpr hstrict, hw]
  · have hparse : c.parse false s = none := by simp [parse, hnone]
    simp only [hparse, isSome_none, Bool.false_eq_true, iff_false]
    exact fun hw => hcut s hw List.prefix_rfl

end Codec
