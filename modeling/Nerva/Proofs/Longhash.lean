import Nerva.Longhash
import Nerva.Proofs.Draws
import Mathlib.Data.List.GetD

/-!
# The blocks the proof of work reads

From version 7 on a hash reads blocks at a depth of at least one or 256 below its own, which is the
distance from a split up to which an alternative block is hashed at all. Below the height of 32 bits
no subtraction underflows.
-/

namespace Nerva

open Traced Loop MersenneTwister Sat HeightEvent UInt64 UInt32

/-- A read up to `limit`, or a subtraction that does not underflow if `c` holds. -/
def HeightEvent.Ok (c : Prop) (limit : ℕ) : HeightEvent → Prop
  | .read i => i ≤ limit
  | .sub a b => c → b ≤ a

abbrev InHeight (height : UInt64) (limit : ℕ) : HeightEvent → Prop :=
  Ok (height.toNat < 2 ^ 32) limit

section Fill

variable {P : HeightEvent → Prop} {a : FillArgs} {i : UInt64}

theorem cnaV6Field_sat (h : P (.read i.toNat)) (j count : ℕ) :
    (cnaV6Field a i j count).Emits P := by
  refine (emit h).bind fun _ _ => ?_
  split <;> exact pure trivial

theorem readHash_sat (h : P (.read i.toNat)) : (readHash a i).Emits P :=
  (emit h).ret

theorem fillReseed_sat (f : Filling) : (fillReseed f).Emits P :=
  (lift fun _ _ => trivial).bind fun _ _ =>
    (lift fun _ _ => trivial).ret

theorem reseedTurn_sat (f : Filling) : (reseedTurn a f).Emits P := by
  unfold reseedTurn
  split
  · exact fillReseed_sat f
  · exact pure trivial

theorem fillMidpoint_sat (f : Filling) : (fillMidpoint f).Emits P := by
  refine (times (fun x => ?_) 4 _).ret
  exact (lift fun _ _ => trivial).ret

variable {pick : Rng → PowM (UInt64 × Rng)}
  (hpick : ∀ rng, (pick rng).Sat P fun d => P (.read d.1.toNat))

include hpick

theorem fillBody_sat (f : Filling) : (fillBody a pick f).Emits P := by
  refine (hpick f.1).bind fun d hd => (readHash_sat hd).bind fun _ _ =>
    (foldlM (fun x j _ => ?_) _).ret
  exact (hpick x.2).bind fun d hd => (cnaV6Field_sat hd j _).ret

theorem fillTurn_sat (f : Filling) : (fillTurn a pick f).Emits P :=
  (times (fillBody_sat hpick) 16 _).bind fun f _ => reseedTurn_sat f

theorem chainFill_sat (f : Filling) : (chainFill a pick f).Emits P :=
  (whileDo (fillTurn_sat hpick) 2048 _).bind fun f _ =>
    (fillMidpoint_sat f).bind fun _ _ => whileDo (fillTurn_sat hpick) 4096 _

omit hpick

theorem runAheadWrite_sat {d : List UInt64 × Vector UInt32 16} (h0 : P (.read 0))
    (hd : ∀ i ∈ d.1, P (.read i.toNat)) (pad : FillPad) :
    (runAheadWrite a pad d).Emits P := by
  have hread : ∀ j, P (.read (d.1.getD j 0).toNat) := by
    intro j
    rcases Nat.lt_or_ge j d.1.length with hj | hj
    · rw [List.getD_eq_getElem d.1 0 hj]
      exact hd _ (List.getElem_mem hj)
    · rw [List.getD_eq_default d.1 0 hj]
      exact h0
  refine (readHash_sat (hread 0)).bind fun _ _ => (foldlM (fun msg j _ => ?_) _).ret
  exact (cnaV6Field_sat (hread j) j _).ret

/-- The run-ahead fill reads the blocks it picks, and block 0. -/
theorem cnaV6DataRunAhead_sat (h0 : P (.read 0))
    (hpick : ∀ rng, (cnaV6Pick a rng).Sat P fun d => P (.read d.1.toNat)) (state : HC128State)
    (out : Array UInt8) : (cnaV6DataRunAhead a state out).Emits P := by
  have hdraw : ∀ rng : Rng, (runAheadDraw a rng).Sat P fun d => ∀ i ∈ d.1.1, P (.read i.toNat) :=
    fun rng => (Sat.consume hpick rng).bind fun d hd => pure hd
  have hturn : ∀ f : Filling, (runAheadTurn a f).Emits P := by
    intro f
    refine (Sat.consume hdraw _).bind fun d hd =>
      (foldlM (fun pad w hw => runAheadWrite_sat h0 (hd w hw) pad) _).bind fun pad _ =>
      (reseedTurn_sat _).bind fun f _ => ?_
    split
    · exact fillMidpoint_sat f
    · exact pure trivial
  exact (whileDo hturn 4096 _).ret

end Fill

section Data

variable {c : Prop} {limit : ℕ} {p : PowState} {height : UInt64} {i k : UInt64} {n : ℕ}
  {top : UInt32}

theorem emit_sub_sat {a b : ℕ} (h : c → b ≤ a) :
    (emit (HeightEvent.sub a b)).Emits (Ok c limit) :=
  emit (P := Ok c limit) h

theorem emit_read_sat {i : ℕ} (h : i ≤ limit) :
    (emit (HeightEvent.read i)).Emits (Ok c limit) :=
  emit (P := Ok c limit) h

theorem subHeight_sat {a b : UInt64} (h : c → b ≤ a) :
    (subHeight a b).Sat (Ok c limit) fun r => r = a - b :=
  (emit_sub_sat fun hc => le_iff_toNat_le.mp (h hc)).bind fun _ _ => pure rfl

theorem readInfo_sat (h : i.toNat ≤ limit) : (readInfo p i).Emits (Ok c limit) :=
  (emit_read_sat h).bind fun _ _ => lift fun _ _ => trivial

theorem readCache_sat (h : i.toNat ≤ limit) : (readCache p i).Emits (Ok c limit) :=
  (emit_read_sat h).ret

/-- The cache is filled with the blocks below its height. -/
theorem buildBlockCache_sat (h : height.toNat ≤ limit + 1) :
    (buildBlockCache p height).Emits (Ok c limit) := by
  refine (foldlM (fun _ i hi => emit_read_sat ?_) _).bind fun _ _ => ?_
  · obtain ⟨hge, hlt⟩ := List.mem_range'_1.mp hi
    omega
  · rcases p.cache.build p.blockInfo height.toNat with ⟨_ | _, cache⟩
    · exact lift fun _ _ => trivial
    · exact pure trivial

theorem getCnaV2Data_sat (hmin : 255 ≤ height.toNat) (hlimit : height.toNat ≤ limit)
    (scratchpadSize : UInt32) :
    (getCnaV2Data p height scratchpadSize).Emits (Ok c limit) := by
  have hnext : (height + 1).toNat ≤ limit + 1 := by
    exact (Nat.mod_le _ _).trans (Nat.succ_le_succ hlimit)
  -- The distance is a byte, and the height is at least a byte.
  have hback : ∀ (b : UInt8) (p : PowState), Emits (Ok c limit)
      (do let pos ← subHeight height b.toUInt64
          let row ← readCache p pos
          return hashBytes row.biHash : PowM Blob) := by
    intro b p
    have hb : b.toUInt64.toNat ≤ height.toNat := by
      have := b.toNat_lt
      rw [UInt8.toNat_toUInt64]
      omega
    refine (subHeight_sat fun _ => le_iff_toNat_le.mpr hb).bind fun pos hpos =>
      (readCache_sat ?_).ret
    rw [hpos, UInt64.toNat_sub_of_le _ _ (UInt64.le_iff_toNat_le.mpr hb)]
    omega
  exact (buildBlockCache_sat hnext).bind fun p _ => (readCache_sat hlimit).bind fun row _ =>
    (hback _ p).bind fun _ _ => (hback _ p).bind fun _ _ => (hback _ p).bind fun _ _ =>
      (hback _ p).ret

theorem drawNear_sat (h : c → 6 ≤ top.toNat ∧ top.toNat + 6 ≤ n ∧ n < 2 ^ 32)
    (g : MersenneTwister) :
    (drawNear top g).Sat (Ok c limit) fun d =>
      c → d.1.1.toNat ≤ n ∧ d.1.2.toNat ≤ n := by
  have h6 : (6 : UInt32).toNat = 6 := rfl
  have h5 : (5 : UInt32).toNat = 5 := rfl
  -- Both ends of the second range, once the first draw is in its own.
  have hends : ∀ r : UInt32, (c → 6 ≤ r ∧ r ≤ top) → c →
      5 ≤ r.toNat ∧ (r - 5).toNat = r.toNat - 5 ∧ (r + 5).toNat = r.toNat + 5 ∧
        r.toNat + 6 ≤ n ∧ r - 5 ≤ r + 5 := by
    intro r hr hc
    obtain ⟨hr6, hrtop⟩ := hr hc
    rw [UInt32.le_iff_toNat_le] at hr6 hrtop
    obtain ⟨_, htop, hn⟩ := h hc
    have hlo : (r - 5).toNat = r.toNat - 5 :=
      UInt32.toNat_sub_of_le _ _ (UInt32.le_iff_toNat_le.mpr (by omega))
    have hhi : (r + 5).toNat = r.toNat + 5 := by
      rw [UInt32.toNat_add]
      exact Nat.mod_eq_of_lt (by omega)
    refine ⟨by omega, hlo, hhi, by omega, ?_⟩
    rw [UInt32.le_iff_toNat_le]
    omega
  have hnext : ∀ (g : MersenneTwister) (r : UInt32), (c → 6 ≤ r ∧ r ≤ top) →
      (g.next (r - 5) (r + 5)).Sat (Ok c limit) fun d => c → d.1.toNat ≤ n := by
    intro g r hr
    refine (next_sat (fun hc => ?_) g).mono fun d hd hc => ?_
    · obtain ⟨_, _, _, _, hle⟩ := hends r hr hc
      exact UInt32.le_iff_toNat_le.mp hle
    · obtain ⟨_, _, hhi, hn, hle⟩ := hends r hr hc
      have := UInt32.le_iff_toNat_le.mp (hd hle).2
      omega
  refine (next_sat (fun hc => (h hc).1) g).bind fun d hd => ?_
  have hr : c → 6 ≤ d.1 ∧ d.1 ≤ top := fun hc => hd (UInt32.le_iff_toNat_le.mpr (h hc).1)
  have hsub : Ok c limit (.sub d.1.toNat 5) := fun hc => (hends d.1 hr hc).1
  exact (emit hsub).bind fun _ _ => (hnext d.2 d.1 hr).bind fun x hx =>
    (emit hsub).bind fun _ _ => (hnext x.2 d.1 hr).bind fun y hy =>
      pure fun hc => ⟨hx hc, hy hc⟩

def Quad.Within (c : Prop) (n : ℕ) (q : Quad UInt32) : Prop :=
  c → q.x.toNat ≤ n ∧ q.y.toNat ≤ n ∧ q.z.toNat ≤ n ∧ q.w.toNat ≤ n

/-- The four blocks drawn are within a bound, and no subtraction wraps. -/
theorem drawQuad_sat {topHeight : PowM UInt32}
    (htop : topHeight.Sat (Ok c limit) fun t => c → 6 ≤ t.toNat ∧ t.toNat + 6 ≤ n ∧ n < 2 ^ 32)
    (g : MersenneTwister) : (drawQuad topHeight g).Sat (Ok c limit) fun d => d.1.Within c n :=
  htop.bind fun _ ht => (drawNear_sat ht g).bind fun d hd => htop.bind fun _ ht' =>
    (drawNear_sat ht' d.2).bind fun _ he => pure fun hc =>
      ⟨(hd hc).1, (hd hc).2, (he hc).1, (he hc).2⟩

theorem readQuad_sat {read : UInt64 → PowM BlockRow}
    (hread : ∀ i : UInt32, (c → i.toNat ≤ n) → (read i.toUInt64).Emits (Ok c limit))
    {q : Quad UInt32} (hq : q.Within c n) : (readQuad read q).Emits (Ok c limit) :=
  (hread _ fun hc => (hq hc).1).bind fun _ _ => (hread _ fun hc => (hq hc).2.1).bind fun _ _ =>
    (hread _ fun hc => (hq hc).2.2.1).bind fun _ _ =>
      (hread _ fun hc => (hq hc).2.2.2).ret

/-! ## Salts

The bound of 32 bits is what makes the draws heights below the one they start from. Above it every
32-bit number is such a height, wherever the draws go. -/

theorem toUInt32_toNat (h : height.toNat < 2 ^ 32) : height.toUInt32.toNat = height.toNat := by
  exact Nat.mod_eq_of_lt h

theorem read_le {i : UInt32} (hlimit : height.toNat ≤ limit)
    (h : height.toNat < 2 ^ 32 → i.toNat ≤ height.toNat) : i.toUInt64.toNat ≤ limit := by
  have hi := i.toNat_lt
  rw [toNat_toUInt64]
  rcases Nat.lt_or_ge height.toNat (2 ^ 32) with hlt | hge
  · exact (h hlt).trans hlimit
  · omega

theorem next_one_sat (h : c → 1 ≤ top.toNat) (g : MersenneTwister) :
    (g.next 1 top).Sat (Ok c limit) fun d => c → d.1.toNat ≤ top.toNat :=
  (next_sat h g).mono fun _ hd hc =>
    le_iff_toNat_le.mp (hd (le_iff_toNat_le.mpr (h hc))).2

theorem sub_toUInt32 (hk : k ≤ height) (h : height.toNat < 2 ^ 32) :
    (height - k).toUInt32.toNat = height.toNat - k.toNat := by
  have hsub : (height - k).toNat = height.toNat - k.toNat := UInt64.toNat_sub_of_le _ _ hk
  rw [toNat_toUInt32, hsub]
  exact Nat.mod_eq_of_lt (by omega)

/-- The bound of a draw lies a fixed number of blocks below the height. -/
def BoundOf (height : UInt64) (limit k : ℕ) (top : PowM UInt32) : Prop :=
  top.Sat (InHeight height limit) fun t =>
    height.toNat < 2 ^ 32 → t.toNat + k = height.toNat

theorem subThenCut_bound (hk : k ≤ height) :
    BoundOf height limit k.toNat (subThenCut height k) := by
  refine (subHeight_sat fun _ => hk).bind fun t ht => pure fun hlt => ?_
  have hsub := sub_toUInt32 hk hlt
  have hle := le_iff_toNat_le.mp hk
  rw [ht]
  omega

theorem cutThenSub_bound {k : UInt32} (hk : k.toNat ≤ height.toNat) :
    BoundOf height limit k.toNat (cutThenSub height.toUInt32 k) := by
  have hcut : height.toNat < 2 ^ 32 → k.toNat ≤ height.toUInt32.toNat := fun hlt => by
    rw [toUInt32_toNat hlt]
    exact hk
  refine (emit_sub_sat hcut).bind fun _ _ => pure fun hlt => ?_
  have hle := hcut hlt
  rw [UInt32.toNat_sub_of_le _ _ (UInt32.le_iff_toNat_le.mpr hle), toUInt32_toNat hlt]
  omega

/-- A block of the window is picked. -/
theorem cnaV6Pick_sat {a : FillArgs} (hw : a.windowSize ≠ 0) (hshort : a.windowSize.toNat < 2 ^ 32)
    (hsum : a.windowBase.toNat + a.windowSize.toNat = a.height.toNat)
    (hlimit : a.height.toNat ≤ limit) (rng : Rng) :
    (cnaV6Pick a rng).Sat (InHeight a.height limit) fun d =>
      InHeight a.height limit (.read d.1.toNat) := by
  have hwpos : 1 ≤ a.windowSize.toNat := by
    rw [Nat.one_le_iff_ne_zero]
    exact fun h => hw (UInt64.toNat_inj.mp h)
  have hne : a.height ≠ 0 := by
    intro h
    rw [h] at hsum
    have : (0 : UInt64).toNat = 0 := rfl
    omega
  refine bind (Q := fun _ => True) (lift fun _ _ => trivial) ?_
  rintro ⟨selector, rng⟩ -
  simp only []
  split
  · refine (drawBelow_sat hne (fun hlt => ?_) rng).bind fun d hd => pure ?_
    · rw [toUInt32_toNat hlt]
      omega
    · change d.1.toUInt64.toNat ≤ limit
      rw [toNat_toUInt64]
      omega
  · refine (drawBelow_sat hw (fun _ => ?_) rng).bind fun d hd => pure ?_
    · rw [toUInt32_toNat hshort]
      exact hwpos
    · have hheight := a.height.toNat_lt
      change (a.windowBase + d.1.toUInt64).toNat ≤ limit
      rw [UInt64.toNat_add, toNat_toUInt64]
      omega

section Bounds

variable {top : PowM UInt32} (hmin : 255 ≤ height.toNat)

include hmin

theorem drawHash_sat (htop : BoundOf height limit 1 top) (g : MersenneTwister) :
    (drawHash top g).Sat (InHeight height limit) fun d =>
      height.toNat < 2 ^ 32 → d.1.toNat ≤ height.toNat := by
  refine htop.bind fun t ht => (next_one_sat (fun hlt => ?_) g).mono fun d hd hlt => ?_
  · have := ht hlt
    omega
  · have := ht hlt
    omega

theorem drawQuad_height_sat (htop : BoundOf height limit 6 top) (g : MersenneTwister) :
    (drawQuad top g).Sat (InHeight height limit) fun d =>
      d.1.Within (height.toNat < 2 ^ 32) height.toNat := by
  refine drawQuad_sat (htop.mono fun t ht hlt => ?_) g
  omega

variable (hlimit : height.toNat ≤ limit)

include hlimit

theorem cnaV3Row_sat (g : MersenneTwister) :
    (cnaV3Row p height g).Emits (InHeight height limit) := by
  have h1 : (1 : UInt64) ≤ height := le_iff_toNat_le.mpr (Nat.le_trans (by decide) hmin)
  have h6 : (6 : UInt64) ≤ height := le_iff_toNat_le.mpr (Nat.le_trans (by decide) hmin)
  have hread : ∀ i : UInt32, (height.toNat < 2 ^ 32 → i.toNat ≤ height.toNat) →
      (readInfo p i.toUInt64).Emits (InHeight height limit) :=
    fun i hi => readInfo_sat (read_le hlimit hi)
  have hquad : ∀ g : MersenneTwister, (cnaV3Quad p height g).Emits (InHeight height limit) :=
    fun g => (drawQuad_height_sat hmin (subThenCut_bound h6) g).bind fun d hd =>
      (readQuad_sat hread hd).ret
  exact (drawHash_sat hmin (subThenCut_bound h1) g).bind fun d hd => (hread _ hd).bind fun _ _ =>
    (Sat.consume (R := fun _ => True) hquad _).bind fun d _ =>
      (drawHash_sat hmin (subThenCut_bound h1) d.2).bind fun d hd => (hread _ hd).bind fun _ _ =>
        pure trivial

/-- The data of version 3 comes from blocks up to the height. -/
theorem getCnaV3Data_sat (seed : UInt32) :
    (getCnaV3Data p height seed).Emits (InHeight height limit) :=
  (Sat.consume (R := fun _ => True) (cnaV3Row_sat hmin hlimit) _).ret

omit hlimit

def V4Row.Within (height : UInt64) (r : V4Row) : Prop :=
  (height.toNat < 2 ^ 32 → r.first.toNat ≤ height.toNat) ∧
    (∀ q ∈ r.quads, q.Within (height.toNat < 2 ^ 32) height.toNat) ∧
    (height.toNat < 2 ^ 32 → r.last.toNat ≤ height.toNat)

theorem v4SequenceRow_sat (seed : UInt32) (g : MersenneTwister) :
    (v4SequenceRow seed height.toUInt32 g).Sat (InHeight height limit)
      fun d => d.1.Within height := by
  have h1 : (1 : UInt32).toNat ≤ height.toNat := Nat.le_trans (by decide) hmin
  have h6 : (6 : UInt32).toNat ≤ height.toNat := Nat.le_trans (by decide) hmin
  exact (drawHash_sat hmin (cutThenSub_bound h1) _).bind fun d hd =>
    (Sat.consume (drawQuad_height_sat hmin (cutThenSub_bound h6)) _).bind fun q hq =>
      (drawHash_sat hmin (cutThenSub_bound h1) q.2).bind fun e he => pure ⟨hd, hq, he⟩

omit hmin

include hlimit

theorem cnaV4Row_sat {r : V4Row} (hr : r.Within height) (salt : Blob) :
    (cnaV4Row p salt r).Emits (InHeight height limit) := by
  have hread : ∀ i : UInt32, (height.toNat < 2 ^ 32 → i.toNat ≤ height.toNat) →
      (readCache p i.toUInt64).Emits (InHeight height limit) :=
    fun i hi => readCache_sat (read_le hlimit hi)
  refine (hread _ hr.1).bind fun _ _ => (foldlM (fun quads q hq => ?_) _).bind fun _ _ =>
    (hread _ hr.2.2).ret
  exact (readQuad_sat hread (hr.2.1 q hq)).ret

include hmin

theorem getCnaV4Data_sat (seed : UInt32) :
    (getCnaV4Data p height seed).Emits (InHeight height limit) :=
  (buildBlockCache_sat (Nat.le_succ_of_le hlimit)).bind fun _ _ =>
    (Sat.consume (v4SequenceRow_sat hmin seed) _).bind fun _ hd =>
      (foldlM (fun salt r hr => cnaV4Row_sat hlimit (hd r hr) salt) _).ret

theorem getCnaV5Data_sat (state : HC128State) :
    (getCnaV5Data p state height).Emits (InHeight height limit) := by
  have hne : height ≠ 0 := by
    rintro rfl
    exact absurd hmin (by decide)
  have hpick : ∀ rng : Rng, (cnaV5Pick height rng).Sat
      (InHeight height limit) fun d =>
        InHeight height limit (.read d.1.toNat) := by
    intro rng
    refine (drawBelow_sat hne (fun hlt => ?_) rng).bind fun d hd => pure ?_
    · rw [toUInt32_toNat hlt]
      omega
    · change d.1.toUInt64.toNat ≤ limit
      rw [toNat_toUInt64]
      omega
  exact (buildBlockCache_sat (Nat.le_succ_of_le hlimit)).bind fun _ _ =>
    (chainFill_sat hpick _).ret

/-- The data of version 6 comes from blocks up to the height. -/
theorem getCnaV6Data_sat (state : HC128State) (odds : UInt32) (reseedBlocks : ℕ)
    (hashWords : UInt32) :
    (getCnaV6Data p state height odds reseedBlocks hashWords).Emits (InHeight height limit) := by
  have hne : height ≠ 0 := by
    rintro rfl
    exact absurd hmin (by decide)
  -- The window is not empty, not longer than the chain, and short.
  have hwindow : ∀ w, w = (if cnaV6WindowBlocksV13 < height then cnaV6WindowBlocksV13 else height) →
      w ≠ 0 ∧ w ≤ height ∧ w.toNat < 2 ^ 32 := by
    have hconst : cnaV6WindowBlocksV13.toNat = 100000 := rfl
    rintro w rfl
    split
    · exact ⟨by decide, UInt64.le_of_lt ‹_›, by omega⟩
    · rename_i hle
      have := UInt64.le_iff_toNat_le.mp (UInt64.not_lt.mp hle)
      exact ⟨hne, UInt64.le_refl _, by omega⟩
  unfold getCnaV6Data
  rw [if_neg hne]
  split
  · exact lift fun _ _ => trivial
  obtain ⟨hw, hwle, hshort⟩ := hwindow _ rfl
  refine (buildBlockCache_sat (Nat.le_succ_of_le hlimit)).bind fun _ _ =>
    (subHeight_sat fun _ => hwle).bind fun base hbase => bind
      (cnaV6DataRunAhead_sat (Nat.zero_le limit) (cnaV6Pick_sat hw hshort ?_ hlimit) _ _)
      fun _ _ => pure trivial
  have := UInt64.le_iff_toNat_le.mp hwle
  rw [hbase]
  simp only [UInt64.toNat_sub_of_le _ _ hwle]
  omega

end Bounds

end Data

/-- Reads stay a depth below the height, and subtractions do not wrap. -/
def HeightEvent.Below (c : Prop) (depth height : ℕ) : HeightEvent → Prop
  | .read i => i + depth ≤ height
  | .sub a b => c → b ≤ a

abbrev Stable (height : UInt64) : HeightEvent → Prop :=
  Below (height.toNat - 256 < 2 ^ 32) 256 height.toNat

section Versions

variable {sh : SlowHash} {p : PowState} {blob : Blob} {height : UInt64}
  {body : UInt64 → PowM (Hash × PowState)}

/-- A body that stays below its height stays a depth below the block's. -/
theorem depth_sat {c : Prop} {depth : UInt64} (hdepth : depth.toNat + 255 ≤ height.toNat)
    (hbody : ∀ ht : UInt64, ht.toNat = height.toNat - depth.toNat →
      (body ht).Emits (Ok c ht.toNat)) :
    (subHeight height depth >>= body).Emits (Below c depth.toNat height.toNat) := by
  have hle : depth ≤ height := le_iff_toNat_le.mpr (by omega)
  have hsub : (height - depth).toNat = height.toNat - depth.toNat := UInt64.toNat_sub_of_le _ _ hle
  have hall : (subHeight height depth >>= body).Emits (Ok c (height.toNat - depth.toNat)) := by
    refine (subHeight_sat fun _ => hle).bind fun ht hht => ?_
    have := hbody ht (by rw [hht, hsub])
    rw [hht, hsub] at this
    rw [hht]
    exact this
  refine hall.imp fun e he => ?_
  cases e with
  | read i =>
    change i + depth.toNat ≤ height.toNat
    have : i ≤ height.toNat - depth.toNat := he
    omega
  | sub a b => exact he

theorem getBlockLonghashV7_8_sat (c : Prop) (dataOffset : UInt64) :
    (getBlockLonghashV7_8 sh p blob height dataOffset).Emits
      (Below c dataOffset.toNat height.toNat) := by
  unfold getBlockLonghashV7_8
  split
  · exact lift fun _ _ => trivial
  · rename_i hguard
    rw [cnSeedBackreach] at hguard
    exact depth_sat (by omega) fun ht hht =>
      (getCnaV2Data_sat (by omega) le_rfl _).ret

/-- What is read from 256 blocks below is stable. -/
theorem stable_sat
    (hbody : ∀ ht : UInt64, 255 ≤ ht.toNat → (body ht).Emits (InHeight ht ht.toNat)) :
    (if height.toNat < cnSeedMinHeight then lift none else subHeight height 256 >>= body).Emits
      (Stable height) := by
  split
  · exact lift fun _ _ => trivial
  · rename_i hguard
    have h256 : (256 : UInt64).toNat = 256 := rfl
    have hdepth : (256 : UInt64).toNat + 255 ≤ height.toNat := Nat.le_of_not_lt hguard
    refine depth_sat hdepth fun ht hht => ?_
    rw [h256] at hht
    rw [← hht]
    exact hbody ht (by omega)

theorem getBlockLonghashV9_sat :
    (getBlockLonghashV9 sh p blob height).Emits (Stable height) :=
  stable_sat fun _ hmin => (getCnaV2Data_sat hmin le_rfl _).bind fun _ _ =>
    (getCnaV3Data_sat hmin le_rfl _).ret

theorem getBlockLonghashV10_sat :
    (getBlockLonghashV10 sh p blob height).Emits (Stable height) := by
  refine stable_sat fun ht hmin => (getCnaV2Data_sat hmin le_rfl _).bind fun _ _ =>
    (getCnaV4Data_sat hmin le_rfl _).bind fun _ _ => ?_
  have hnext : ∀ (g : MersenneTwister) {min max : UInt32}, min ≤ max →
      (g.next min max).Emits (InHeight ht ht.toNat) := fun g _ _ hle =>
    (next_sat (fun _ => le_iff_toNat_le.mp hle) g).mono fun _ _ => trivial
  refine bind (Sat.consume (R := fun _ => True) (fun g => ?_) _) fun d _ =>
    bind (Sat.consume (R := fun _ => True) (fun g => ?_) _) fun e _ => (hnext e.2 (by decide)).ret
  · exact pure trivial
  · exact (hnext g (by decide)).bind fun x _ => (hnext x.2 (by decide)).ret

theorem u32_sat {P : HeightEvent → Prop} (rng : Rng) (max : UInt32) :
    (lift (rng.u32 max) : PowM (UInt32 × Rng)).Emits P :=
  lift fun _ _ => trivial

theorem getBlockLonghashV11_sat :
    (getBlockLonghashV11 sh p blob height).Emits (Stable height) :=
  stable_sat fun _ hmin => (getCnaV2Data_sat hmin le_rfl _).bind fun _ _ =>
    (getCnaV5Data_sat hmin le_rfl _).bind fun _ _ => (u32_sat _ _).bind fun _ _ =>
      (u32_sat _ _).bind fun _ _ => (u32_sat _ _).bind fun _ _ => (u32_sat _ _).bind fun _ _ =>
        pure trivial

theorem getBlockLonghashV13_sat :
    (getBlockLonghashV13 sh p blob height).Emits (Stable height) :=
  stable_sat fun _ hmin => (getCnaV2Data_sat hmin le_rfl _).bind fun _ _ =>
    (getCnaV6Data_sat hmin le_rfl _ _ _ _).ret

theorem getBlockLonghashV14_sat :
    (getBlockLonghashV14 sh p blob height).Emits (Stable height) :=
  stable_sat fun _ hmin => (getCnaV2Data_sat hmin le_rfl _).bind fun _ _ =>
    (getCnaV6Data_sat hmin le_rfl _ _ _ _).bind fun _ _ => (u32_sat _ _).bind fun _ _ =>
      (u32_sat _ _).bind fun _ _ => (u32_sat _ _).ret

/-- Every version reads at least as deep as an alternative chain may fork. -/
theorem getBlockLonghash_sat {majorVersion : ℕ} (hversion : 7 ≤ majorVersion) :
    (getBlockLonghash sh p majorVersion blob height).Emits
      (Below (majorVersion < 9 ∨ height.toNat - 256 < 2 ^ 32)
        (getLonghashAltChainDepthLimit majorVersion) height.toNat) := by
  have hweaken : ∀ {c : Prop} {x : PowM (Hash × PowState)} (depth : ℕ),
      x.Emits (Below c depth height.toNat) →
      ((majorVersion < 9 ∨ height.toNat - 256 < 2 ^ 32) → c) →
      depth = getLonghashAltChainDepthLimit majorVersion →
      x.Emits (Below (majorVersion < 9 ∨ height.toNat - 256 < 2 ^ 32)
        (getLonghashAltChainDepthLimit majorVersion) height.toNat) := by
    rintro c x _ hx hc rfl
    refine hx.imp fun e he => ?_
    cases e with
    | read i => exact he
    | sub a b => exact fun h => he (hc h)
  unfold getBlockLonghash
  rw [if_neg (by omega)]
  split
  · exact hweaken 1 (getBlockLonghashV7_8_sat True 1) (fun _ => trivial) rfl
  · exact hweaken 256 (getBlockLonghashV7_8_sat True 256) (fun _ => trivial) rfl
  · exact hweaken 256 getBlockLonghashV9_sat (by omega) rfl
  · exact hweaken 256 getBlockLonghashV10_sat (by omega) rfl
  · exact hweaken 256 getBlockLonghashV11_sat (by omega) rfl
  · exact hweaken 256 getBlockLonghashV11_sat (by omega) rfl
  · exact hweaken 256 getBlockLonghashV13_sat (by omega) rfl
  · rename_i h7 h8 _ _ _ _ _
    have h7' : majorVersion ≠ 7 := h7
    have h8' : majorVersion ≠ 8 := h8
    refine hweaken 256 getBlockLonghashV14_sat (by omega) ?_
    rw [getLonghashAltChainDepthLimit, if_neg (by omega), if_neg (by omega), cnSeedStableDepth]

end Versions

/-- An alternative block that is not too far past its split is hashed from blocks below the split,
every hash reads only blocks below its own, and as long as the height it reads from fits in 32 bits
no subtraction underflows. -/
theorem getBlockLonghash_reads (sh : SlowHash) (p : PowState) (majorVersion : ℕ) (blob : Blob)
    (height : UInt64) :
    (∀ split, height.toNat - split < getLonghashAltChainDepthLimit majorVersion →
      ∀ i, .read i ∈ (getBlockLonghash sh p majorVersion blob height).events → i < split) ∧
    (getLonghashHeightSupported majorVersion height.toNat = true →
      (∀ i, .read i ∈ (getBlockLonghash sh p majorVersion blob height).events →
        i < height.toNat) ∧
      ((majorVersion < 9 ∨ height.toNat - 256 < 2 ^ 32) →
        ∀ a b, .sub a b ∈ (getBlockLonghash sh p majorVersion blob height).events → b ≤ a)) := by
  rcases Nat.lt_or_ge majorVersion 7 with hold | hversion
  · -- Before version 7 nothing is read.
    have hnil : (getBlockLonghash sh p majorVersion blob height).events = [] := by
      unfold getBlockLonghash
      rw [if_pos hold]
      rfl
    simp [hnil]
  · have hsat : ∀ e ∈ (getBlockLonghash sh p majorVersion blob height).events, e.Below _ _ _ :=
      (getBlockLonghash_sat hversion).1
    have hread : ∀ i, .read i ∈ (getBlockLonghash sh p majorVersion blob height).events →
        i + getLonghashAltChainDepthLimit majorVersion ≤ height.toNat := fun i hi => hsat _ hi
    have hdepth : 0 < getLonghashAltChainDepthLimit majorVersion := by
      unfold getLonghashAltChainDepthLimit cnSeedStableDepth
      split_ifs <;> omega
    refine ⟨fun split hsplit i hi => ?_, fun _ => ⟨fun i hi => ?_, fun hc a b hab => ?_⟩⟩
    · have := hread i hi
      omega
    · have := hread i hi
      omega
    · exact hsat _ hab hc

def plainSlowHash : SlowHash where
  blobHash _ := []
  nonce _ := 0
  cnSlowHash _ _ _ := 0
  cnSlowHashV7_8 _ _ _ := 0
  cnSlowHashV9 _ _ _ _ := 0
  cnSlowHashV10 _ _ _ _ _ _ := 0
  cnSlowHashV11 _ _ _ _ _ _ := 0
  cnSlowHashV13 _ _ _ _ := 0
  v14Seed _ _ := []
  cnSlowHashV14 _ _ _ _ _ := 0

def longChain : PowState where
  blockInfo _ := some default
  cache := { rows := fun _ => default, height := 2 ^ 33 }
  salt := #[]

theorem getBlockLonghash_reads_longChain :
    (∀ i, .read i ∈ (getBlockLonghash plainSlowHash longChain 9 [] 1000).events → i < 800) ∧
    (∀ i, .read i ∈ (getBlockLonghash plainSlowHash longChain 9 [] 1000).events → i < 1000) ∧
    ∀ a b, .sub a b ∈ (getBlockLonghash plainSlowHash longChain 9 [] 1000).events → b ≤ a :=
  have h := getBlockLonghash_reads plainSlowHash longChain 9 [] 1000
  ⟨h.1 800 (by decide), (h.2 (by decide)).1, (h.2 (by decide)).2 (by decide)⟩

theorem next_result (g : MersenneTwister) (min max : UInt32) :
    ∃ d, (g.next min max).result = some d := ⟨_, rfl⟩

theorem sub_mem_drawQuad {top : PowM UInt32} {t : UInt32} (ht : top.result = some t)
    (g : MersenneTwister) : .sub t.toNat 6 ∈ (drawQuad top g).events := by
  refine mem_events_bind_right ht (mem_events_bind_left (mem_events_bind_left ?_ _) _)
  exact mem_events_bind_left (List.mem_singleton.mpr rfl) _

/-- The subtraction that wraps is made after the height is cut to 32 bits. -/
theorem sub_mem_getCnaV3Data {p : PowState} {height : UInt64}
    (hp : ∀ i, ∃ row, p.blockInfo i = some row) (seed : UInt32) :
    .sub (height - 6).toUInt32.toNat 6 ∈ (getCnaV3Data p height seed).events := by
  refine mem_events_bind_left (mem_events_bind_left ?_ _) _
  obtain ⟨d, hd⟩ := next_result (setSeed seed) 1 (height - 1).toUInt32
  obtain ⟨row, hrow⟩ := hp d.1.toUInt64.toNat
  have hhash : (drawHash (subThenCut height 1) (setSeed seed)).result = some d := hd
  have hread : (readInfo p d.1.toUInt64).result = some row := hrow
  refine mem_events_bind_right hhash (mem_events_bind_right hread ?_)
  refine mem_events_bind_left (mem_events_bind_left (mem_events_bind_left ?_ _) _) _
  exact sub_mem_drawQuad rfl _

/-- Past 32 bits the bound of a draw is cut to less than its start. -/
theorem getBlockLonghash_underflows :
    getLonghashHeightSupported 9 4294967560 = true ∧
      .sub 2 6 ∈ (getBlockLonghash plainSlowHash longChain 9 [] 4294967560).events := by
  refine ⟨by decide, ?_⟩
  have hdata : ∃ rv, (getCnaV2Data longChain 4294967304 (cnScratchpadMemory - 1)).result =
      some (rv, longChain) := ⟨_, rfl⟩
  obtain ⟨rv, hrv⟩ := hdata
  have hsub : (subHeight 4294967560 256).result = some 4294967304 := rfl
  refine mem_events_bind_right hsub (mem_events_bind_right hrv (mem_events_bind_left ?_ _))
  exact sub_mem_getCnaV3Data (fun _ => ⟨default, rfl⟩) _

end Nerva
