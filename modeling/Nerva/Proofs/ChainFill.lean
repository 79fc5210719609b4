import Nerva.ChainFill

/-!
# The two fills are one function

What the fill draws from the cipher in sixteen messages does not depend on the blocks it reads, only
the reseed does. So a turn of the reference draws first and writes afterwards, and the run-ahead
loop of 256 turns is the reference's two loops of 128 with the reseed in the middle.
-/

namespace Nerva

open Traced Loop

theorem length_hashBytes (h : Hash) : (hashBytes h).length = 32 := by simp [hashBytes]

theorem length_u64Bytes (x : UInt64) : (u64Bytes x).length = 8 := by simp [u64Bytes]

theorem encryptMessage_nil (s : HC128State) : s.encryptMessage [] = (s, []) := by
  rw [HC128State.encryptMessage, if_neg (by simp), if_pos rfl]

theorem encryptMessage_of_length {message : Blob} (h : message.length = 64) (s : HC128State) :
    s.encryptMessage message = (s.nextKeys, xorWords message s.nextKeys.keystream) := by
  have hdrop : message.drop 64 = [] := List.drop_eq_nil_of_le (Nat.le_of_eq h)
  rw [HC128State.encryptMessage, if_pos (Nat.le_of_eq h.symm)]
  simp only [hdrop, encryptMessage_nil, List.append_nil]

section

variable (a : FillArgs) {n : ℕ} {f f' : Filling}

def fieldOf (i : UInt64) (j count : ℕ) : Blob := ((cnaV6Field a i j count).result).getD []

theorem cnaV6Field_result (i : UInt64) (j count : ℕ) :
    (cnaV6Field a i j count).result = some (fieldOf a i j count) := by
  unfold fieldOf cnaV6Field
  split <;> rfl

theorem length_fieldOf (i : UInt64) (j count : ℕ) : (fieldOf a i j count).length = 8 := by
  unfold fieldOf cnaV6Field
  split
  · have hlt : (j + count) % 4 < 4 := Nat.mod_lt _ (by omega)
    simp only [result_bind, result_emit, Option.bind_eq_bind, Option.bind_some, result_pure,
      Option.getD_some, List.length_take, List.length_drop, length_hashBytes]
    omega
  · simp [length_u64Bytes]

/-- The message that is put together from the picked blocks. -/
def messageOf (idx : List UInt64) (count : ℕ) : Blob :=
  hashBytes (a.rows (idx.getD 0 0).toNat).biHash ++ fieldOf a (idx.getD 1 0) 1 count ++
    fieldOf a (idx.getD 2 0) 2 count ++ fieldOf a (idx.getD 3 0) 3 count ++
    u64Bytes (UInt64.ofNat count)

theorem length_messageOf (idx : List UInt64) (count : ℕ) : (messageOf a idx count).length = 64 := by
  simp [messageOf, length_hashBytes, length_fieldOf, length_u64Bytes]

/-- The pad after one more message. -/
def written (pad : FillPad) (d : List UInt64 × Vector UInt32 16) : FillPad :=
  pad.append (messageOf a d.1 pad.count) (xorWords (messageOf a d.1 pad.count) d.2)

/-- Writing a message that was drawn ahead. -/
theorem runAheadWrite_result (pad : FillPad) (d : List UInt64 × Vector UInt32 16) :
    (runAheadWrite a pad d).result = some (written a pad d) := by
  simp only [runAheadWrite, List.foldlM_cons, result_bind, cnaV6Field_result]
  rfl

theorem fillBody_result (f : Filling) :
    (fillBody a (cnaV6Pick a) f).result =
      ((runAheadDraw a f.1).result).map fun d => (d.2, written a f.2 d.1) := by
  simp only [fillBody, runAheadDraw, consume, List.foldlM_cons, result_bind, result_pure,
    cnaV6Field_result, Option.bind_eq_bind]
  rcases (cnaV6Pick a f.1).result with _ | ⟨i₀, r₀⟩
  · rfl
  simp only [Option.bind_some]
  rcases (cnaV6Pick a r₀).result with _ | ⟨i₁, r₁⟩
  · rfl
  simp only [Option.bind_some]
  rcases (cnaV6Pick a r₁).result with _ | ⟨i₂, r₂⟩
  · rfl
  simp only [Option.bind_some]
  rcases (cnaV6Pick a r₂).result with _ | ⟨i₃, r₃⟩
  · rfl
  exact congrArg (fun x : HC128State × Blob => some (({ state := x.1, keyIdx := r₃.keyIdx } : Rng),
      f.2.append (messageOf a [i₀, i₁, i₂, i₃] f.2.count) x.2))
    (encryptMessage_of_length (length_messageOf a [i₀, i₁, i₂, i₃] f.2.count) r₃.state)

/-- Drawing all messages first and writing them then gives the same pad. -/
theorem times_fillBody_result (n : ℕ) (rng : Rng) (pad : FillPad) :
    (times (fillBody a (cnaV6Pick a)) n (rng, pad)).result =
      (consume (fun rng => (runAheadDraw a rng).result) n rng).map fun d =>
        (d.2, d.1.foldl (written a) pad) := by
  rw [result_times, ← times_eq_consume]
  congr 1
  funext f
  exact fillBody_result a f

theorem runAheadTurn_result (f : Filling) :
    (runAheadTurn a f).result = (fillTurn a (cnaV6Pick a) f).result >>= fun f =>
      if f.2.count = 2048 then (fillMidpoint f).result else some f := by
  have hwrite : ∀ draws pad, (List.foldlM (runAheadWrite a) pad draws).result =
      some (draws.foldl (written a) pad) := fun draws pad =>
    result_foldlM (runAheadWrite_result a) draws pad
  simp only [runAheadTurn, fillTurn, result_bind, result_consume, times_fillBody_result, hwrite]
  rcases consume (fun rng => (runAheadDraw a rng).result) 16 f.1.nextKeys with _ | ⟨draws, rng⟩
  · rfl
  simp only [Option.bind_eq_bind, Option.bind_some, Option.map_some]
  rcases (reseedTurn a (rng, draws.foldl (written a) f.2)).result with _ | f'
  · rfl
  simp only [Option.bind_some]
  split <;> rfl

theorem consume_length {σ β : Type} {draw : σ → Option (β × σ)} :
    ∀ {s : σ} {d : List β × σ}, consume draw n s = some d → d.1.length = n := by
  induction n with
  | zero =>
    intro s d h
    cases h
    rfl
  | succ n ih =>
    intro s d h
    simp only [consume, Option.bind_eq_bind, Option.bind_eq_some_iff] at h
    obtain ⟨b, -, ds, hds, h⟩ := h
    cases h
    simp [ih hds]

theorem foldl_written_count (draws : List (List UInt64 × Vector UInt32 16)) (pad : FillPad) :
    (draws.foldl (written a) pad).count = pad.count + draws.length := by
  induction draws generalizing pad with
  | nil => rfl
  | cons d draws ih =>
    rw [List.foldl_cons, ih, List.length_cons]
    simp only [written, FillPad.append]
    omega

theorem fillReseed_count (h : (fillReseed f).result = some f') : f'.2.count = f.2.count := by
  simp only [fillReseed, result_bind, Option.bind_eq_bind, Option.bind_eq_some_iff] at h
  obtain ⟨_, _, _, _, h⟩ := h
  obtain rfl := Option.some.inj h
  rfl

theorem reseedTurn_count (h : (reseedTurn a f).result = some f') : f'.2.count = f.2.count := by
  unfold reseedTurn at h
  split at h
  · exact fillReseed_count h
  · cases h
    rfl

theorem fillMidpoint_count (h : (fillMidpoint f).result = some f') : f'.2.count = f.2.count := by
  simp only [fillMidpoint, result_bind, Option.bind_eq_bind, Option.bind_eq_some_iff] at h
  obtain ⟨_, _, h⟩ := h
  obtain rfl := Option.some.inj h
  rfl

/-- A turn writes 16 messages. -/
theorem fillTurn_count (h : (fillTurn a (cnaV6Pick a) f).result = some f') :
    f'.2.count = f.2.count + 16 := by
  simp only [fillTurn, result_bind, times_fillBody_result, Option.bind_eq_bind,
    Option.bind_eq_some_iff, Option.map_eq_some_iff] at h
  obtain ⟨f₁, ⟨d, hd, rfl⟩, h⟩ := h
  rw [reseedTurn_count a h, foldl_written_count, consume_length hd]

theorem times_count :
    ∀ {f f' : Filling}, times (fun f => (fillTurn a (cnaV6Pick a) f).result) n f = some f' →
      f'.2.count = f.2.count + n * 16 := by
  induction n with
  | zero =>
    intro f f' h
    rw [Option.some.inj h]
    omega
  | succ n ih =>
    intro f f' h
    simp only [times, Option.bind_eq_bind, Option.bind_eq_some_iff] at h
    obtain ⟨f₁, hf₁, h⟩ := h
    rw [ih h, fillTurn_count a hf₁]
    omega

theorem runAheadTurn_count (h : (runAheadTurn a f).result = some f') :
    f'.2.count = f.2.count + 16 := by
  rw [runAheadTurn_result, Option.bind_eq_bind, Option.bind_eq_some_iff] at h
  obtain ⟨f₁, hf₁, h⟩ := h
  rw [← fillTurn_count a hf₁]
  split at h
  · exact fillMidpoint_count h
  · rw [Option.some.inj h]

/-- Turns that do not reach the midpoint. -/
theorem times_runAheadTurn :
    ∀ {f : Filling}, (∀ i, i < n → f.2.count + 16 * (i + 1) ≠ 2048) →
      times (fun f => (runAheadTurn a f).result) n f =
        times (fun f => (fillTurn a (cnaV6Pick a) f).result) n f := by
  induction n with
  | zero => exact fun _ => rfl
  | succ n ih =>
    intro f hf
    simp only [times, runAheadTurn_result]
    rcases hturn : (fillTurn a (cnaV6Pick a) f).result with _ | f'
    · rfl
    have hcount := fillTurn_count a hturn
    have hne : f'.2.count ≠ 2048 := by
      have := hf 0 (Nat.succ_pos n)
      omega
    simp only [Option.bind_eq_bind, Option.bind_some, if_neg hne]
    have hrest : ∀ i, i < n → f'.2.count + 16 * (i + 1) ≠ 2048 := by
      intro i hi
      have := hf (i + 1) (Nat.succ_lt_succ hi)
      omega
    have := ih hrest
    simp only [runAheadTurn_result] at this
    exact this

/-- The reference fill: 128 turns, the midpoint, and the rest. -/
theorem chainFill_result (state : HC128State) (out : Array UInt8) :
    (chainFill a (cnaV6Pick a) (fillStart state out)).result =
      times (fun f => (fillTurn a (cnaV6Pick a) f).result) 128 (fillStart state out) >>= fun f =>
        (fillMidpoint f).result >>= times (fun f => (fillTurn a (cnaV6Pick a) f).result) 128 := by
  have hloop := fun limit => whileDo_eq_times (fun f : Filling => f.2.count) limit (by omega)
    (fun _ _ => fillTurn_count a) 128
  have hstart : (fillStart state out).2.count = 0 := rfl
  simp only [chainFill, result_bind, result_whileDo]
  rw [hloop 2048 2048 (fillStart state out) (by omega) (by omega)]
  refine Option.bind_congr fun f hf => Option.bind_congr fun f' hf' => ?_
  have hcount := times_count a hf
  have hmid := fillMidpoint_count hf'
  exact hloop 4096 4096 f' (by omega) (by omega)

/-- The run-ahead loop in turns: 127 turns like the reference's, one with the reseed in the middle,
and 128 like the reference's again. -/
theorem runAhead_result (state : HC128State) (out : Array UInt8) :
    whileDo (fun f : Filling => decide (f.2.count < 4096)) (fun f => (runAheadTurn a f).result) 4096
        (fillStart state out) =
      times (fun f => (fillTurn a (cnaV6Pick a) f).result) 128 (fillStart state out) >>= fun f =>
        (fillMidpoint f).result >>= times (fun f => (fillTurn a (cnaV6Pick a) f).result) 128 := by
  have hstart : (fillStart state out).2.count = 0 := rfl
  rw [whileDo_eq_times (fun f : Filling => f.2.count) 4096 (by omega)
      (fun _ _ => runAheadTurn_count a) 256 4096 _ (by omega) (by omega), times_add _ 127 129,
    times_add _ 127 1, times_runAheadTurn a (by omega), bind_assoc]
  refine Option.bind_congr fun f hf => ?_
  have hcount := times_count a hf
  rw [times_add _ 1 128, times_one, times_one, runAheadTurn_result, bind_assoc]
  refine Option.bind_congr fun f' hf' => ?_
  have hcount' := fillTurn_count a hf'
  rw [if_pos (by omega)]
  refine Option.bind_congr fun f'' hf'' => ?_
  have hmid := fillMidpoint_count hf''
  exact times_runAheadTurn a (by omega)

end

/-- The two forms of the fill of version 6 end for the same arguments, with the same salt, the same
cipher state and the same position in the keystream. -/
theorem cnaV6DataRunAhead_eq_reference (a : FillArgs) (state : HC128State) (out : Array UInt8) :
    (cnaV6DataRunAhead a state out).result = (cnaV6DataReference a state out).result := by
  simp only [cnaV6DataRunAhead, cnaV6DataReference, result_bind, chainFill_result, result_whileDo,
    runAhead_result]

end Nerva
