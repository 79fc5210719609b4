import Mathlib.Data.Nat.Bitwise
import Nerva.Levin

/-!
# What reaches the command handler

A message that comes in one packet was tested against the limit of its command when its header came.
One that comes in fragments was not: only the buffers limit it. A stream without a message that
closes the connection is handled in the same way however it is cut.
-/

namespace Nerva.Levin

open List

variable {σ : Type}

namespace Endpoint

variable {e : Endpoint σ} {c c' : Connection σ} {chunk : Blob}

/-- The buffers hold no more than a packet may, the packet limit is at most that of the
configuration, and a body that is to come is within the limits. -/
structure Sound (e : Endpoint σ) (c : Connection σ) : Prop where
  room : c.cacheInBuffer.length + c.fragmentBuffer.length ≤ c.maxPacketSize
  raised : c.maxPacketSize ≤ e.config.maxPacketSize
  body : c.state = .body → c.currentHead.cb ≤ c.maxPacketSize ∧
    c.currentHead.cb ≤ getMaxBytes e.maxBytes c.currentHead.command

/-- The message keeps to the packet limit, and to its command's if it came whole. -/
structure Limited (e : Endpoint σ) (d : Dispatch) : Prop where
  packet : d.message.body.length ≤ d.maxPacketSize
  command : d.reassembled = false →
    d.message.body.length ≤ getMaxBytes e.maxBytes d.message.command

/-- A step leaves the buffers within the limit and dispatches within it. -/
def Keeps (e : Endpoint σ) : Machine.Step (Connection σ) Dispatch → Prop
  | .wait => True
  | .halt out => ∀ d ∈ out, e.Limited d
  | .go out c => e.Sound c ∧ ∀ d ∈ out, e.Limited d

theorem dispatch_keeps {reassembled : Bool} {body : Blob} (h : e.Sound c)
    (hpacket : body.length ≤ c.maxPacketSize)
    (hcommand : reassembled = false → body.length ≤ getMaxBytes e.maxBytes c.currentHead.command) :
    e.Keeps (e.dispatch c reassembled body) := by
  have hout : ∀ d ∈ [(⟨c.message body, reassembled, c.maxPacketSize⟩ : Dispatch)], e.Limited d := by
    intro d hd
    rw [mem_singleton.1 hd]
    exact ⟨hpacket, hcommand⟩
  rcases e.dispatch_cases c reassembled body with hhalt | ⟨context, hgo⟩
  · rw [hhalt]
    exact hout
  · rw [hgo]
    exact ⟨⟨h.room, h.raised, h.body⟩, hout⟩

theorem handleFragments_keeps {fragments : Blob} (h : e.Sound c) (hstate : c.state = .head)
    (hroom : c.cacheInBuffer.length + fragments.length ≤ c.maxPacketSize) :
    e.Keeps (e.handleFragments c fragments) := by
  unfold handleFragments
  split_ifs
  · exact ⟨⟨hroom, h.raised, h.body⟩, forall_mem_nil _⟩
  · exact forall_mem_nil _
  · have hcache : c.cacheInBuffer.length ≤ c.maxPacketSize := by omega
    refine dispatch_keeps ⟨hcache, h.raised, fun hs => ?_⟩ ?_ fun hr => Bool.noConfusion hr
    · exact absurd (hstate.symm.trans hs) (by decide)
    · rw [length_drop]
      exact Nat.le_trans (Nat.sub_le _ _) (Nat.le_trans (Nat.le_add_left _ _) hroom)

theorem handleBody_keeps {body : Blob} (h : e.Sound c) (hstate : c.state = .head)
    (hroom : c.cacheInBuffer.length + c.fragmentBuffer.length + body.length ≤ c.maxPacketSize)
    (hcommand : body.length ≤ getMaxBytes e.maxBytes c.currentHead.command) :
    e.Keeps (e.handleBody c body) := by
  unfold handleBody
  split_ifs
  · exact dispatch_keeps h (by omega) fun _ => hcommand
  · exact ⟨h, forall_mem_nil _⟩
  · exact handleFragments_keeps h hstate (by omega)
  · refine handleFragments_keeps h hstate ?_
    rw [length_append]
    omega

/-- Every turn keeps to the limits. -/
theorem turn_keeps (h : e.Sound c) : e.Keeps (e.turn c) := by
  have hroom := h.room
  unfold turn
  cases hs : c.state with
  | body =>
    obtain ⟨hpacket, hcommand⟩ := h.body hs
    simp only []
    split_ifs with hcb
    · trivial
    · have hlen : (c.cacheInBuffer.take c.currentHead.cb).length = c.currentHead.cb := by
        rw [length_take]
        omega
      have hcarved : (c.carve c.currentHead.cb).cacheInBuffer.length + c.fragmentBuffer.length +
          c.currentHead.cb ≤ c.maxPacketSize := by
        simp only [Connection.carve, length_drop]
        omega
      refine handleBody_keeps ⟨?_, h.raised, fun hs => by cases hs⟩ rfl ?_ ?_
      · exact Nat.le_trans (Nat.le_add_right _ _) hcarved
      · rw [hlen]
        exact hcarved
      · rw [hlen]
        exact hcommand
  | head =>
    simp only []
    split_ifs
    · exact forall_mem_nil _
    · trivial
    · unfold handleHead
      split_ifs with hsignature hlimit
      · exact forall_mem_nil _
      · exact forall_mem_nil _
      · have hle : c.maxPacketSize ≤ e.packetLimit (c.erase headSize) ∧
            e.packetLimit (c.erase headSize) ≤ e.config.maxPacketSize := by
          unfold packetLimit
          split_ifs
          · exact ⟨h.raised, le_rfl⟩
          · exact ⟨le_rfl, h.raised⟩
        refine ⟨⟨?_, hle.2, fun _ => ?_⟩, forall_mem_nil _⟩
        · simp only [Connection.erase, length_drop] at hle ⊢
          omega
        · exact Nat.le_min.1 (Nat.le_of_not_lt hlimit)

theorem sound_of_visits (hvisits : e.machine.Visits c c') (h : e.Sound c) : e.Sound c' := by
  refine hvisits.invariant (fun hs hstep => ?_) h
  have hkeeps := turn_keeps hs
  rw [show e.turn _ = _ from hstep] at hkeeps
  exact hkeeps.1

theorem sound_append {chunk : Blob} (h : e.Sound c) (hfits : Fits c chunk) :
    e.Sound (c.append chunk) := by
  refine ⟨?_, h.raised, h.body⟩
  have hcache := hfits.cache
  have hchunk := hfits.chunk
  have hfragment := hfits.fragment
  simp only [Connection.append, length_append]
  omega

/-- A connection as it is at some turn while the chunks are read. -/
inductive Passes (e : Endpoint σ) : Connection σ → List Blob → Connection σ → Prop
  | now {c c' : Connection σ} {chunk : Blob} {chunks : List Blob}
    (hopen : e.handler.closeCalled c.context = false) (hfits : Fits c chunk)
    (hvisits : e.machine.Visits (c.append chunk) c') : e.Passes c (chunk :: chunks) c'
  | later {c next c' : Connection σ} {chunk : Blob} {chunks : List Blob}
    (hnext : (e.handleRecv c chunk).2 = some next) (hrest : e.Passes next chunks c') :
    e.Passes c (chunk :: chunks) c'

/-- What is received while the connection is open. -/
theorem handleRecv_open (h : (e.handleRecv c chunk).1 ≠ [] ∨ (e.handleRecv c chunk).2 ≠ none) :
    e.handler.closeCalled c.context = false ∧ Fits c chunk ∧
      e.handleRecv c chunk = e.machine.run (c.append chunk) := by
  unfold handleRecv at h ⊢
  split_ifs at h ⊢ with hclosed hfits
  · simp at h
  · exact ⟨Bool.eq_false_iff.mpr hclosed, hfits, rfl⟩
  · simp at h

theorem sound_handleRecv (h : e.Sound c) (hnext : (e.handleRecv c chunk).2 = some c') :
    e.Sound c' := by
  have hsome : (e.handleRecv c chunk).2 ≠ none := by simp [hnext]
  obtain ⟨-, hfits, heq⟩ := handleRecv_open (.inr hsome)
  rw [heq] at hnext
  exact sound_of_visits (e.machine.visits_of_run hnext) (sound_append h hfits)

theorem Passes.sound {chunks : List Blob} (hpasses : e.Passes c chunks c') (h : e.Sound c) :
    e.Sound c' := by
  induction hpasses with
  | now hopen hfits hvisits => exact sound_of_visits hvisits (sound_append h hfits)
  | later hnext _ ih => exact ih (sound_handleRecv h hnext)

theorem sound_recvAll : ∀ (chunks : List Blob) {c c' : Connection σ}, e.Sound c →
    (e.recvAll c chunks).2 = some c' → e.Sound c'
  | [], _, _, h, hlast => Option.some.inj hlast ▸ h
  | chunk :: chunks, c, c', h, hlast => by
    unfold recvAll at hlast
    rcases hrecv : e.handleRecv c chunk with ⟨out, _ | next⟩
    · rw [hrecv] at hlast
      cases hlast
    · rw [hrecv] at hlast
      exact sound_recvAll chunks (sound_handleRecv h (by rw [hrecv])) hlast

theorem start_sound (e : Endpoint σ) (context : σ)
    (h : e.config.initialMaxPacketSize ≤ e.config.maxPacketSize) : e.Sound (e.start context) :=
  ⟨Nat.zero_le _, h, fun hs => by cases hs⟩

end Endpoint

/-- What the fragment buffer and the body at hand are together. -/
def Connection.fragments (c : Connection σ) : Blob :=
  c.fragmentBuffer ++ c.cacheInBuffer.take c.currentHead.cb

/-- The packet at hand is there, and it is the last one of a message in fragments, the first of
which is a packet before. -/
structure Connection.Completes (c : Connection σ) : Prop where
  state : c.state = .body
  whole : c.currentHead.cb ≤ c.cacheInBuffer.length
  fragment : c.currentHead.isFragment = true
  later : c.currentHead.flags &&& levinPacketBegin = 0
  last : c.currentHead.flags &&& levinPacketEnd ≠ 0
  headed : headSize ≤ c.fragments.length

namespace Endpoint

variable {e : Endpoint σ} {c : Connection σ}

end Endpoint

def taking : CommandsHandler Unit := ⟨fun _ => false, fun _ => false, fun s _ => (s, true)⟩

def fragmented (command : ℕ) (body : Blob) : Blob :=
  (makeHeader 0 headSize levinPacketBegin false).toBytes ++
    (makeHeader command body.length levinPacketRequest true).toBytes ++
    (makeHeader 0 body.length levinPacketEnd false).toBytes ++ body

namespace Endpoint

variable {e : Endpoint σ} {c c' : Connection σ} {chunk : Blob}

/-- No chunk is too long for the buffer it finds. -/
def FitsAll (e : Endpoint σ) : Connection σ → List Blob → Prop
  | _, [] => True
  | c, chunk :: chunks =>
    (e.handler.closeCalled c.context = false → Fits c chunk) ∧
      match (e.handleRecv c chunk).2 with
      | none => True
      | some c' => FitsAll e c' chunks

/-- When a chunk comes for a connection that a message has closed, the rest of the stream has no
message and is to be refused in any case. -/
def Heeded (e : Endpoint σ) : Connection σ → List Blob → Prop
  | _, [] => True
  | c, chunk :: chunks =>
    (e.handler.closeCalled c.context = true →
      (e.machine.run (c.append (chunk ++ chunks.flatten))).1 = [] ∧
        (e.machine.run (c.append (chunk ++ chunks.flatten))).2.isNone = true) ∧
      match (e.handleRecv c chunk).2 with
      | none => True
      | some c' => Heeded e c' chunks

instance decidableFitsAll (e : Endpoint σ) : (c : Connection σ) → (chunks : List Blob) →
    Decidable (e.FitsAll c chunks)
  | _, [] => .isTrue trivial
  | c, chunk :: chunks =>
    have : Decidable (match (e.handleRecv c chunk).2 with
        | none => True
        | some c' => FitsAll e c' chunks) :=
      match (e.handleRecv c chunk).2 with
      | none => .isTrue trivial
      | some c' => decidableFitsAll e c' chunks
    inferInstanceAs (Decidable (_ ∧ _))

instance decidableHeeded (e : Endpoint σ) : (c : Connection σ) → (chunks : List Blob) →
    Decidable (e.Heeded c chunks)
  | _, [] => .isTrue trivial
  | c, chunk :: chunks =>
    have : Decidable (match (e.handleRecv c chunk).2 with
        | none => True
        | some c' => Heeded e c' chunks) :=
      match (e.handleRecv c chunk).2 with
      | none => .isTrue trivial
      | some c' => decidableHeeded e c' chunks
    inferInstanceAs (Decidable (_ ∧ _))

theorem handleRecv_fits (h : e.handler.closeCalled c.context = false) (hfits : Fits c chunk) :
    e.handleRecv c chunk = e.machine.run (c.append chunk) := by
  rw [handleRecv, if_neg (by rw [h]; exact Bool.noConfusion), if_pos hfits]

/-- The bytes after a chunk do not change what the chunk leads to. -/
theorem run_append_chunk (e : Endpoint σ) (c : Connection σ) (chunk rest : Blob) :
    (∃ out, e.machine.run (c.append chunk) = (out, none) ∧
      e.machine.run (c.append (chunk ++ rest)) = (out, none)) ∨
    ∃ out next, e.machine.run (c.append chunk) = (out, some next) ∧ e.turn next = .wait ∧
      e.machine.run (c.append (chunk ++ rest)) = (out ++ (e.machine.run (next.append rest)).1,
        (e.machine.run (next.append rest)).2) := by
  have hfeed : c.append (chunk ++ rest) = (c.append chunk).append rest :=
    (e.machine.feed_feed c chunk rest).symm
  rw [hfeed]
  rcases hrun : e.machine.run (c.append chunk) with ⟨out, _ | next⟩
  · exact .inl ⟨out, rfl, e.machine.run_feed_of_halt _ hrun⟩
  · exact .inr ⟨out, next, rfl, e.machine.step_of_run (by rw [hrun]),
      e.machine.run_feed_of_wait _ hrun⟩

/-- Chunks are handled like one exactly when nothing is received after the handler asks to close. -/
theorem recvAll_eq_run_iff : ∀ (chunks : List Blob) {c : Connection σ}, e.turn c = .wait →
    e.FitsAll c chunks →
    (e.recvAll c chunks = e.machine.run (c.append chunks.flatten) ↔ e.Heeded c chunks)
  | [], c, hwait, _ => by
    have happend : c.append [] = c := by simp [Connection.append]
    rw [flatten_nil, happend, e.machine.run_wait hwait]
    exact iff_of_true rfl trivial
  | chunk :: chunks, c, hwait, hfits => by
    obtain ⟨hfit, hrest⟩ := hfits
    unfold recvAll Heeded
    rw [flatten_cons]
    cases hclosed : e.handler.closeCalled c.context with
    | true =>
      rw [handleRecv, if_pos hclosed]
      rcases e.machine.run (c.append (chunk ++ chunks.flatten)) with ⟨out, _ | next⟩
      · simp [eq_comm]
      · simp
    | false =>
      rw [handleRecv_fits hclosed (hfit hclosed)] at hrest ⊢
      rcases e.run_append_chunk c chunk chunks.flatten with
        ⟨out, hrun, hwhole⟩ | ⟨out, next, hrun, hnext, hwhole⟩
      · simp [hrun, hwhole]
      · rw [hrun] at hrest ⊢
        have ih := recvAll_eq_run_iff chunks hnext hrest
        rw [hwhole]
        simp only [Prod.mk.injEq, append_cancel_left_eq]
        rw [← Prod.ext_iff, ih]
        simp

end Endpoint

/-- Two ways to cut a stream that both heed closing dispatch the same messages and are refused at
the same point, if at all. Where the packet limit is not lowered, the buffers never exceed it. -/
theorem recvAll_cut (e : Endpoint σ) (context : σ) {cs ds : List Blob}
    (hstream : cs.flatten = ds.flatten) (hcs : e.FitsAll (e.start context) cs)
    (hds : e.FitsAll (e.start context) ds) :
    (e.Heeded (e.start context) cs → e.Heeded (e.start context) ds →
      e.recvAll (e.start context) cs = e.recvAll (e.start context) ds) ∧
    (e.recvAll (e.start context) cs = e.machine.run ((e.start context).append cs.flatten) ↔
      e.Heeded (e.start context) cs) ∧
    (e.config.initialMaxPacketSize ≤ e.config.maxPacketSize →
      ∀ chunks c, (e.recvAll (e.start context) chunks).2 = some c →
        c.cacheInBuffer.length ≤ c.maxPacketSize ∧
          c.fragmentBuffer.length ≤ c.maxPacketSize - c.cacheInBuffer.length) := by
  have hwait : e.turn (e.start context) = .wait := rfl
  have hiff := e.recvAll_eq_run_iff cs hwait hcs
  refine ⟨fun hc hd => ?_, hiff, fun hraise chunks c hc => ?_⟩
  · rw [hiff.2 hc, (e.recvAll_eq_run_iff ds hwait hds).2 hd, hstream]
  · have hroom := (Endpoint.sound_recvAll chunks (e.start_sound context hraise) hc).room
    omega

def request : Blob := (makeHeader Command.ping 0 levinPacketRequest false).toBytes

/-- Two messages in one chunk, and with a cut in the header of the first. -/
theorem recvAll_cut_requests :
    let e : Endpoint Unit := { maxBytes := onConnectionNew, handler := taking }
    e.recvAll (e.start ()) [request ++ request] =
      e.recvAll (e.start ()) [request.take 20, request.drop 20 ++ request] :=
  (recvAll_cut _ () (by decide) (by decide) (by decide)).1
    (by decide) (by decide)

def closing : CommandsHandler Bool := ⟨fun _ => false, fun s => s, fun _ _ => (true, true)⟩

/-- The second message is dispatched when it comes in the same chunk as the one that closes, and not
when it comes in the next. -/
theorem recvAll_closing :
    let e : Endpoint Bool := { maxBytes := onConnectionNew, handler := closing }
    [request ++ request].flatten = [request, request].flatten ∧
      e.FitsAll (e.start false) [request ++ request] ∧
      e.FitsAll (e.start false) [request, request] ∧
      (e.recvAll (e.start false) [request ++ request]).1 ≠
        (e.recvAll (e.start false) [request, request]).1 := by
  decide

end Nerva.Levin
