import Nerva.Proofs.Levin

/-!
# A fragmented notification arrives

What `make_fragmented_notify` sends is a row of packets of the noise message's size. The receiver
puts the bodies of the fragments together, which are the inner header, the payload and the padding,
and dispatches one notification.
-/

namespace Nerva.Levin

open List Endpoint Numerals

theorem length_toBytes (head : BucketHead2) : head.toBytes.length = headSize := by
  rfl

theorem ofBytes_toBytes {head : BucketHead2} (hsignature : head.signature < 256 ^ 8)
    (hcb : head.cb < 256 ^ 8) (hcommand : head.command < 256 ^ 4)
    (hreturn : head.returnCode < 256 ^ 4) (hflags : head.flags < 256 ^ 4)
    (hversion : head.protocolVersion < 256 ^ 4) : BucketHead2.ofBytes head.toBytes = head := by
  obtain ⟨signature, cb, haveToReturnData, command, returnCode, flags, protocolVersion⟩ := head
  have hdata : haveToReturnData.toNat < 256 ^ 1 := by cases haveToReturnData <;> decide
  have hreturned : decide (haveToReturnData.toNat ≠ 0) = haveToReturnData := by
    cases haveToReturnData <;> rfl
  unfold BucketHead2.ofBytes BucketHead2.toBytes
  simp only [append_assoc] at *
  have hlast := leNat_take [] hversion
  rw [append_nil] at hlast
  -- each field is what is left after the ones before it
  simp only [drop_leBytes _ 8, drop_leBytes _ 1, drop_leBytes _ 4, drop_zero,
    leNat_take _ hsignature, leNat_take _ hcb, leNat_take _ hdata, leNat_take _ hcommand,
    leNat_take _ hreturn, leNat_take _ hflags, hlast, hreturned]

/-- A header is read as it was made. -/
theorem ofBytes_makeHeader {command cb flags : ℕ} (hcommand : command < 2 ^ 32)
    (hcb : cb < 2 ^ 64) (hflags : flags < 2 ^ 32) :
    BucketHead2.ofBytes (makeHeader command cb flags false).toBytes =
      makeHeader command cb flags false := by
  have hsignature : levinSignature < 256 ^ 8 := by decide
  have hversion : levinProtocolVer1 < 256 ^ 4 := by decide
  exact ofBytes_toBytes hsignature hcb hcommand (Nat.zero_lt_succ _) hflags hversion

/-- A packet before it is put into bytes. -/
structure Packet where
  command : ℕ
  flags : ℕ
  body : Blob

def Packet.head (p : Packet) : BucketHead2 := makeHeader p.command p.body.length p.flags false

def Packet.bytes (p : Packet) : Blob := p.head.toBytes ++ p.body

/-- The packet has the size of the noise, and its fields fit. -/
structure Packet.Sized (size : ℕ) (p : Packet) : Prop where
  command : p.command < 2 ^ 32
  flags : p.flags < 2 ^ 32
  length : headSize + p.body.length = size

def fragment (flags : ℕ) (body : Blob) : Packet := ⟨0, flags, body⟩

/-- The packets of one message, from the first to the last fragment. -/
def fragments (first : Blob) (middle : List Blob) (last : Blob) : List Packet :=
  fragment levinPacketBegin first :: (middle.map (fragment 0) ++ [fragment levinPacketEnd last])

variable {p : Packet} {size : ℕ}

theorem Packet.Sized.length_bytes (h : p.Sized size) : p.bytes.length = size := by
  rw [Packet.bytes, length_append, length_toBytes, h.length]

theorem Packet.Sized.ofBytes (h : p.Sized size) (hsize : size < 2 ^ 64) (rest : Blob) :
    BucketHead2.ofBytes ((p.bytes ++ rest).take headSize) = p.head := by
  have hlen := h.length
  exact ofBytes_makeHeader h.command (by omega) h.flags

section Sending

variable {payload : Blob} {space : ℕ} {noise : Blob}

theorem appendFragments_nil (space copySize : ℕ) : ∀ fuel : ℕ,
    appendFragments space fuel [] copySize = ([], copySize)
  | 0 => rfl
  | _ + 1 => rfl

/-- The payload behind the first fragment is cut into middle fragments and a last one. -/
theorem appendFragments_eq (hspace : 0 < space) : ∀ (fuel : ℕ) {payload : Blob} (copySize : ℕ),
    payload ≠ [] → payload.length ≤ fuel →
    ∃ (middle : List Blob) (last : Blob), appendFragments space fuel payload copySize =
        ((middle.map (fragment 0)).flatMap Packet.bytes ++
          ((makeHeader 0 space levinPacketEnd false).toBytes ++ last), last.length) ∧
      (∀ body ∈ middle, body.length = space) ∧ last.length ≤ space ∧
      middle.flatten ++ last = payload
  | 0, payload, _, hne, hfuel => by
    exact absurd (length_eq_zero_iff.mp (Nat.le_zero.mp hfuel)) hne
  | fuel + 1, payload, copySize, hne, hfuel => by
    rw [appendFragments, if_neg hne]
    by_cases hlast : payload.drop space = []
    · have hshort : payload.length ≤ space := drop_eq_nil_iff.mp hlast
      have htake : payload.take space = payload := take_of_length_le hshort
      refine ⟨[], payload, ?_, by simp, hshort, rfl⟩
      simp only [hlast, htake, if_true, appendFragments_nil, append_nil, map_nil,
        flatMap_nil, nil_append]
    · have hlong : space < payload.length := by
        by_contra hshort
        exact hlast (drop_eq_nil_iff.mpr (not_lt.mp hshort))
      obtain ⟨middle, last, hrest, hmiddle, hle, hflat⟩ := appendFragments_eq hspace fuel
        (payload.take space).length hlast (by rw [length_drop]; omega)
      have htake : (payload.take space).length = space := length_take_of_le (Nat.le_of_lt hlong)
      rw [htake] at hrest
      refine ⟨payload.take space :: middle, last, ?_, ?_, hle, ?_⟩
      · simp only [hrest, hlast, if_false, map_cons, flatMap_cons, Packet.bytes,
          Packet.head, fragment, htake, append_assoc]
      · intro body hbody
        rcases mem_cons.mp hbody with rfl | hbody
        · exact htake
        · exact hmiddle body hbody
      · rw [flatten_cons, append_assoc, hflat, take_append_drop]

theorem exists_padding (noise : Blob) (n : ℕ) (h : n ≤ noise.length) :
    ∃ padding, paddingBytes noise n = padding ∧ padding.length = n ∧ padding <:+ noise := by
  refine ⟨_, rfl, ?_, drop_suffix _ _⟩
  rw [paddingBytes, length_drop]
  omega

/-- The packets of a notification: itself with padding, or fragments of it with a header of its own
and padding. -/
inductive IsNotify (noise : Blob) (command : UInt32) (payload : Blob) : List Packet → Prop
  | whole (padding : Blob) : payload.length ≤ noise.length - headSize → padding <:+ noise →
    IsNotify noise command payload [⟨command.toNat, levinPacketRequest, payload ++ padding⟩]
  | fragmented (first : Blob) (middle : List Blob) (last padding : Blob) :
    ¬payload.length ≤ noise.length - headSize → padding <:+ noise →
    first ++ middle.flatten ++ last =
      (makeHeader command.toNat payload.length levinPacketRequest false).toBytes ++ payload ++
        padding →
    IsNotify noise command payload (fragments first middle last)

/-- A notification is made of packets of one size. -/
theorem makeFragmentedNotify_eq (command : UInt32) (payload : Blob)
    (hnoise : headSize * 2 ≤ noise.length) :
    ∃ ps, makeFragmentedNotify noise command payload = some (ps.flatMap Packet.bytes) ∧
      ps ≠ [] ∧ (∀ p ∈ ps, p.Sized noise.length) ∧ IsNotify noise command payload ps := by
  have hsize : headSize = 33 := rfl
  have hrequest : levinPacketRequest < 2 ^ 32 := by decide
  have hbegin : levinPacketBegin < 2 ^ 32 := by decide
  have hendFlag : levinPacketEnd < 2 ^ 32 := by decide
  unfold makeFragmentedNotify
  simp only [if_neg (not_lt.mpr hnoise)]
  split_ifs with hshort
  · obtain ⟨padding, hpad, hpadding, hsuffix⟩ := exists_padding noise
      (noise.length - headSize - payload.length) (by omega)
    rw [hpad]
    have hlen : (payload ++ padding).length = noise.length - headSize := by
      rw [length_append]
      omega
    refine ⟨[⟨command.toNat, levinPacketRequest, payload ++ padding⟩], ?_, by simp, ?_,
      .whole _ hshort hsuffix⟩
    · simp only [flatMap_cons, flatMap_nil, Packet.bytes, Packet.head, hlen,
        append_nil, append_assoc]
    · intro p hp
      rw [mem_singleton.mp hp]
      exact ⟨command.toNat_lt, hrequest, by simp only [hlen]; omega⟩
  · have hlong : noise.length - headSize - headSize < payload.length := by omega
    have hrest : payload.drop (noise.length - headSize - headSize) ≠ [] := by
      refine length_pos_iff.mp ?_
      rw [length_drop]
      omega
    have htaken := length_take_of_le (Nat.le_of_lt hlong)
    obtain ⟨middle, last, heq, hmiddle, hlast, hflat⟩ := appendFragments_eq
      (show 0 < noise.length - headSize by omega) payload.length
      (payload.take (noise.length - headSize - headSize)).length hrest
      (by rw [length_drop]; omega)
    obtain ⟨padding, hpad, hpadding, hsuffix⟩ := exists_padding noise
      (noise.length - last.length - headSize) (by omega)
    have hend : (last ++ padding).length = noise.length - headSize := by
      rw [length_append]
      omega
    generalize hfirst :
      (makeHeader command.toNat payload.length levinPacketRequest false).toBytes ++
      payload.take (noise.length - headSize - headSize) = first
    have hfirstLen : first.length = noise.length - headSize := by
      rw [← hfirst, length_append, length_toBytes]
      omega
    refine ⟨fragments first middle (last ++ padding), ?_, by simp [fragments], ?_,
      .fragmented _ _ _ _ hshort hsuffix ?_⟩
    · simp only [heq, hpad, fragments, flatMap_cons, flatMap_append, flatMap_nil, Packet.bytes,
        Packet.head, fragment, hfirstLen, hend, append_nil, append_assoc]
      rw [← hfirst, append_assoc]
    · intro p hp
      rcases mem_cons.mp hp with rfl | hp
      · exact ⟨Nat.two_pow_pos 32, hbegin, by simp only [fragment]; omega⟩
      · rcases mem_append.mp hp with hp | hp
        · obtain ⟨body, hbody, rfl⟩ := mem_map.mp hp
          exact ⟨Nat.two_pow_pos 32, Nat.two_pow_pos 32,
            by simp only [fragment, hmiddle body hbody]; omega⟩
        · rw [mem_singleton.mp hp]
          exact ⟨Nat.two_pow_pos 32, hendFlag, by simp only [fragment]; omega⟩
    · rw [← hfirst, append_assoc, append_assoc, ← append_assoc middle.flatten, ← append_assoc
        (payload.take _), hflat, take_append_drop, append_assoc]

end Sending

section Receiving

variable {σ : Type} {e : Endpoint σ} {c : Connection σ} {p : Packet} {rest : Blob} {size : ℕ}
  {c' : Connection σ} {body : Blob} {cb command : ℕ} {last message : Blob} {reassembled : Bool}

/-- The limits allow a body of the length with the command. -/
structure Endpoint.Allows (e : Endpoint σ) (c : Connection σ) (command length : ℕ) : Prop where
  packet : length ≤ e.packetLimit c
  command : length ≤ getMaxBytes e.maxBytes command

/-- The connection when a packet's body is handled, with the rest of the input. -/
def Endpoint.received (e : Endpoint σ) (c : Connection σ) (p : Packet) (rest : Blob) :
    Connection σ where
  cacheInBuffer := rest
  fragmentBuffer := c.fragmentBuffer
  state := .head
  currentHead := p.head
  oponentProtocolVer := levinProtocolVer1
  maxPacketSize := e.packetLimit c
  context := c.context

theorem Endpoint.le_packetLimit {n : ℕ} (h : n ≤ e.packetLimit c)
    (hmax : c'.maxPacketSize = e.packetLimit c) (hcontext : c'.context = c.context) :
    n ≤ e.packetLimit c' := by
  unfold packetLimit at h hmax ⊢
  rw [hcontext, hmax]
  split_ifs at h ⊢ <;> exact h

theorem message_request (hhead : c.currentHead = makeHeader command cb levinPacketRequest false) :
    c.message body = ⟨.notify, command, levinPacketRequest, 0, body⟩ := by
  have hflags : levinPacketRequest &&& levinPacketResponse = 0 := by decide
  unfold Connection.message
  rw [hhead]
  simp [makeHeader, hflags]

/-- A whole packet in the buffer is taken off it. -/
theorem run_packet (hp : p.Sized size) (hsize : size < 2 ^ 64) (hstate : c.state = .head)
    (hcache : c.cacheInBuffer = p.bytes ++ rest) (hallow : e.Allows c p.command p.body.length) :
    ∃ c₁, e.machine.run c = e.machine.run c₁ ∧
      e.turn c₁ = e.handleBody (e.received c p rest) p.body := by
  have hhead : e.turn c = e.handleHead (c.erase headSize) p.head := by
    have hlong : ¬c.cacheInBuffer.length < headSize := by
      rw [hcache, length_append, Packet.bytes, length_append, length_toBytes]
      omega
    rw [turn, hstate]
    simp only [if_neg hlong]
    rw [hcache, hp.ofBytes hsize]
  have hgo : e.handleHead (c.erase headSize) p.head = .go [] { c.erase headSize with
      state := .body, currentHead := p.head, oponentProtocolVer := levinProtocolVer1,
      maxPacketSize := e.packetLimit c } := by
    have hlimit : ¬min (e.packetLimit (c.erase headSize)) (getMaxBytes e.maxBytes p.head.command) <
        p.head.cb := by
      have hpacket : p.head.cb ≤ e.packetLimit (c.erase headSize) := hallow.packet
      have hcommand : p.head.cb ≤ getMaxBytes e.maxBytes p.head.command := hallow.command
      omega
    rw [handleHead, if_neg hlimit]
    rfl
  refine ⟨_, e.machine.run_go (hhead.trans hgo), ?_⟩
  have hbody : (c.erase headSize).cacheInBuffer = p.body ++ rest := by
    rw [Connection.erase, hcache, Packet.bytes, append_assoc]
    rw [← length_toBytes p.head, drop_left]
  have hcb : p.head.cb = p.body.length := rfl
  rw [turn]
  simp only [hbody, hcb, length_append]
  rw [if_neg (by omega), take_left]
  unfold Connection.carve received
  simp only [drop_left]
  rfl

theorem handleBody_fragment {flags : ℕ} (body : Blob)
    (hfragment : flags &&& (levinPacketRequest ||| levinPacketResponse) = 0)
    (hnoise : ¬flags &&& (levinPacketBegin ||| levinPacketEnd) =
      levinPacketBegin ||| levinPacketEnd) :
    e.handleBody (e.received c (fragment flags body) rest) body =
      if flags &&& levinPacketBegin ≠ 0 then
        e.handleFragments (e.received c (fragment flags body) rest) body
      else
        e.handleFragments (e.received c (fragment flags body) rest) (c.fragmentBuffer ++ body) := by
  have hisFragment : (e.received c (fragment flags body) rest).currentHead.isFragment = true :=
    decide_eq_true hfragment
  have hisNoise : (e.received c (fragment flags body) rest).currentHead.isNoise = false :=
    decide_eq_false hnoise
  rw [handleBody, hisFragment, hisNoise]
  rfl

/-- The first fragment starts the fragment buffer. -/
theorem handleBody_begin (body : Blob) :
    e.handleBody (e.received c (fragment levinPacketBegin body) rest) body =
      .go []
        { e.received c (fragment levinPacketBegin body) rest with fragmentBuffer := body } := by
  rw [handleBody_fragment body (by decide) (by decide)]
  exact if_pos (by decide : levinPacketBegin &&& levinPacketEnd = 0)

/-- A middle fragment is appended. -/
theorem handleBody_middle (body : Blob) :
    e.handleBody (e.received c (fragment 0 body) rest) body =
      .go [] { e.received c (fragment 0 body) rest with
        fragmentBuffer := c.fragmentBuffer ++ body } := by
  rw [handleBody_fragment body (by decide) (by decide)]
  exact if_pos (by decide : 0 &&& levinPacketEnd = 0)

/-- With the last fragment the inner message is dispatched. -/
theorem handleBody_end {inner : BucketHead2} (hinner : BucketHead2.ofBytes inner.toBytes = inner)
    (hall : c.fragmentBuffer ++ last = inner.toBytes ++ message) :
    e.handleBody (e.received c (fragment levinPacketEnd last) rest) last =
      e.dispatch { e.received c (fragment levinPacketEnd last) rest with
        fragmentBuffer := [], currentHead := inner } true message := by
  have hlong : ¬(c.fragmentBuffer ++ last).length < headSize := by
    rw [hall, length_append, length_toBytes]
    omega
  have hstep : e.handleBody (e.received c (fragment levinPacketEnd last) rest) last =
      if (c.fragmentBuffer ++ last).length < headSize then .halt []
      else e.dispatch ((e.received c (fragment levinPacketEnd last) rest).reassemble
        (c.fragmentBuffer ++ last)) true ((c.fragmentBuffer ++ last).drop headSize) := by
    rw [handleBody_fragment last (by decide) (by decide)]
    exact if_neg (by decide : ¬levinPacketEnd &&& levinPacketEnd = 0)
  rw [hstep, if_neg hlong, hall, Connection.reassemble]
  have htake : (inner.toBytes ++ message).take headSize = inner.toBytes := by
    rw [← length_toBytes inner, take_left]
  have hdrop : (inner.toBytes ++ message).drop headSize = message := by
    rw [← length_toBytes inner, drop_left]
  rw [htake, hdrop, hinner]

theorem run_dispatch {c₁ : Connection σ} (hturn : e.turn c₁ = e.dispatch c reassembled body)
    (hstate : c.state = .head) (hcache : c.cacheInBuffer = []) :
    (e.machine.run c₁).1.map Dispatch.message = [c.message body] := by
  rcases e.dispatch_cases c reassembled body with hhalt | ⟨context, hgo⟩
  · rw [e.machine.run_halt (hturn.trans hhalt)]
    rfl
  · have hwait : e.turn { c with context } = .wait := by
      simp only [hstate, hcache]
      rfl
    rw [e.machine.run_go (hturn.trans hgo), e.machine.run_wait hwait]
    rfl

/-- The fragments behind the first give one message. -/
theorem run_fragments (hsize : size < 2 ^ 64)
    (hinner : BucketHead2.ofBytes (makeHeader command cb levinPacketRequest false).toBytes =
      makeHeader command cb levinPacketRequest false) :
    ∀ {middle : List Blob} {c : Connection σ}, c.state = .head →
      c.cacheInBuffer = (middle.map (fragment 0) ++ [fragment levinPacketEnd last]).flatMap
        Packet.bytes →
      (∀ p ∈ middle.map (fragment 0) ++ [fragment levinPacketEnd last], p.Sized size) →
      e.Allows c 0 (size - headSize) →
      c.fragmentBuffer ++ middle.flatten ++ last =
        (makeHeader command cb levinPacketRequest false).toBytes ++ message →
      (e.machine.run c).1.map Dispatch.message =
        [⟨.notify, command, levinPacketRequest, 0, message⟩]
  | [], c, hstate, hcache, hsized, hallow, hall => by
    have hlast := hsized _ mem_cons_self
    have hlength := hlast.length
    have hbody : (fragment levinPacketEnd last).body.length = size - headSize := by omega
    have hcache' : c.cacheInBuffer = (fragment levinPacketEnd last).bytes ++ [] := by
      simpa using hcache
    obtain ⟨c₁, hrun, hturn⟩ := run_packet hlast hsize hstate hcache' (hbody ▸ hallow)
    have hall' : c.fragmentBuffer ++ last =
        (makeHeader command cb levinPacketRequest false).toBytes ++ message := by simpa using hall
    rw [hrun, run_dispatch (hturn.trans (handleBody_end hinner hall')) rfl rfl, message_request rfl]
  | body :: middle, c, hstate, hcache, hsized, hallow, hall => by
    have hfirst := hsized _ mem_cons_self
    have hlength := hfirst.length
    have hbody : (fragment 0 body).body.length = size - headSize := by omega
    obtain ⟨c₁, hrun, hturn⟩ := run_packet hfirst hsize hstate hcache (hbody ▸ hallow)
    rw [hrun, e.machine.run_go (hturn.trans (handleBody_middle body))]
    refine run_fragments hsize hinner rfl rfl (fun p hp => hsized p (mem_cons_of_mem _ hp))
      ⟨?_, hallow.command⟩ (by simpa using hall)
    exact le_packetLimit hallow.packet rfl rfl

/-- A notification in the buffer gives one message. -/
theorem run_notify {noise payload : Blob} {command : UInt32} {ps : List Packet}
    (hps : IsNotify noise command payload ps) (hsized : ∀ p ∈ ps, p.Sized size)
    (hsize : size < 2 ^ 64) (hpayload : payload.length < 2 ^ 64) (hstate : c.state = .head)
    (hcache : c.cacheInBuffer = ps.flatMap Packet.bytes)
    (hallow : e.Allows c (if payload.length ≤ noise.length - headSize then command.toNat else 0)
      (size - headSize)) :
    ∃ padding, padding <:+ noise ∧ (e.machine.run c).1.map Dispatch.message =
      [⟨.notify, command.toNat, levinPacketRequest, 0, payload ++ padding⟩] := by
  have hrequest : levinPacketRequest < 2 ^ 32 := by decide
  cases hps with
  | whole padding hshort hpadding =>
    rw [if_pos hshort] at hallow
    have hp := hsized _ mem_cons_self
    have hlength := hp.length
    have hbody : (⟨command.toNat, levinPacketRequest, payload ++ padding⟩ : Packet).body.length =
        size - headSize := by omega
    have hcache' : c.cacheInBuffer =
        (⟨command.toNat, levinPacketRequest, payload ++ padding⟩ : Packet).bytes ++ [] := by
      simpa using hcache
    obtain ⟨c₁, hrun, hturn⟩ := run_packet hp hsize hstate hcache'
      (hbody ▸ hallow)
    have hhandle : e.handleBody
        (e.received c ⟨command.toNat, levinPacketRequest, payload ++ padding⟩
        []) (payload ++ padding) = e.dispatch (e.received c
          ⟨command.toNat, levinPacketRequest,
            payload ++ padding⟩ []) false (payload ++ padding) := by
      have hfragment : (e.received c ⟨command.toNat, levinPacketRequest, payload ++ padding⟩
          []).currentHead.isFragment = false :=
        decide_eq_false (by decide : ¬levinPacketRequest &&&
          (levinPacketRequest ||| levinPacketResponse) = 0)
      rw [handleBody, hfragment]
      rfl
    refine ⟨padding, hpadding, ?_⟩
    rw [hrun, run_dispatch (hturn.trans hhandle) rfl rfl, message_request rfl]
  | fragmented first middle last padding hlong hpadding hall =>
    rw [if_neg hlong] at hallow
    have hp := hsized _ mem_cons_self
    have hlength := hp.length
    have hbody : (fragment levinPacketBegin first).body.length = size - headSize := by omega
    obtain ⟨c₁, hrun, hturn⟩ := run_packet hp hsize hstate hcache (hbody ▸ hallow)
    refine ⟨padding, hpadding, ?_⟩
    rw [hrun, e.machine.run_go (hturn.trans (handleBody_begin first))]
    refine run_fragments hsize (ofBytes_makeHeader command.toNat_lt hpayload hrequest) rfl rfl
      (fun p hp => hsized p (mem_cons_of_mem _ hp)) ⟨?_, hallow.command⟩
      (hall.trans (append_assoc _ _ _))
    exact le_packetLimit hallow.packet rfl rfl

theorem recvAll_nil : ∀ {chunks : List Blob} {c : Connection σ}, e.turn c = .wait →
    (e.machine.run (c.append chunks.flatten)).1 = [] → (e.recvAll c chunks).1 = []
  | [], _, _, _ => rfl
  | chunk :: chunks, c, hwait, hrun => by
    rw [recvAll, handleRecv]
    split_ifs
    · rfl
    · rcases e.run_append_chunk c chunk chunks.flatten with
        ⟨out, hchunk, hwhole⟩ | ⟨out, next, hchunk, hnext, hwhole⟩
      · rw [flatten_cons, hwhole] at hrun
        rw [hchunk]
        exact hrun
      · rw [flatten_cons, hwhole] at hrun
        obtain ⟨rfl, hrest⟩ := append_eq_nil_iff.mp hrun
        rw [hchunk]
        exact recvAll_nil hnext hrest
    · rfl

theorem dispatch_ne_go_nil : e.dispatch c reassembled body ≠ .go [] c' := by
  intro h
  rcases e.dispatch_cases c reassembled body with hhalt | ⟨context, hgo⟩
  · cases hhalt.symm.trans h
  · cases hgo.symm.trans h

theorem handleFragments_context (h : e.handleFragments c body = .go [] c') :
    c'.context = c.context := by
  unfold handleFragments at h
  split_ifs at h
  · cases h
    rfl
  · exact absurd h dispatch_ne_go_nil

theorem turn_context (h : e.turn c = .go [] c') : c'.context = c.context := by
  unfold turn at h
  cases hstate : c.state with
  | body =>
    simp only [hstate] at h
    split_ifs at h with hcb
    unfold handleBody at h
    split_ifs at h
    · exact absurd h dispatch_ne_go_nil
    · cases h
      rfl
    · exact handleFragments_context (c := c.carve c.currentHead.cb) h
    · exact handleFragments_context (c := c.carve c.currentHead.cb) h
  | head =>
    simp only [hstate] at h
    split_ifs at h with hshort
    unfold handleHead at h
    split_ifs at h
    cases h
    rfl

theorem context_of_run (h : e.machine.run c = ([], some c')) : c'.context = c.context := by
  induction c using e.machine.run_induction with
  | wait c hwait =>
    rw [e.machine.run_wait hwait] at h
    cases h
    rfl
  | halt c out hhalt =>
    rw [e.machine.run_halt hhalt] at h
    cases h
  | go c out next hgo ih =>
    rw [e.machine.run_go hgo] at h
    obtain ⟨hout, hlast⟩ := Prod.mk.inj h
    obtain ⟨rfl, hrest⟩ := append_eq_nil_iff.mp hout
    exact (ih (Prod.ext hrest hlast)).trans (turn_context hgo)

/-- However the bytes are cut, the one message is dispatched. -/
theorem recvAll_single {d : Dispatch} : ∀ {chunks : List Blob} {c : Connection σ},
    e.turn c = .wait → e.FitsAll c chunks → e.handler.closeCalled c.context = false →
    (e.machine.run (c.append chunks.flatten)).1 = [d] → (e.recvAll c chunks).1 = [d]
  | [], c, hwait, _, _, hrun => by
    have happend : c.append [] = c := by simp [Connection.append]
    rw [flatten_nil, happend, e.machine.run_wait hwait] at hrun
    cases hrun
  | chunk :: chunks, c, hwait, hfits, hopen, hrun => by
    obtain ⟨hfit, hrest⟩ := hfits
    rw [handleRecv_fits hopen (hfit hopen)] at hrest
    rw [recvAll, handleRecv_fits hopen (hfit hopen)]
    rcases e.run_append_chunk c chunk chunks.flatten with
      ⟨out, hchunk, hwhole⟩ | ⟨out, next, hchunk, hnext, hwhole⟩
    · rw [flatten_cons, hwhole] at hrun
      rw [hchunk]
      exact hrun
    · rw [flatten_cons, hwhole] at hrun
      rw [hchunk] at hrest ⊢
      rcases append_eq_singleton_iff.mp hrun with ⟨rfl, hlater⟩ | ⟨rfl, hlater⟩
      · have hcontext : next.context = (c.append chunk).context := context_of_run hchunk
        exact recvAll_single hnext hrest (hcontext ▸ hopen) hlater
      · simp only [recvAll_nil hnext hlater, append_nil]

end Receiving

/-- A header with the signature and as many bytes after it as it says. -/
structure IsComplete (piece : Blob) : Prop where
  header : headSize ≤ piece.length
  signature : (BucketHead2.ofBytes (piece.take headSize)).signature = levinSignature
  length : headSize + (BucketHead2.ofBytes (piece.take headSize)).cb = piece.length

theorem Packet.Sized.isComplete (h : p.Sized size) (hsize : size < 2 ^ 64) :
    IsComplete p.bytes := by
  have hhead := h.ofBytes hsize []
  have hlen := h.length
  rw [append_nil] at hhead
  refine ⟨?_, by rw [hhead]; rfl, ?_⟩
  · rw [h.length_bytes]
    omega
  · rw [hhead, h.length_bytes]
    exact hlen

theorem pieces_of_sized : ∀ {ps : List Packet}, (∀ p ∈ ps, p.Sized size) →
    (ps.flatMap Packet.bytes).length = ps.length * size ∧
      ∀ i (hi : i < ps.length),
        ((ps.flatMap Packet.bytes).drop (i * size)).take size = (ps.get ⟨i, hi⟩).bytes
  | [], _ => ⟨by simp, fun i hi => absurd hi (Nat.not_lt_zero i)⟩
  | p :: ps, hsized => by
    have hp := (hsized p mem_cons_self).length_bytes
    obtain ⟨hlen, hpieces⟩ := pieces_of_sized fun q hq => hsized q (mem_cons_of_mem p hq)
    constructor
    · rw [flatMap_cons, length_append, hp, hlen, length_cons, Nat.succ_mul,
        Nat.add_comm]
    · intro i hi
      cases i with
      | zero =>
        rw [flatMap_cons, Nat.zero_mul, drop_zero, ← hp, take_left]
        rfl
      | succ i =>
        have hdrop : (i + 1) * size = p.bytes.length + i * size := by
          rw [hp, Nat.succ_mul, Nat.add_comm]
        rw [flatMap_cons, hdrop, ← drop_drop, drop_left,
          hpieces i (Nat.lt_of_succ_lt_succ hi)]
        rfl

/-- A notification is sent as packets of the noise message's size, and received as one notification
with the payload and some padding, however the stream is cut. -/
theorem makeFragmentedNotify_received (noise payload : Blob) (command : UInt32)
    (hnoise : headSize * 2 ≤ noise.length) (hsize : noise.length < 2 ^ 64)
    (hpayload : payload.length < 2 ^ 64) :
    ∃ bytes, makeFragmentedNotify noise command payload = some bytes ∧
      (∃ k, 0 < k ∧ bytes.length = k * noise.length ∧
        ∀ i < k, IsComplete ((bytes.drop (i * noise.length)).take noise.length)) ∧
      ∀ {σ : Type} (e : Endpoint σ) (context : σ) (chunks : List Blob), chunks.flatten = bytes →
        e.handler.closeCalled context = false → e.FitsAll (e.start context) chunks →
        e.Allows (e.start context)
          (if payload.length ≤ noise.length - headSize then command.toNat else 0)
          (noise.length - headSize) →
        ∃ padding, padding <:+ noise ∧
          (e.recvAll (e.start context) chunks).1.map Dispatch.message =
            [⟨.notify, command.toNat, levinPacketRequest, 0, payload ++ padding⟩] := by
  obtain ⟨ps, hbytes, hne, hsized, hnotify⟩ := makeFragmentedNotify_eq command payload hnoise
  obtain ⟨hlen, hpieces⟩ := pieces_of_sized hsized
  refine ⟨_, hbytes, ⟨ps.length, length_pos_iff.mpr hne, hlen, fun i hi => ?_⟩, ?_⟩
  · rw [hpieces i hi]
    exact (hsized _ (get_mem ps ⟨i, hi⟩)).isComplete hsize
  · intro σ e context chunks hchunks hopen hfits hallow
    have hcache : ((e.start context).append chunks.flatten).cacheInBuffer =
        ps.flatMap Packet.bytes := by
      rw [hchunks]
      rfl
    have hallow' : e.Allows ((e.start context).append chunks.flatten)
        (if payload.length ≤ noise.length - headSize then command.toNat else 0)
        (noise.length - headSize) := ⟨hallow.packet, hallow.command⟩
    obtain ⟨padding, hpadding, hrun⟩ := run_notify hnotify hsized hsize hpayload rfl hcache hallow'
    refine ⟨padding, hpadding, ?_⟩
    obtain ⟨d, hd, hmessage⟩ := map_eq_singleton_iff.mp hrun
    rw [recvAll_single rfl hfits hopen hd, map_singleton, hmessage]

/-- A payload of 70 bytes with a noise message of 80, in chunks of 64. -/
theorem makeFragmentedNotify_received_chunks :
    let e : Endpoint Unit := { maxBytes := onConnectionNew, handler := taking }
    ∃ bytes, makeFragmentedNotify (replicate 80 0) 2002 (replicate 70 1) = some bytes ∧
      bytes.length = 3 * 80 ∧
      ∃ padding, padding <:+ replicate 80 0 ∧
        (e.recvAll (e.start ()) [bytes.take 64, (bytes.drop 64).take 64, bytes.drop 128]).1.map
            Dispatch.message =
          [⟨.notify, 2002, levinPacketRequest, 0, replicate 70 1 ++ padding⟩] := by
  intro e
  obtain ⟨bytes, hbytes, -, hreceived⟩ := makeFragmentedNotify_received (replicate 80 0)
    (replicate 70 1) 2002 (by decide) (by decide) (by decide)
  obtain rfl : (makeFragmentedNotify (replicate 80 0) 2002 (replicate 70 1)).getD [] =
      bytes := by rw [hbytes]; rfl
  refine ⟨_, hbytes, by decide +kernel, hreceived e () _ ?_ rfl (by decide +kernel) ⟨?_, ?_⟩⟩
  · decide +kernel
  · decide
  · decide

end Nerva.Levin
