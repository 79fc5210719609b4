import Mathlib.Algebra.Ring.Nat
import Nerva.Basic
import Nerva.Lib.Numerals
import Nerva.Lib.Resumable

/-!
# Levin connections

`async_protocol_handler::handle_recv`: bytes are appended to a buffer, from which packets are read,
each a header and a body. A packet that is neither a request nor a response is noise or a fragment.
What handles the messages is a state machine, which may also close the connection.
-/

namespace Nerva.Levin

open Numerals

def levinSignature : ℕ := 0x0101010101012101

def levinPacketRequest : ℕ := 1
def levinPacketResponse : ℕ := 2
def levinPacketBegin : ℕ := 4
def levinPacketEnd : ℕ := 8

def levinProtocolVer1 : ℕ := 1

structure BucketHead2 where
  signature : ℕ
  cb : ℕ
  haveToReturnData : Bool
  command : ℕ
  returnCode : ℕ
  flags : ℕ
  protocolVersion : ℕ
  deriving DecidableEq, Repr

def headSize : ℕ := 33

def BucketHead2.ofBytes (bytes : Blob) : BucketHead2 where
  signature := leNat (bytes.take 8)
  cb := leNat ((bytes.drop 8).take 8)
  haveToReturnData := leNat ((bytes.drop 16).take 1) ≠ 0
  command := leNat ((bytes.drop 17).take 4)
  returnCode := leNat ((bytes.drop 21).take 4)
  flags := leNat ((bytes.drop 25).take 4)
  protocolVersion := leNat ((bytes.drop 29).take 4)

def BucketHead2.isFragment (head : BucketHead2) : Bool :=
  head.flags &&& (levinPacketRequest ||| levinPacketResponse) = 0

def BucketHead2.isNoise (head : BucketHead2) : Bool :=
  head.flags &&& (levinPacketBegin ||| levinPacketEnd) = levinPacketBegin ||| levinPacketEnd

structure Config where
  maxPacketSize : ℕ := 100000000
  initialMaxPacketSize : ℕ := 256 * 1024
  deriving DecidableEq, Repr

def setMaxBytes (command bytes : ℕ) : List (ℕ × ℕ) → List (ℕ × ℕ)
  | [] => [(command, bytes)]
  | e :: rest => if e.1 = command then (e.1, bytes) :: rest else e :: setMaxBytes command bytes rest

def getMaxBytes (maxBytes : List (ℕ × ℕ)) (command : ℕ) : ℕ :=
  (maxBytes.lookup command).getD (2 ^ 64 - 1)

namespace Command

def handshake : ℕ := 1001
def timedSync : ℕ := 1002
def ping : ℕ := 1003
def requestSupportFlags : ℕ := 1007
def newBlock : ℕ := 2001
def newTransactions : ℕ := 2002
def requestGetObjects : ℕ := 2003
def responseGetObjects : ℕ := 2004
def requestChain : ℕ := 2006
def responseChainEntry : ℕ := 2007
def newFluffyBlock : ℕ := 2008
def requestFluffyMissingTx : ℕ := 2009

end Command

def onConnectionNew : List (ℕ × ℕ) :=
  [(Command.handshake, 65536), (Command.timedSync, 65536), (Command.ping, 4096),
    (Command.requestSupportFlags, 4096), (Command.newBlock, 1024 * 1024 * 128),
    (Command.newTransactions, 1024 * 1024 * 128), (Command.requestGetObjects, 1024 * 1024 * 2),
    (Command.responseGetObjects, 1024 * 1024 * 128), (Command.requestChain, 512 * 1024),
    (Command.responseChainEntry, 1024 * 1024 * 4), (Command.newFluffyBlock, 1024 * 1024 * 4),
    (Command.requestFluffyMissingTx, 1024 * 1024)].foldl
    (fun maxBytes limit => setMaxBytes limit.1 limit.2 maxBytes) []

inductive Kind
  | invoke
  | notify
  | response
  deriving DecidableEq, Repr

structure Message where
  kind : Kind
  command : ℕ
  flags : ℕ
  returnCode : ℕ
  body : Blob
  deriving DecidableEq, Repr

/-- A message that was handed on, whether it came in fragments, and the connection's packet limit at
that time. -/
structure Dispatch where
  message : Message
  reassembled : Bool
  maxPacketSize : ℕ
  deriving DecidableEq, Repr

/-- The command handler together with the waiting invokes. A message is handled, or the connection
is refused: its answer cannot be sent, or it is a response and no invoke waits for one. -/
structure CommandsHandler (σ : Type) where
  handshakeComplete : σ → Bool
  closeCalled : σ → Bool
  handle : σ → Message → σ × Bool

inductive StreamState
  | head
  | body
  deriving DecidableEq, Repr

structure Connection (σ : Type) where
  cacheInBuffer : Blob := []
  fragmentBuffer : Blob := []
  state : StreamState := .head
  currentHead : BucketHead2 := ⟨0, 0, false, 0, 0, 0, 0⟩
  oponentProtocolVer : ℕ := 0
  maxPacketSize : ℕ
  context : σ

namespace Connection

variable {σ : Type} (c : Connection σ)

def append (bytes : Blob) : Connection σ :=
  { c with cacheInBuffer := c.cacheInBuffer ++ bytes }

def carve (n : ℕ) : Connection σ :=
  { c with state := .head, cacheInBuffer := c.cacheInBuffer.drop n }

def erase (n : ℕ) : Connection σ :=
  { c with cacheInBuffer := c.cacheInBuffer.drop n }

def reassemble (fragments : Blob) : Connection σ :=
  { c with fragmentBuffer := [], currentHead := .ofBytes (fragments.take headSize) }

def message (body : Blob) : Message :=
  let head := c.currentHead
  let isResponse : Bool :=
    c.oponentProtocolVer = levinProtocolVer1 && head.flags &&& levinPacketResponse ≠ 0
  let kind : Kind :=
    if isResponse then .response else if head.haveToReturnData then .invoke else .notify
  ⟨kind, head.command, head.flags, head.returnCode, body⟩

def size : ℕ :=
  2 * c.cacheInBuffer.length + match c.state with
    | .head => 0
    | .body => 1

end Connection

structure Endpoint (σ : Type) where
  config : Config := {}
  maxBytes : List (ℕ × ℕ)
  handler : CommandsHandler σ

namespace Endpoint

variable {σ : Type} (e : Endpoint σ)

def start (context : σ) : Connection σ where
  maxPacketSize := e.config.initialMaxPacketSize
  context := context

variable (c : Connection σ)

def dispatch (reassembled : Bool) (body : Blob) : Machine.Step (Connection σ) Dispatch :=
  let out : List Dispatch := [⟨c.message body, reassembled, c.maxPacketSize⟩]
  match e.handler.handle c.context (c.message body) with
  | (context, true) => .go out { c with context }
  | (_, false) => .halt out

/-- The fragments up to this packet's. After the last of them there is a message. -/
def handleFragments (fragments : Blob) : Machine.Step (Connection σ) Dispatch :=
  if c.currentHead.flags &&& levinPacketEnd = 0 then .go [] { c with fragmentBuffer := fragments }
  else if fragments.length < headSize then .halt []
  else e.dispatch (c.reassemble fragments) true (fragments.drop headSize)

def handleBody (body : Blob) : Machine.Step (Connection σ) Dispatch :=
  if !c.currentHead.isFragment then e.dispatch c false body
  else if c.currentHead.isNoise then .go [] c
  else if c.currentHead.flags &&& levinPacketBegin ≠ 0 then e.handleFragments c body
  else e.handleFragments c (c.fragmentBuffer ++ body)

def packetLimit : ℕ :=
  if e.handler.handshakeComplete c.context then e.config.maxPacketSize else c.maxPacketSize

def handleHead (head : BucketHead2) : Machine.Step (Connection σ) Dispatch :=
  if head.signature ≠ levinSignature then .halt []
  else if min (e.packetLimit c) (getMaxBytes e.maxBytes head.command) < head.cb then .halt []
  else
    .go []
      { c with
        state := .body
        currentHead := head
        oponentProtocolVer := head.protocolVersion
        maxPacketSize := e.packetLimit c }

def turn : Machine.Step (Connection σ) Dispatch :=
  match c.state with
  | .body =>
    if c.cacheInBuffer.length < c.currentHead.cb then .wait
    else e.handleBody (c.carve c.currentHead.cb) (c.cacheInBuffer.take c.currentHead.cb)
  | .head =>
    if c.cacheInBuffer.length < headSize then
      if 8 ≤ c.cacheInBuffer.length ∧ leNat (c.cacheInBuffer.take 8) ≠ levinSignature then .halt []
      else .wait
    else e.handleHead (c.erase headSize) (.ofBytes (c.cacheInBuffer.take headSize))

end Endpoint

namespace Endpoint

variable {σ : Type} {e : Endpoint σ} {c c' : Connection σ} {out : List Dispatch} {body : Blob}

theorem dispatch_append (reassembled : Bool) (body b : Blob) :
    e.dispatch (c.append b) reassembled body =
      (e.dispatch c reassembled body).map (·.append b) := by
  have hmessage : (c.append b).message body = c.message body := rfl
  have hcontext : (c.append b).context = c.context := rfl
  unfold dispatch
  rw [hmessage, hcontext]
  rcases e.handler.handle c.context (c.message body) with ⟨context, _ | _⟩
  · rfl
  · rfl

theorem handleFragments_append (fragments b : Blob) :
    e.handleFragments (c.append b) fragments =
      (e.handleFragments c fragments).map (·.append b) := by
  have hhead : (c.append b).currentHead = c.currentHead := rfl
  unfold handleFragments
  rw [hhead]
  split_ifs
  · rfl
  · rfl
  · exact dispatch_append (c := c.reassemble fragments) true _ b

theorem handleBody_append (body b : Blob) :
    e.handleBody (c.append b) body = (e.handleBody c body).map (·.append b) := by
  have hhead : (c.append b).currentHead = c.currentHead := rfl
  unfold handleBody
  rw [hhead]
  split_ifs
  · exact dispatch_append false body b
  · rfl
  · exact handleFragments_append body b
  · exact handleFragments_append _ b

theorem handleHead_append (head : BucketHead2) (b : Blob) :
    e.handleHead (c.append b) head = (e.handleHead c head).map (·.append b) := by
  have hlimit : e.packetLimit (c.append b) = e.packetLimit c := rfl
  unfold handleHead
  rw [hlimit]
  split_ifs <;> rfl

/-- More bytes do not change a turn that is not waiting for them. -/
theorem turn_append (b : Blob) (h : e.turn c ≠ .wait) :
    e.turn (c.append b) = (e.turn c).map (·.append b) := by
  have hlen : (c.append b).cacheInBuffer.length = c.cacheInBuffer.length + b.length :=
    List.length_append
  have htake : ∀ n ≤ c.cacheInBuffer.length,
      (c.append b).cacheInBuffer.take n = c.cacheInBuffer.take n := fun n hn =>
    List.take_append_of_le_length hn
  have hcarve : ∀ n ≤ c.cacheInBuffer.length, (c.append b).carve n = (c.carve n).append b := by
    intro n hn
    unfold Connection.carve Connection.append
    simp only [List.drop_append_of_le_length hn]
  have herase : ∀ n ≤ c.cacheInBuffer.length, (c.append b).erase n = (c.erase n).append b := by
    intro n hn
    unfold Connection.erase Connection.append
    simp only [List.drop_append_of_le_length hn]
  have hstate : (c.append b).state = c.state := rfl
  have hhead : (c.append b).currentHead = c.currentHead := rfl
  unfold turn at h ⊢
  rw [hstate, hhead]
  cases hs : c.state with
  | body =>
    simp only [hs] at h ⊢
    split_ifs at h with hcb
    · exact absurd rfl h
    · rw [if_neg (by omega), if_neg hcb, htake _ (Nat.le_of_not_lt hcb),
        hcarve _ (Nat.le_of_not_lt hcb)]
      exact handleBody_append _ b
  | head =>
    simp only [hs] at h ⊢
    split_ifs at h with hshort hbad
    · -- the first eight bytes are enough to see that the signature is wrong
      have hsignature : (BucketHead2.ofBytes
          ((c.append b).cacheInBuffer.take headSize)).signature ≠ levinSignature := by
        unfold BucketHead2.ofBytes
        simp only [List.take_take]
        rw [Nat.min_eq_left (by decide), htake 8 hbad.1]
        exact hbad.2
      rw [if_pos hshort, if_pos hbad]
      split_ifs with hshort' hbad'
      · rfl
      · rw [htake 8 hbad.1] at hbad'
        exact absurd ⟨by omega, hbad.2⟩ hbad'
      · unfold handleHead
        rw [if_pos hsignature]
        rfl
    · exact absurd rfl h
    · rw [if_neg (by omega), if_neg hshort, htake _ (Nat.le_of_not_lt hshort),
        herase _ (Nat.le_of_not_lt hshort)]
      exact handleHead_append _ b

theorem dispatch_cases (e : Endpoint σ) (c : Connection σ) (reassembled : Bool) (body : Blob) :
    e.dispatch c reassembled body = .halt [⟨c.message body, reassembled, c.maxPacketSize⟩] ∨
      ∃ context, e.dispatch c reassembled body =
        .go [⟨c.message body, reassembled, c.maxPacketSize⟩] { c with context } := by
  unfold dispatch
  rcases e.handler.handle c.context (c.message body) with ⟨context, _ | _⟩
  · exact .inl rfl
  · exact .inr ⟨context, rfl⟩

theorem dispatch_go {reassembled : Bool} (h : e.dispatch c reassembled body = .go out c') :
    ∃ context, c' = { c with context } := by
  rcases e.dispatch_cases c reassembled body with hhalt | ⟨context, hgo⟩
  · rw [hhalt] at h
    cases h
  · rw [hgo] at h
    cases h
    exact ⟨context, rfl⟩

theorem handleFragments_go {fragments : Blob} (h : e.handleFragments c fragments = .go out c') :
    c'.cacheInBuffer = c.cacheInBuffer ∧ c'.state = c.state := by
  unfold handleFragments at h
  split_ifs at h
  · cases h
    exact ⟨rfl, rfl⟩
  · obtain ⟨context, rfl⟩ := dispatch_go h
    exact ⟨rfl, rfl⟩

theorem handleBody_go (h : e.handleBody c body = .go out c') :
    c'.cacheInBuffer = c.cacheInBuffer ∧ c'.state = c.state := by
  unfold handleBody at h
  split_ifs at h
  · obtain ⟨context, rfl⟩ := dispatch_go h
    exact ⟨rfl, rfl⟩
  · cases h
    exact ⟨rfl, rfl⟩
  · exact handleFragments_go h
  · exact handleFragments_go h

theorem turn_size (h : e.turn c = .go out c') : c'.size < c.size := by
  unfold turn at h
  unfold Connection.size
  cases hs : c.state with
  | body =>
    simp only [hs] at h
    split_ifs at h with hcb
    obtain ⟨hcache, hstate⟩ := handleBody_go h
    rw [hcache, hstate]
    simp only [Connection.carve, List.length_drop]
    omega
  | head =>
    simp only [hs] at h
    split_ifs at h with hshort
    unfold handleHead at h
    split_ifs at h
    cases h
    have : headSize = 33 := rfl
    simp only [Connection.erase, List.length_drop]
    omega

def machine (e : Endpoint σ) : Machine (Connection σ) Dispatch UInt8 where
  step := e.turn
  feed := Connection.append
  size := Connection.size
  feed_feed c a b := by simp [Connection.append]
  size_lt := turn_size
  step_feed := turn_append

structure Fits (c : Connection σ) (chunk : Blob) : Prop where
  cache : c.cacheInBuffer.length ≤ c.maxPacketSize
  fragment : c.fragmentBuffer.length ≤ c.maxPacketSize - c.cacheInBuffer.length
  chunk : chunk.length ≤
    c.maxPacketSize - c.cacheInBuffer.length - c.fragmentBuffer.length

instance (c : Connection σ) (chunk : Blob) : Decidable (Fits c chunk) :=
  decidable_of_iff (c.cacheInBuffer.length ≤ c.maxPacketSize ∧
      c.fragmentBuffer.length ≤ c.maxPacketSize - c.cacheInBuffer.length ∧
      chunk.length ≤ c.maxPacketSize - c.cacheInBuffer.length - c.fragmentBuffer.length)
    ⟨fun h => ⟨h.1, h.2.1, h.2.2⟩, fun h => ⟨h.1, h.2, h.3⟩⟩

/-- `handle_recv`: what it dispatches, and the connection unless that is refused. -/
def handleRecv (e : Endpoint σ) (c : Connection σ) (chunk : Blob) :
    List Dispatch × Option (Connection σ) :=
  if e.handler.closeCalled c.context then ([], none)
  else if Fits c chunk then e.machine.run (c.append chunk)
  else ([], none)

def recvAll (e : Endpoint σ) : Connection σ → List Blob → List Dispatch × Option (Connection σ)
  | c, [] => ([], some c)
  | c, chunk :: chunks =>
    match e.handleRecv c chunk with
    | (out, none) => (out, none)
    | (out, some c') => (out ++ (recvAll e c' chunks).1, (recvAll e c' chunks).2)

end Endpoint

def BucketHead2.toBytes (head : BucketHead2) : Blob :=
  leBytes 8 head.signature ++ leBytes 8 head.cb ++ leBytes 1 head.haveToReturnData.toNat ++
    leBytes 4 head.command ++ leBytes 4 head.returnCode ++ leBytes 4 head.flags ++
    leBytes 4 head.protocolVersion

def makeHeader (command msgSize flags : ℕ) (expectResponse : Bool) : BucketHead2 :=
  ⟨levinSignature, msgSize, expectResponse, command, 0, flags, levinProtocolVer1⟩

/-- The loop of `make_fragmented_notify`: the fragments after the first one, and how much of the
payload is in the last. Every fragment takes some of the payload, so its length bounds the loop. -/
def appendFragments (payloadSpace : ℕ) : (fuel : ℕ) → (payload : Blob) → (copySize : ℕ) → Blob × ℕ
  | 0, _, copySize => ([], copySize)
  | fuel + 1, payload, copySize =>
    if payload = [] then ([], copySize)
    else
      let copied := payload.take payloadSpace
      let rest := payload.drop payloadSpace
      let flags := if rest = [] then levinPacketEnd else 0
      let (buffer, copySize) := appendFragments payloadSpace fuel rest copied.length
      ((makeHeader 0 payloadSpace flags false).toBytes ++ copied ++ buffer, copySize)

def paddingBytes (noiseMessage : Blob) (padding : ℕ) : Blob :=
  noiseMessage.drop (noiseMessage.length - padding)

/-- `make_fragmented_notify`; none is the null slice. -/
def makeFragmentedNotify (noiseMessage : Blob) (command : UInt32) (payload : Blob) : Option Blob :=
  let noiseSize := noiseMessage.length
  if noiseSize < headSize * 2 then none
  else if payload.length ≤ noiseSize - headSize then
    let padding := noiseSize - headSize - payload.length
    let head := makeHeader command.toNat (noiseSize - headSize) levinPacketRequest false
    some (head.toBytes ++ payload ++ paddingBytes noiseMessage padding)
  else
    let payloadSpace := noiseSize - headSize
    let first := (makeHeader 0 payloadSpace levinPacketBegin false).toBytes ++
      (makeHeader command.toNat payload.length levinPacketRequest false).toBytes ++
      payload.take (payloadSpace - headSize)
    let rest := payload.drop (payloadSpace - headSize)
    let (buffer, copySize) := appendFragments payloadSpace payload.length rest
      (payload.take (payloadSpace - headSize)).length
    some (first ++ buffer ++ paddingBytes noiseMessage (noiseSize - copySize - headSize))

end Nerva.Levin
