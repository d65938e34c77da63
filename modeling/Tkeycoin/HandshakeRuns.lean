import Tkeycoin.Handshake

/-! Where in its stream a connection stands, during the handshake and behind it. -/
namespace Tkeycoin

section Ahead

variable {magic : MessageHeader → Bool} {command : String} {length : ℕ → Bool} {data payload : Bytes}
  {msgHeader : MessageHeader}

/-- What a message that was found says about the data. -/
theorem ahead_message (h : ahead magic command length data = .message msgHeader payload) :
    MessageHeader.HEADER_SIZE + msgHeader._length.toNat ≤ data.length ∧
      msgHeader = MessageHeader.Unserialize (data.take MessageHeader.HEADER_SIZE) ∧
      magic msgHeader = true ∧ isCommand msgHeader.command command = true ∧
      length msgHeader._length.toNat = true ∧
      payload = (data.drop MessageHeader.HEADER_SIZE).take msgHeader._length.toNat := by
  unfold ahead at h
  dsimp only at h
  split_ifs at h with hheader hmagic hcommand hlength hpayload
  obtain ⟨rfl,rfl⟩ := Ahead.message.inj h
  exact ⟨Nat.le_of_not_lt hpayload,rfl,by simpa using hmagic,by simpa using hcommand,
    by simpa using hlength,rfl⟩

end Ahead

namespace PeerConnection

/-- A connection in the handshake. -/
structure Waiting (stream : Bytes) (c : PeerConnection) : Prop where
  transport : c._transport ≠ .pipe
  handover : c.handover = none
  handed : c.handed = []
  within : c.position ≤ stream.length
  buffer : c._inBuff = stream.drop c.position
  pending : ∀ context, c._context = some context → context._established = false

/-- A connection behind the handshake: the pipe cuts the rest of the stream. -/
structure HandedOver (pipe : MsgPipe.Node (Message × IStream)) (stream : Bytes) (c : PeerConnection)
    (h : Handover) : Prop where
  transport : c._transport = .pipe
  handover : c.handover = some h
  within : h.pipeAt ≤ stream.length
  messages : ∀ m, c.handed ++ (MsgPipe.framing pipe).ahead (MsgPipe.stops pipe)
      (MsgPipe.view c.toTcpConnection) m =
    (MsgPipe.framing pipe).accepted (MsgPipe.stops pipe) [] (stream.drop h.pipeAt ++ m)

/-- One or the other, with what is known about the end of the handshake. -/
def Stands (pipe : MsgPipe.Node (Message × IStream)) (Fact : Bytes → Handover → Prop) (stream : Bytes)
    (c : PeerConnection) : Prop :=
  c.Waiting stream ∨ ∃ h, c.HandedOver pipe stream h ∧ Fact stream h

variable {stream : Bytes} {c : PeerConnection}

namespace Waiting

variable (hc : c.Waiting stream)
include hc

theorem feed (segment : Bytes) : ({ c with _inBuff := c._inBuff ++ segment } : PeerConnection).Waiting
    (stream ++ segment) where
  transport := hc.transport
  handover := hc.handover
  handed := hc.handed
  within := by
    have := hc.within
    simp only [List.length_append]
    omega
  buffer := by
    rw [List.drop_append_of_le_length hc.within,← hc.buffer]
  pending := hc.pending

theorem skip (size : ℕ) (h : size ≤ c._inBuff.length) : (c.skip size).Waiting stream where
  transport := hc.transport
  handover := hc.handover
  handed := hc.handed
  within := by
    have := hc.within
    rw [hc.buffer,List.length_drop] at h
    change c.position + size ≤ _
    omega
  buffer := by
    change c._inBuff.drop size = stream.drop (c.position + size)
    rw [hc.buffer,List.drop_drop]
  pending := hc.pending

theorem setTtl (ttl : ℕ) : (c.setTtl ttl).Waiting stream :=
  ⟨hc.transport,hc.handover,hc.handed,hc.within,hc.buffer,hc.pending⟩

theorem resetContext : c.resetContext.Waiting stream :=
  ⟨hc.transport,hc.handover,hc.handed,hc.within,hc.buffer,nofun⟩

theorem withContext : c.withContext.Waiting stream where
  transport := hc.transport
  handover := hc.handover
  handed := hc.handed
  within := hc.within
  buffer := hc.buffer
  pending := by
    intro context h
    cases hold : c._context with
    | none =>
      rw [PeerConnection.withContext,hold] at h
      rw [← Option.some.inj h]
      rfl
    | some old =>
      rw [PeerConnection.withContext,hold] at h
      rw [← Option.some.inj h]
      exact hc.pending old hold

theorem setRemoteVersion (version : Option Version) :
    ({ c with _remoteVersionMessage := version } : PeerConnection).Waiting stream :=
  ⟨hc.transport,hc.handover,hc.handed,hc.within,hc.buffer,hc.pending⟩

/-- The pipe starts with what the buffer holds. -/
theorem setEstablished (pipe : MsgPipe.Node (Message × IStream)) (messageAt : ℕ) (header : MessageHeader)
    (hcontext : c._context.isSome) :
    (MsgContext.setEstablished pipe messageAt header c).1.HandedOver pipe stream
      ⟨messageAt,header,c.position⟩ where
  transport := rfl
  handover := rfl
  within := hc.within
  messages := by
    intro m
    obtain ⟨context,hsome⟩ := Option.isSome_iff_exists.mp hcontext
    have hsteps := MsgPipe.processing_steps pipe
      { c.toTcpConnection with _context := c._context.map fun _ => ⟨true,none⟩ }
    have hahead := Framing.steps_handed_ahead hsteps m
    have hstart : MsgPipe.view { c.toTcpConnection with _context := c._context.map fun _ => ⟨true,none⟩ } =
        ⟨[],stream.drop c.position,false⟩ := by
      simp [MsgPipe.view,hsome,hc.handed,hc.buffer]
    rw [hstart] at hahead
    exact hahead

end Waiting

/-- A read by the pipe. -/
theorem HandedOver.feed {pipe : MsgPipe.Node (Message × IStream)} {h : Handover}
    (hc : c.HandedOver pipe stream h) (segment : Bytes) :
    ({ c with toTcpConnection := MsgPipe.readFromSocket pipe c.toTcpConnection segment } :
      PeerConnection).HandedOver pipe (stream ++ segment) h where
  transport := hc.transport
  handover := hc.handover
  within := by
    have := hc.within
    simp only [List.length_append]
    omega
  messages := by
    intro m
    have hsteps := MsgPipe.read_steps pipe c.toTcpConnection segment
    have hahead := Framing.steps_handed_ahead hsteps m
    rw [Framing.feed_ahead] at hahead
    rw [List.drop_append_of_le_length hc.within,List.append_assoc,← hc.messages]
    exact hahead

section Runs

variable {pipe : MsgPipe.Node (Message × IStream)} {Fact : Bytes → Handover → Prop}
  {serve : PeerConnection → PeerConnection × MsgPipe.Outcome}

/-- A read keeps the place in the stream if the handshake does. -/
theorem Stands.readFromSocket (hfact : ∀ {stream h} m, Fact stream h → Fact (stream ++ m) h)
    (hserve : ∀ {stream c}, c.Waiting stream → Stands pipe Fact stream (serve c).1)
    (hc : Stands pipe Fact stream c) (segment : Bytes) :
    Stands pipe Fact (stream ++ segment) (c.readFromSocket serve pipe segment) := by
  rcases hc with hc | ⟨h,hc,hf⟩
  · have hfeed := hc.feed segment
    unfold PeerConnection.readFromSocket
    dsimp only
    split_ifs
    · split
      · rename_i htransport
        exact absurd htransport hc.transport
      · exact hserve hfeed
    · exact .inl hfeed
  · refine .inr ⟨h,?_,hfact segment hf⟩
    have hfeed := hc.feed segment
    have hread : c.readFromSocket serve pipe segment =
        { c with toTcpConnection := MsgPipe.readFromSocket pipe c.toTcpConnection segment } := by
      unfold PeerConnection.readFromSocket MsgPipe.readFromSocket
      dsimp only
      split_ifs
      · rw [hc.transport]
      · rfl
    rwa [hread]

/-- The place in the stream over all the ways it is split. -/
theorem Stands.foldl (hfact : ∀ {stream h} m, Fact stream h → Fact (stream ++ m) h)
    (hserve : ∀ {stream c}, c.Waiting stream → Stands pipe Fact stream (serve c).1)
    (segments : List Bytes) (hc : Stands pipe Fact stream c) :
    Stands pipe Fact (stream ++ segments.flatten)
      (segments.foldl (PeerConnection.readFromSocket serve pipe) c) := by
  induction segments generalizing stream c with
  | nil => simpa using hc
  | cons segment segments ih =>
    have hread := hc.readFromSocket hfact hserve segment
    rw [List.flatten_cons,← List.append_assoc]
    exact ih hread

end Runs

end PeerConnection

/-- The message that ended the handshake stands in the stream where the record says. -/
structure Handover.Recorded (command : String) (stream : Bytes) (h : Handover) : Prop where
  header : h.header = MessageHeader.Unserialize ((stream.drop h.messageAt).take MessageHeader.HEADER_SIZE)
  command : isCommand h.header.command command = true
  within : h.messageAt + MessageHeader.HEADER_SIZE + h.header._length.toNat ≤ stream.length

theorem Handover.Recorded.append {command : String} {stream : Bytes} {h : Handover}
    (hr : h.Recorded command stream) (m : Bytes) : h.Recorded command (stream ++ m) where
  header := by
    have := hr.within
    rw [List.drop_append_of_le_length (by omega),MsgPipe.header_append m (by rw [List.length_drop]; omega)]
    exact hr.header
  command := hr.command
  within := by
    have := hr.within
    simp only [List.length_append]
    omega

/-- The header of a message found ahead can be skipped, and its payload behind it. -/
theorem PeerConnection.Waiting.skipped {stream payload : Bytes} {c : PeerConnection}
    {magic : MessageHeader → Bool} {command : String} {length : ℕ → Bool} {msgHeader : MessageHeader}
    (hc : c.Waiting stream) (h : ahead magic command length c._inBuff = .message msgHeader payload) :
    (c.skip MessageHeader.HEADER_SIZE).Waiting stream ∧
      ((c.skip MessageHeader.HEADER_SIZE).skip msgHeader._length.toNat).Waiting stream := by
  obtain ⟨hlen,-⟩ := ahead_message h
  have hheader := hc.skip MessageHeader.HEADER_SIZE (by omega)
  refine ⟨hheader,hheader.skip msgHeader._length.toNat ?_⟩
  change _ ≤ (c._inBuff.drop MessageHeader.HEADER_SIZE).length
  rw [List.length_drop]
  omega

/-- A message found ahead of a waiting connection stands in the stream at its position. -/
theorem PeerConnection.Waiting.recorded {stream payload : Bytes} {c : PeerConnection}
    {magic : MessageHeader → Bool} {command : String} {length : ℕ → Bool} {msgHeader : MessageHeader}
    (hc : c.Waiting stream) (h : ahead magic command length c._inBuff = .message msgHeader payload)
    (pipeAt : ℕ) : Handover.Recorded command stream ⟨c.position,msgHeader,pipeAt⟩ := by
  obtain ⟨hlen,hheader,-,hcommand,-,-⟩ := ahead_message h
  rw [hc.buffer] at hlen hheader
  have := hc.within
  rw [List.length_drop] at hlen
  have hsize : 0 < MessageHeader.HEADER_SIZE := by decide
  exact ⟨hheader,hcommand,by change c.position + _ + msgHeader._length.toNat ≤ _; omega⟩

end Tkeycoin
