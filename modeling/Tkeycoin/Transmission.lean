import Tkeycoin.MessageWriting

/-! Messages that are sent over an established connection, from `transmit` on one side to the handler on the
other. -/
namespace Tkeycoin
namespace MsgPipe

section Settling

variable {Msg : Type} {node : Node Msg}

/-- Unless the handler throws, the loop leaves nothing that could be taken. -/
theorem loop_settled (hthrows : ∀ handed, (node.handle handed).throws = false) (fuel : ℕ)
    {c : TcpConnection Msg} (hopen : c._context.isNone = true → c._inBuff = [])
    (hfuel : c._inBuff.length < fuel) : (framing node).Settled (view (loop node fuel c).1) := by
  induction fuel generalizing c with
  | zero => contradiction
  | succ fuel ih =>
    rw [loop]
    cases hcut : (framing node).cut c._inBuff with
    | more =>
      obtain ⟨houtcome,hview,-⟩ := round_more hcut
      rw [show round node c = ((round node c).1,some .returned) from Prod.ext rfl houtcome]
      simp only [hview]
      exact .inr hcut
    | bad =>
      obtain ⟨houtcome,hview⟩ := round_bad hcut
      rw [show round node c = ((round node c).1,some .returned) from Prod.ext rfl houtcome]
      simp only [hview]
      exact .inl rfl
    | frame a rest =>
      have hsome : c._context.isNone = false := by
        by_contra hclosed
        rw [hopen (by simpa using hclosed),framing_cut_nil] at hcut
        contradiction
      obtain ⟨houtcome,hview⟩ := round_frame hsome hcut
      have hnext : (round node c).2 = none := by rw [houtcome,hthrows]; rfl
      have hbuffer : (round node c).1._inBuff = if stops node (c.handed ++ [a]) then [] else rest :=
        congrArg Receiver.buffer hview
      have hclosed : (round node c).1._context.isNone = stops node (c.handed ++ [a]) :=
        congrArg Receiver.closed hview
      rw [show round node c = ((round node c).1,none) from Prod.ext rfl hnext]
      apply ih
      · rw [hclosed,hbuffer]
        exact fun hstops => if_pos hstops
      · have hshorter := (framing node).shorter hcut
        rw [hbuffer]
        split_ifs
        · simp only [List.length_nil]
          omega
        · omega

theorem read_settled (hthrows : ∀ handed, (node.handle handed).throws = false) {c : TcpConnection Msg}
    (hc : Established c) (segment : Bytes) : (framing node).Settled (view (readFromSocket node c segment)) := by
  unfold readFromSocket processing
  dsimp only
  split_ifs with hbuffer
  · cases hcontext : c._context with
    | none => exact .inl rfl
    | some context =>
      simp only [hc context hcontext,not_true_eq_false,if_false]
      exact loop_settled hthrows _ nofun (Nat.lt_succ_self _)
  · refine .inr ?_
    have hnil : c._inBuff ++ segment = [] := List.length_eq_zero_iff.mp (Nat.eq_zero_of_not_pos hbuffer)
    change (framing node).cut (c._inBuff ++ segment) = .more
    rw [hnil,framing_cut_nil]

/-- Unless the handler throws, all the frames at the front of the stream are handed on, however it is
split. -/
theorem handed_all (hthrows : ∀ handed, (node.handle handed).throws = false) (segments : List Bytes) :
    (receive node segments).handed = (framing node).accepted (stops node) [] segments.flatten := by
  have hsettled (c : TcpConnection Msg) (l : List Bytes) (hc : Established c)
      (h : (framing node).Settled (view c)) :
      (framing node).Settled (view (l.foldl (readFromSocket node) c)) := by
    induction l generalizing c with
    | nil => exact h
    | cons segment l ih => exact ih _ (read_established hc segment) (read_settled hthrows hc segment)
  have hstart : Established (established : TcpConnection Msg) := by
    rintro context ⟨⟩
    rfl
  have hend := hsettled established segments hstart (.inr (framing_cut_nil node))
  have h := (receives node established segments).handed_ahead
  rw [hend.ahead_nil,List.append_nil] at h
  exact h

end Settling

end MsgPipe

namespace Message

/-- The header of a message, from `buildHeader`. -/
def header (m : Message) : MessageHeader := buildHeader m.name [m.serialize]

/-- What `MsgContext::transmit` puts into the connection. -/
def transmit (m : Message) : Bytes := m.header.serialize ++ m.serialize

/-- The length of the payload fits into its field. -/
def Short (m : Message) : Prop := m.serialize.length < 2^32

theorem header_eq (m : Message) : m.header = .make Magic.main m.name (UInt64.ofNat m.serialize.length)
    (payloadChecksum m.serialize) := by
  rw [header,buildHeader_eq,List.flatten_singleton]

theorem header_known (m : Message) : m.header.knownMagic = true := by
  rw [header_eq]
  rfl

theorem header_command (m : Message) : m.header.command = m.name := by
  rw [header_eq]
  exact MessageHeader.filter_padded ⟨m.name,m.name_fits⟩

theorem header_field (m : Message) : m.header._command.length = 12 := by
  have hfits := m.name_fits.2
  rw [header_eq,MessageHeader.make,List.length_append,List.length_replicate]
  omega

theorem header_size (m : Message) : m.header.serialize.length = MessageHeader.HEADER_SIZE := by
  simp [MessageHeader.serialize,Serialization.uint32,header_field,MessageHeader.HEADER_SIZE]

theorem header_length {m : Message} (h : m.Short) : m.header._length.toNat = m.serialize.length := by
  have hlt : m.serialize.length < 2^32 := h
  rw [header_eq,MessageHeader.make,UInt64.toNat_toUInt32,UInt64.toNat_ofNat']
  omega

theorem header_checksum (m : Message) : payloadChecksum m.serialize = m.header._checksum := by
  rw [header_eq]
  rfl

section Receiving

variable {Msg : Type} {node : MsgPipe.Node Msg}

/-- The header and the payload at the front of a stream. -/
theorem transmit_front {m : Message} (h : m.Short) (rest : Bytes) :
    MessageHeader.HEADER_SIZE + m.header._length.toNat ≤ (m.transmit ++ rest).length ∧
      m.header = MessageHeader.Unserialize ((m.transmit ++ rest).take MessageHeader.HEADER_SIZE) ∧
      m.serialize = ((m.transmit ++ rest).drop MessageHeader.HEADER_SIZE).take m.header._length.toNat ∧
      rest = (m.transmit ++ rest).drop (MessageHeader.HEADER_SIZE + m.header._length.toNat) := by
  have hsize := m.header_size
  have hlength := header_length h
  rw [hlength,transmit,List.append_assoc]
  refine ⟨?_,(MessageHeader.Unserialize_serialize m.header_field _).symm,?_,?_⟩
  · simp only [List.length_append,hsize]
    omega
  · rw [← hsize,List.drop_left,List.take_left]
  · rw [← hsize,← List.drop_drop,List.drop_left,List.drop_left]

/-- A message that is created of its payload is cut from the stream. -/
theorem cut_transmit {m : Message} (h : m.Short) {msg : Msg}
    (hcreate : node.create m.name m.serialize = some msg) (rest : Bytes) :
    (MsgPipe.framing node).cut (m.transmit ++ rest) = .frame ⟨m.header,m.serialize,msg⟩ rest := by
  obtain ⟨hlength,hheader,hpayload,hrest⟩ := transmit_front h rest
  refine MsgPipe.cut_frame.mpr ⟨hlength,hheader,m.header_known,hpayload,?_,hrest⟩
  rw [header_command]
  exact hcreate

/-- One that is not created ends the stream. -/
theorem cut_transmit_bad {m : Message} (h : m.Short) (hcreate : node.create m.name m.serialize = none)
    (rest : Bytes) : (MsgPipe.framing node).cut (m.transmit ++ rest) = .bad := by
  obtain ⟨hlength,hheader,hpayload,-⟩ := transmit_front h rest
  refine MsgPipe.cut_bad.mpr ⟨by omega,.inr ?_⟩
  simp only [← hheader,← hpayload,header_command]
  exact ⟨hlength,hcreate⟩

end Receiving

/-- A sound message is decoded of all of its payload. -/
theorem decode_sound {runtime : Runtime} {m : Message} (h : m.Sound runtime.fits)
    (hlogs : runtime.logs m = true) : runtime.decode m.name m.serialize = some (m,⟨[],false,0⟩) := by
  have hrun := reader_reads h runtime.memory [] 0
  rw [List.append_nil] at hrun
  have hdecode : Reader.run runtime.memory (m.reader runtime.fits) (.ofBytes m.serialize) =
      some (m,⟨[],false,0⟩) := hrun
  simp only [Runtime.decode,create_name,bind,Option.bind_some,hdecode,hlogs,if_true]

/-- What arrives of the messages that one side sends, however the bytes are split on the way: a prefix of
them with the headers they were sent with, each intact, and nothing else, whatever the handler does. All of
them arrive as they were sent, if they are sound and the handler leaves the connection alone. -/
theorem arrives (runtime : Runtime) (handle : MsgPipe.Handler) (sent : List Message) (segments : List Bytes)
    (hshort : ∀ m ∈ sent, m.Short) (hstream : segments.flatten = sent.flatMap transmit) :
    ((MsgPipe.receive (MsgPipe.node runtime handle) segments).handed.map fun f => (f.header,f.payload)) <+:
        (sent.map fun m => (m.header,m.serialize)) ∧
      (∀ f ∈ (MsgPipe.receive (MsgPipe.node runtime handle) segments).handed, f.Intact) ∧
      ((∀ m ∈ sent, m.Sound runtime.fits ∧ runtime.logs m = true) →
        (∀ handed, (handle handed).closes = false ∧ (handle handed).throws = false) →
        (MsgPipe.receive (MsgPipe.node runtime handle) segments).handed =
          sent.map fun m => ⟨m.header,m.serialize,(m,⟨[],false,0⟩)⟩) := by
  have hfront : (MsgPipe.receive (MsgPipe.node runtime handle) segments).handed <+: _ := MsgPipe.prefix_handed segments
  rw [hstream] at hfront
  have hsent : ((MsgPipe.receive (MsgPipe.node runtime handle) segments).handed.map
      fun f => (f.header,f.payload)) <+: (sent.map fun m => (m.header,m.serialize)) := by
    refine (hfront.map _).trans (Framing.accepted_prefix (fun m hm rest => ?_) [])
    cases hcreate : (MsgPipe.node runtime handle).create m.name m.serialize with
    | none => exact .inl (cut_transmit_bad (hshort m hm) hcreate rest)
    | some msg => exact .inr ⟨_,cut_transmit (hshort m hm) hcreate rest,rfl⟩
  refine ⟨hsent,fun f hf => ?_,fun hsound hquiet => ?_⟩
  · obtain ⟨m,-,hm⟩ := List.mem_map.mp (hsent.subset (List.mem_map_of_mem hf))
    obtain ⟨hheader,hpayload⟩ := Prod.mk.inj hm
    rw [Handed.Intact,← hheader,← hpayload,header_checksum]
  · rw [MsgPipe.handed_all fun handed => (hquiet handed).2,hstream]
    apply Framing.accepted_codes fun handed => (hquiet handed).1
    intro m hm rest
    exact cut_transmit (hshort m hm) (decode_sound (hsound m hm).1 (hsound m hm).2) rest

/-- A `ping` and a `getaddr`, cut within the first. -/
theorem arrives_ping : (MsgPipe.receive (MsgPipe.node MsgPipe.plainRuntime fun _ => ⟨false,false⟩)
    [(transmit (.ping 7)).take 10,(transmit (.ping 7)).drop 10 ++ transmit .getAddr]).handed =
      [⟨header (.ping 7),serialize (.ping 7),(.ping 7,⟨[],false,0⟩)⟩,
        ⟨header .getAddr,serialize .getAddr,(.getAddr,⟨[],false,0⟩)⟩] :=
  (arrives MsgPipe.plainRuntime (fun _ => ⟨false,false⟩) [.ping 7,.getAddr] _
    (by simp [Short,serialize,Serialization.uint64])
    (by simp [← List.append_assoc])).2.2 (by simp [Sound,MsgPipe.plainRuntime]) fun _ => ⟨rfl,rfl⟩

end Message
end Tkeycoin
