import Tkeycoin.HandshakeRuns

/-! What the pipe is left with when the handshake is over, on both sides. -/
namespace Tkeycoin

open PeerConnection

namespace MsgServer

variable (runtime : Runtime) (handler : Option MsgPipe.Handler)

/-- The pipe of an incoming connection. -/
def pipe : MsgPipe.Node (Message × IStream) := MsgPipe.node runtime (handler.getD fun _ => ⟨false,false⟩)

/-- An accepted version message, and that the pipe goes on behind its header. -/
structure Accepted (stream : Bytes) (h : Handover) : Prop extends h.Recorded "version" stream where
  sized : Version.sized h.header._length.toNat = true
  pipeAt : h.pipeAt = h.messageAt + MessageHeader.HEADER_SIZE

/-- The pipe goes on right behind the version message. -/
def MessageConsumed (h : Handover) : Prop :=
  h.pipeAt = h.messageAt + (MessageHeader.HEADER_SIZE + h.header._length.toNat)

variable {runtime handler}

theorem processing_stands {stream : Bytes} {c : PeerConnection} (hc : c.Waiting stream) :
    Stands (pipe runtime handler) Accepted stream (processing runtime handler c).1 := by
  have hc := hc.withContext
  unfold processing
  dsimp only
  split_ifs
  · exact .inl hc
  · split
    · exact .inl (hc.setTtl 5000)
    · exact .inl (hc.setTtl 5000)
    · exact .inl (hc.resetContext.setTtl 50)
    · exact .inl (hc.resetContext.setTtl 50)
    · exact .inl (hc.setTtl 50)
    · exact .inl (hc.setTtl 50)
    · rename_i msgHeader payload hahead
      obtain ⟨-,-,-,-,hsized,-⟩ := ahead_message hahead
      obtain ⟨hskip,-⟩ := hc.skipped hahead
      split
      · exact .inl hskip
      · split
        · exact .inl (hskip.resetContext.setTtl 50)
        · exact .inr ⟨_,hskip.setEstablished _ _ _ rfl,hc.recorded hahead _,hsized,rfl⟩

theorem receive_stands (segments : List Bytes) :
    Stands (pipe runtime handler) Accepted segments.flatten (receive runtime handler segments) := by
  have hstart : Stands (pipe runtime handler) Accepted [] start :=
    .inl ⟨nofun,rfl,rfl,le_rfl,rfl,nofun⟩
  exact hstart.foldl (fun m h => ⟨h.toRecorded.append m,h.sized,h.pipeAt⟩) processing_stands segments

/-- Where the server accepts a version message, its header is in the stream at the place
recorded, all of its payload is there, and the pipe takes the payload for messages. -/
theorem accepted_of_handover {segments : List Bytes} {h : Handover}
    (hh : (receive runtime handler segments).handover = some h) : Accepted segments.flatten h ∧
      (receive runtime handler segments).handed <+:
        (MsgPipe.framing (pipe runtime handler)).accepted (MsgPipe.stops (pipe runtime handler)) []
          (segments.flatten.drop (h.messageAt + MessageHeader.HEADER_SIZE)) := by
  rcases receive_stands segments with hc | ⟨h',hc,haccepted⟩
  · rw [hc.handover] at hh
    contradiction
  · obtain rfl : h' = h := Option.some.inj (hc.handover.symm.trans hh)
    have hmessages := hc.messages []
    rw [List.append_nil,haccepted.pipeAt] at hmessages
    exact ⟨haccepted,_,hmessages⟩

/-- Over all streams and all the ways they are split, no accepted version message is consumed:
its payload has at least the least size, and is left to the pipe. -/
theorem version_never_consumed (runtime : Runtime) (handler : Option MsgPipe.Handler)
    (segments : List Bytes) (h : Handover)
    (hh : (receive runtime handler segments).handover = some h) : ¬ MessageConsumed h := by
  obtain ⟨haccepted,-⟩ := accepted_of_handover hh
  intro hconsumed
  have hsized := haccepted.sized
  rw [Version.sized,decide_eq_true_iff,not_or] at hsized
  have hmin : 0 < Version.MIN_MESSAGE_SIZE := by decide
  rw [MessageConsumed,haccepted.pipeAt] at hconsumed
  omega

/-- A version message of the least size, of zeros behind a header with their checksum. -/
def zeroVersion : Bytes :=
  [0xaa,0xaf,0xfe,0x34,118,101,114,115,105,111,110,0,0,0,0,0,94,0,0,0,0x76,0x93,0xd1,0x15] ++ List.replicate 94 0

theorem zeroVersion_handover :
    (receive MsgPipe.plainRuntime (some fun _ => ⟨false,false⟩) [zeroVersion]).handover =
      some ⟨0,⟨0x34FEAFAA,[118,101,114,115,105,111,110,0,0,0,0,0],94,0x15d19376⟩,24⟩ := by
  decide +kernel

theorem version_never_consumed_zeroVersion :
    ¬ MessageConsumed ⟨0,⟨0x34FEAFAA,[118,101,114,115,105,111,110,0,0,0,0,0],94,0x15d19376⟩,24⟩ :=
  version_never_consumed _ _ _ _ zeroVersion_handover

/-- A version message of zeros is accepted and its payload is not skipped. -/
theorem accepted_not_consumed :
    ¬ ∀ (runtime : Runtime) (handler : Option MsgPipe.Handler) (segments : List Bytes) (h : Handover),
      (receive runtime handler segments).handover = some h → MessageConsumed h := by
  intro hall
  have hconsumed := hall _ _ _ _ zeroVersion_handover
  exact absurd hconsumed (by unfold MessageConsumed; decide)

end MsgServer

namespace MsgClient

/-- The pipe of an outgoing connection. -/
def pipe (runtime : Runtime) (handlers : Handlers) : MsgPipe.Node (Message × IStream) :=
  MsgPipe.node runtime (handle handlers)

/-- The verack message, and that the pipe goes on behind it. -/
structure Completed (stream : Bytes) (h : Handover) : Prop extends h.Recorded "verack" stream where
  pipeAt : h.pipeAt = h.messageAt + (MessageHeader.HEADER_SIZE + h.header._length.toNat)

section Runs

variable {runtime : Runtime} {handlers : Handlers} {stream : Bytes} {c : PeerConnection}

theorem counterVersion_waiting (runtime : Runtime) (hc : c.Waiting stream) : (counterVersion runtime c).1.Waiting stream := by
  unfold counterVersion
  split
  · exact hc
  · exact hc.setTtl 50
  · exact hc.setTtl 50
  · exact hc.setTtl 50
  · exact hc.setTtl 50
  · exact hc.setTtl 5000
  · rename_i msgHeader payload hahead
    obtain ⟨hheader,hpayload⟩ := hc.skipped hahead
    dsimp only
    split
    · exact hheader
    · split_ifs
      · exact hpayload.setTtl 50
      · exact hpayload.setTtl 50
      · exact hpayload.setRemoteVersion _
      · exact hheader

theorem counterVersion_context (runtime : Runtime) (c : PeerConnection) :
    (counterVersion runtime c).1._context = c._context := by
  unfold counterVersion
  split
  · rfl
  · rfl
  · rfl
  · rfl
  · rfl
  · rfl
  · dsimp only
    split
    · rfl
    · split_ifs <;> rfl

theorem waitVerack_stands (hc : c.Waiting stream) (hcontext : c._context.isSome) :
    Stands (pipe runtime handlers) Completed stream (waitVerack runtime handlers c).1 := by
  unfold waitVerack
  split
  · exact .inl hc
  · exact .inl (hc.setTtl 50)
  · exact .inl (hc.setTtl 50)
  · exact .inl (hc.setTtl 50)
  · exact .inl (hc.setTtl 50)
  · exact .inl (hc.setTtl 5000)
  · rename_i msgHeader payload hahead
    obtain ⟨hheader,hpayload⟩ := hc.skipped hahead
    dsimp only
    split
    · exact .inl hheader
    · split_ifs
      · refine .inr ⟨_,hpayload.setEstablished _ _ _ hcontext,hc.recorded hahead _,?_⟩
        exact Nat.add_assoc c.position _ _
      · exact .inl hheader

theorem processing_stands (hc : c.Waiting stream) :
    Stands (pipe runtime handlers) Completed stream (processing runtime handlers c).1 := by
  have hc := hc.withContext
  unfold processing
  dsimp only
  split_ifs
  · exact .inl hc
  · exact waitVerack_stands hc rfl
  · have hversion := counterVersion_waiting runtime hc
    have hcontext := counterVersion_context runtime c.withContext
    split
    · rename_i c' outcome heq
      rw [heq] at hversion
      exact .inl hversion
    · rename_i c' heq
      rw [heq] at hversion hcontext
      exact waitVerack_stands hversion (by rw [hcontext]; rfl)

theorem receive_stands (localVersion : Version) (segments : List Bytes) :
    Stands (pipe runtime handlers) Completed segments.flatten
      (receive runtime handlers localVersion segments) := by
  have hstart : Stands (pipe runtime handlers) Completed [] (start localVersion) := by
    refine .inl ⟨nofun,rfl,rfl,le_rfl,rfl,?_⟩
    rintro context ⟨⟩
    rfl
  exact hstart.foldl (fun m h => ⟨h.toRecorded.append m,h.pipeAt⟩) processing_stands segments

/-- Behind the verack message the messages of the stream are handed on in order. -/
theorem completed_of_handover {localVersion : Version} {segments : List Bytes} {h : Handover}
    (hh : (receive runtime handlers localVersion segments).handover = some h) :
    Completed segments.flatten h ∧
      (receive runtime handlers localVersion segments).handed <+:
        (MsgPipe.framing (pipe runtime handlers)).accepted (MsgPipe.stops (pipe runtime handlers)) []
          (segments.flatten.drop h.pipeAt) := by
  rcases receive_stands localVersion segments with hc | ⟨h',hc,hcompleted⟩
  · rw [hc.handover] at hh
    contradiction
  · obtain rfl : h' = h := Option.some.inj (hc.handover.symm.trans hh)
    have hmessages := hc.messages []
    rw [List.append_nil] at hmessages
    exact ⟨hcompleted,_,hmessages⟩

end Runs

section Calls

variable (handlers : Handlers)

/-- Each message handed to the context goes to one of the two handlers. -/
theorem calls_length (handed : List (Handed (Message × IStream))) :
    (calls handlers .onSuccess handed).length + (calls handlers .protocol handed).length =
      handed.length := by
  have hone (l : List ℕ) (hl : ∀ i ∈ l, i < handed.length) :
      (l.flatMap fun i => if installed handlers (handed.take i) = .onSuccess
        then handed[i]?.toList else []).length +
      (l.flatMap fun i => if installed handlers (handed.take i) = .protocol
        then handed[i]?.toList else []).length = l.length := by
    induction l with
    | nil => rfl
    | cons i l ih =>
      have hrest := ih fun j hj => hl j (List.mem_cons_of_mem i hj)
      have hi : handed[i]?.toList.length = 1 := by
        rw [List.getElem?_eq_getElem (hl i List.mem_cons_self)]
        rfl
      cases hinstalled : installed handlers (handed.take i) <;>
        simp only [List.flatMap_cons,hinstalled,reduceCtorEq,if_true,if_false,List.length_append,
          List.length_cons,List.length_nil,hi] <;> omega
  have hall := hone (List.range handed.length) fun i hi => List.mem_range.mp hi
  rwa [List.length_range] at hall

theorem flatMap_getElem? {α : Type} (l : List α) :
    (List.range l.length).flatMap (fun i => l[i]?.toList) = l := by
  induction l with
  | nil => rfl
  | cons a l ih =>
    rw [List.length_cons,List.range_succ_eq_map,List.flatMap_cons,List.flatMap_map]
    exact congrArg (a :: ·) ih

/-- If the handler for success does not throw at the first message, it is the only one it gets,
and the protocol gets the others. -/
theorem calls_eq (handed : List (Handed (Message × IStream)))
    (hreturns : ∀ f, (handlers.onSuccess [f]).throws = false) :
    calls handlers .onSuccess handed = handed.take 1 ∧ calls handlers .protocol handed = handed.tail := by
  cases handed with
  | nil => exact ⟨rfl,rfl⟩
  | cons f l =>
    have hinstalled (i : ℕ) (hi : i ∈ List.range l.length) :
        installed handlers ((f :: l).take (i + 1)) = .protocol := by
      rw [installed,if_pos]
      refine List.any_eq_true.mpr ⟨0,?_,?_⟩
      · simp
      · simp [hreturns]
    have hstart : installed handlers ((f :: l).take 0) = .onSuccess := rfl
    have hrest (which : Installed) :
        (List.range l.length).flatMap (fun i => if installed handlers ((f :: l).take (i + 1)) = which
          then (f :: l)[i + 1]?.toList else []) = if .protocol = which then l else [] := by
      rw [List.flatMap_congr fun i hi => by rw [hinstalled i hi]]
      split_ifs
      · exact flatMap_getElem? l
      · simp
    unfold calls
    simp only [List.length_cons,List.range_succ_eq_map,List.flatMap_cons,List.flatMap_map,hstart,
      Nat.succ_eq_add_one,hrest]
    exact ⟨rfl,rfl⟩

end Calls

/-- The handler for success was called once, and that of the protocol for all later messages. -/
def Delivered (runtime : Runtime) (handlers : Handlers) (later : Bytes) (c : PeerConnection) : Prop :=
  (calls handlers .onSuccess c.handed).length = 1 ∧
    calls handlers .protocol c.handed =
      (MsgPipe.framing (pipe runtime handlers)).accepted (MsgPipe.stops (pipe runtime handlers)) [] later

/-- The one call for success takes a message from the protocol. -/
theorem not_delivered {runtime : Runtime} {handlers : Handlers} {later : Bytes} {c : PeerConnection}
    (h : c.handed <+: (MsgPipe.framing (pipe runtime handlers)).accepted
      (MsgPipe.stops (pipe runtime handlers)) [] later) : ¬ Delivered runtime handlers later c := by
  rintro ⟨honce,hall⟩
  have hprefix := h.length_le
  have hcalls := calls_length handlers c.handed
  rw [← hall] at hprefix
  omega

/-- A peer's version message of the least size, with the nonce 1. -/
def peerVersion : Bytes :=
  [0xaa,0xaf,0xfe,0x34,118,101,114,115,105,111,110,0,0,0,0,0,94,0,0,0,0xf9,0xcf,0x39,0xb2,0x80,0x38,0x01,0x00] ++
    List.replicate 68 0 ++ [1] ++ List.replicate 21 0

/-- Its verack message, with no chains. -/
def peerVerack : Bytes :=
  [0xaa,0xaf,0xfe,0x34,118,101,114,97,99,107,0,0,0,0,0,0,1,0,0,0,0x14,0x06,0xe0,0x58,0]

/-- Its first message behind the handshake: a `ping`. -/
def peerPing : Bytes :=
  [0xaa,0xaf,0xfe,0x34,112,105,110,103,0,0,0,0,0,0,0,0,8,0,0,0,0x7e,0xf0,0xca,0x62] ++ List.replicate 8 0

/-- A version message of this node, with the nonce 0. -/
def ownVersion : Version := ⟨80000,0,0,⟨0,0,[],0⟩,⟨0,0,[],0⟩,0,[],0,1⟩

/-- Handlers that do nothing to the connection. -/
def quietHandlers : Handlers := ⟨fun _ => ⟨false,false⟩,fun _ => ⟨false,false⟩⟩

theorem peerPing_handover :
    (receive MsgPipe.plainRuntime quietHandlers ownVersion [peerVersion ++ peerVerack,peerPing]).handover =
      some ⟨118,⟨0x34FEAFAA,[118,101,114,97,99,107,0,0,0,0,0,0],1,0x58e00614⟩,143⟩ := by
  decide +kernel

end MsgClient
end Tkeycoin
