import Tkeycoin.MsgPipe

/-! What an established connection hands on over all the ways its stream is split. -/
namespace Tkeycoin
namespace MsgPipe

variable {Msg : Type} (node : Node Msg)

/-- The handler that closes the connection ends the stream. -/
def stops (handed : List (Handed Msg)) : Bool := (node.handle handed).closes

/-- A connection as a receiver of frames. -/
def view (c : TcpConnection Msg) : Receiver (Handed Msg) UInt8 := ⟨c.handed,c._inBuff,c._context.isNone⟩

/-- A context stands as `setEstablished` left it. -/
def Established (c : TcpConnection Msg) : Prop := ∀ context, c._context = some context → context._established = true

section Round

variable {node} {c : TcpConnection Msg}

theorem drop_established (ttl : ℕ) : Established (c.drop ttl) := by
  intro context h
  contradiction

theorem setMessage_established (h : Established c) (f : Handed Msg) : Established (c.setMessage f) := by
  intro context hcontext
  obtain ⟨old,hold,rfl⟩ := Option.map_eq_some_iff.mp hcontext
  exact h old hold

theorem resetMessage_established (h : Established c) : Established c.resetMessage := by
  intro context hcontext
  obtain ⟨old,hold,rfl⟩ := Option.map_eq_some_iff.mp hcontext
  exact h old hold

theorem round_more (h : cut node c._inBuff = .more) :
    (round node c).2 = some .returned ∧ view (round node c).1 = view c ∧
      (round node c).1._context = c._context := by
  have hmore := cut_more h
  unfold cut at h
  dsimp only at h
  unfold round
  dsimp only
  split_ifs at h with hlen hmagic hpayload
  · rw [if_pos hlen]
    split_ifs <;> exact ⟨rfl,rfl,rfl⟩
  · rw [if_neg hlen,if_neg (by simp [hmagic]),if_pos hpayload]
    exact ⟨rfl,rfl,rfl⟩
  · split at h <;> contradiction

/-- The checksum compared is read from the header twice. -/
theorem checksum_eq {l : Bytes} : (MessageHeader.Unserialize (l.take MessageHeader.HEADER_SIZE))._checksum =
    UInt32.ofNat (leValue ((l.drop MessageHeader.CHECKSUM_OFFSET).take 4)) := by
  simp [MessageHeader.Unserialize,MessageHeader.HEADER_SIZE,MessageHeader.CHECKSUM_OFFSET,
    List.drop_take,List.take_take]

theorem round_bad (h : cut node c._inBuff = .bad) :
    (round node c).2 = some .returned ∧ view (round node c).1 = ⟨c.handed,[],true⟩ := by
  obtain ⟨hhead,hbad⟩ := cut_bad.mp h
  unfold round
  dsimp only
  rw [if_neg (by omega)]
  rcases hbad with hmagic | ⟨hpayload,hcreate⟩
  · rw [if_pos (by simp [hmagic])]
    exact ⟨rfl,rfl⟩
  · rw [if_neg (by omega : ¬ c._inBuff.length < MessageHeader.HEADER_SIZE + _),if_neg (not_not.mpr checksum_eq)]
    simp only [hcreate]
    split_ifs <;> exact ⟨rfl,rfl⟩

/-- A frame goes to the handler whatever its checksum. -/
theorem round_frame_eq {a : Handed Msg} {rest : Bytes} (h : cut node c._inBuff = .frame a rest) :
    round node c = dispatch node { c with _inBuff := c._inBuff.drop MessageHeader.HEADER_SIZE } a := by
  obtain ⟨hlen,hheader,hmagic,hpayload,hcreate,-⟩ := cut_frame.mp h
  obtain ⟨header,payload,msg⟩ := a
  simp only at hlen hheader hmagic hpayload hcreate
  subst hheader
  subst hpayload
  unfold round
  dsimp only
  rw [if_neg (by omega),if_neg (by simp [hmagic]),if_neg (by omega),if_neg (not_not.mpr checksum_eq)]
  simp only [hcreate]

theorem dispatch_outcome (f : Handed Msg) :
    (dispatch node c f).2 = if (node.handle (c.handed ++ [f])).throws then some .exception else none := by
  unfold dispatch
  dsimp only [TcpConnection.setMessage]
  split_ifs <;> rfl

theorem dispatch_view (node : Node Msg) (hopen : c._context.isNone = false) (f : Handed Msg) :
    view (dispatch node c f).1 =
      Framing.take (stops node) (view c) f (c._inBuff.drop f.header._length.toNat) := by
  cases hcloses : (node.handle (c.handed ++ [f])).closes <;>
    cases hthrows : (node.handle (c.handed ++ [f])).throws <;>
    simp [dispatch,TcpConnection.setMessage,view,Framing.take,stops,hcloses,hthrows,TcpConnection.drop,
      TcpConnection.resetMessage,hopen]

theorem dispatch_established (h : Established c) (f : Handed Msg) : Established (dispatch node c f).1 := by
  have hset := setMessage_established h f
  unfold dispatch
  dsimp only
  split_ifs
  · exact drop_established 50
  · exact hset
  · exact resetMessage_established (drop_established 50)
  · exact resetMessage_established hset

theorem round_frame {a : Handed Msg} {rest : Bytes} (hopen : c._context.isNone = false)
    (h : cut node c._inBuff = .frame a rest) :
    (round node c).2 = (if (node.handle (c.handed ++ [a])).throws then some .exception else none) ∧
      view (round node c).1 = Framing.take (stops node) (view c) a rest := by
  rw [round_frame_eq h]
  obtain ⟨-,-,-,-,-,rfl⟩ := cut_frame.mp h
  refine ⟨dispatch_outcome a,?_⟩
  have hview := dispatch_view node
    (c := { c with _inBuff := c._inBuff.drop MessageHeader.HEADER_SIZE }) hopen a
  rw [hview,List.drop_drop]
  rfl

theorem round_established (node : Node Msg) (h : Established c) : Established (round node c).1 := by
  cases hcut : cut node c._inBuff with
  | more =>
    intro context hcontext
    rw [(round_more hcut).2.2] at hcontext
    exact h context hcontext
  | bad =>
    have hclosed := congrArg Receiver.closed (round_bad hcut).2
    intro context hcontext
    rw [view,hcontext] at hclosed
    contradiction
  | frame a rest =>
    rw [round_frame_eq hcut]
    exact dispatch_established (c := { c with _inBuff := c._inBuff.drop MessageHeader.HEADER_SIZE }) h a

end Round

section Runs

variable {node}

/-- Rounds are steps of the receiver. -/
theorem loop_steps (fuel : ℕ) (c : TcpConnection Msg) (hopen : c._context.isNone = true → c._inBuff = []) :
    Relation.ReflTransGen ((framing node).Step (stops node)) (view c) (view (loop node fuel c).1) := by
  induction fuel generalizing c with
  | zero => exact .refl
  | succ fuel ih =>
    rw [loop]
    cases hcut : (framing node).cut c._inBuff with
    | more =>
      obtain ⟨houtcome,hview,-⟩ := round_more hcut
      rw [show round node c = ((round node c).1,some .returned) from Prod.ext rfl houtcome]
      rw [hview]
    | bad =>
      obtain ⟨houtcome,hview⟩ := round_bad hcut
      rw [show round node c = ((round node c).1,some .returned) from Prod.ext rfl houtcome]
      rw [hview]
      refine .single (.bad ?_ hcut)
      by_contra hclosed
      rw [hopen (by simpa [view] using hclosed),framing_cut_nil] at hcut
      contradiction
    | frame a rest =>
      have hsome : c._context.isNone = false := by
        by_contra hclosed
        rw [hopen (by simpa using hclosed),framing_cut_nil] at hcut
        contradiction
      obtain ⟨houtcome,hview⟩ := round_frame hsome hcut
      have hstep : (framing node).Step (stops node) (view c) (view (round node c).1) := by
        rw [hview]
        exact .frame hsome hcut
      cases hnext : (round node c).2 with
      | some outcome =>
        rw [show round node c = ((round node c).1,some outcome) from Prod.ext rfl hnext]
        exact .single hstep
      | none =>
        rw [show round node c = ((round node c).1,none) from Prod.ext rfl hnext]
        refine .head hstep (ih _ fun hclosed => ?_)
        have hclosed' : (view (round node c).1).closed = true := hclosed
        have hbuffer : (view (round node c).1).buffer = [] := by
          rw [hview] at hclosed' ⊢
          exact if_pos hclosed'
        exact hbuffer

theorem processing_steps (node : Node Msg) (c : TcpConnection Msg) :
    Relation.ReflTransGen ((framing node).Step (stops node)) (view c) (view (processing node c).1) := by
  unfold processing
  cases hcontext : c._context with
  | none => exact .refl
  | some context =>
    simp only
    split_ifs with hestablished
    · exact loop_steps _ c (by simp [hcontext])
    · exact .refl

/-- A read is steps of the receiver behind the segment. -/
theorem read_steps (node : Node Msg) (c : TcpConnection Msg) (segment : Bytes) :
    Relation.ReflTransGen ((framing node).Step (stops node)) (Framing.feed (view c) segment)
      (view (readFromSocket node c segment)) := by
  unfold readFromSocket
  dsimp only
  split_ifs
  · exact processing_steps node { c with _inBuff := c._inBuff ++ segment }
  · exact .refl

/-- A connection is a receiver of the segments read. -/
theorem receives (node : Node Msg) (c : TcpConnection Msg) (segments : List Bytes) :
    (framing node).Receives (stops node) (view c) segments
      (view (segments.foldl (readFromSocket node) c)) := by
  induction segments generalizing c with
  | nil => exact .nil _
  | cons segment segments ih => exact .cons (read_steps node c segment) (ih _)

/-- The messages handed on are those at the front of the stream, however it is split. -/
theorem prefix_handed (segments : List Bytes) :
    (receive node segments).handed <+: (framing node).accepted (stops node) [] segments.flatten := by
  have h := (receives node established segments).handed_ahead
  exact ⟨_,h⟩

/-- What an empty buffer leaves. -/
theorem loop_nil (fuel : ℕ) {c : TcpConnection Msg} (h : c._inBuff = []) :
    view (loop node (fuel+1) c).1 = view c := by
  have hcut : (framing node).cut c._inBuff = .more := by rw [h,framing_cut_nil]
  obtain ⟨houtcome,hview,-⟩ := round_more hcut
  rw [loop,show round node c = ((round node c).1,some .returned) from Prod.ext rfl houtcome]
  exact hview

/-- A byte read by an open connection that had nothing to take leaves nothing to take. -/
theorem read_byte_settled {c : TcpConnection Msg} (hc : Established c)
    (hsettled : (framing node).Settled (view c)) (byte : UInt8) :
    (framing node).Settled (view (readFromSocket node c [byte])) := by
  unfold readFromSocket processing
  dsimp only
  rw [if_pos (by simp)]
  cases hcontext : c._context with
  | none =>
    simp only
    exact .inl rfl
  | some context =>
    simp only [hc context hcontext,not_true_eq_false,if_false]
    have hmore : (framing node).cut c._inBuff = .more := by
      rcases hsettled with hclosed | hmore
      · rw [view,hcontext] at hclosed
        contradiction
      · exact hmore
    generalize hc₁ : ({ c with _inBuff := c._inBuff ++ [byte], _context := some context } : TcpConnection Msg) = c₁
    have hbuff : c₁._inBuff = c._inBuff ++ [byte] := by rw [← hc₁]
    have hopen : c₁._context.isNone = false := by rw [← hc₁]; rfl
    rw [show (c._inBuff ++ [byte]).length + 1 = (c._inBuff.length + 1) + 1 by simp,loop]
    cases hcut : (framing node).cut c₁._inBuff with
    | more =>
      obtain ⟨houtcome,hview,-⟩ := round_more hcut
      rw [show round node c₁ = ((round node c₁).1,some .returned) from Prod.ext rfl houtcome]
      simp only [hview]
      exact .inr hcut
    | bad =>
      obtain ⟨houtcome,hview⟩ := round_bad hcut
      rw [show round node c₁ = ((round node c₁).1,some .returned) from Prod.ext rfl houtcome]
      simp only [hview]
      exact .inl rfl
    | frame a rest =>
      obtain ⟨-,hview⟩ := round_frame hopen hcut
      -- the byte was the last of the frame
      obtain rfl : rest = [] := (framing node).last_completes hmore (hbuff ▸ hcut)
      have hbuffer : (round node c₁).1._inBuff = [] := (congrArg Receiver.buffer hview).trans (ite_self _)
      have hsettled' : (framing node).Settled (view (round node c₁).1) :=
        .inr (by rw [view,hbuffer,framing_cut_nil])
      cases hnext : (round node c₁).2 with
      | some outcome =>
        rw [show round node c₁ = ((round node c₁).1,some outcome) from Prod.ext rfl hnext]
        exact hsettled'
      | none =>
        rw [show round node c₁ = ((round node c₁).1,none) from Prod.ext rfl hnext]
        simp only [loop_nil _ hbuffer]
        exact hsettled'

theorem loop_established (fuel : ℕ) {c : TcpConnection Msg} (h : Established c) :
    Established (loop node fuel c).1 := by
  induction fuel generalizing c with
  | zero => exact h
  | succ fuel ih =>
    rw [loop]
    have hround := round_established node h
    cases hnext : (round node c).2 with
    | some outcome =>
      rw [show round node c = ((round node c).1,some outcome) from Prod.ext rfl hnext]
      exact hround
    | none =>
      rw [show round node c = ((round node c).1,none) from Prod.ext rfl hnext]
      exact ih hround

theorem read_established {c : TcpConnection Msg} (h : Established c) (segment : Bytes) :
    Established (readFromSocket node c segment) := by
  have hread : Established { c with _inBuff := c._inBuff ++ segment } := h
  unfold readFromSocket processing
  dsimp only
  split_ifs
  · cases hcontext : c._context with
    | none =>
      rw [hcontext] at hread
      exact hread
    | some context =>
      rw [hcontext] at hread
      simp only
      split_ifs
      · exact loop_established _ hread
      · exact hread
  · exact h

theorem flatten_bytes (stream : Bytes) : (stream.map ([·])).flatten = stream := by
  rw [← List.flatMap_def,List.flatMap_singleton']

/-- Byte by byte, all the frames at the front of the stream are handed on. -/
theorem handed_bytewise (stream : Bytes) :
    (receive node (stream.map ([·]))).handed = (framing node).accepted (stops node) [] stream := by
  have hsettled (c : TcpConnection Msg) (l : Bytes) (hc : Established c)
      (h : (framing node).Settled (view c)) :
      (framing node).Settled (view ((l.map ([·])).foldl (readFromSocket node) c)) := by
    induction l generalizing c with
    | nil => exact h
    | cons byte l ih => exact ih _ (read_established hc [byte]) (read_byte_settled hc h byte)
  have hstart : Established (established : TcpConnection Msg) := by
    rintro context ⟨⟩
    rfl
  have hend := hsettled established stream hstart (.inr (framing_cut_nil node))
  have h := (receives node established (stream.map ([·]))).handed_ahead
  rw [hend.ahead_nil,List.append_nil] at h
  rw [flatten_bytes] at h
  exact h

end Runs

/-- What holds of all messages handed on, over all the ways a stream is split, is what holds of
the frames at its front. -/
theorem forall_handed_iff (P : Handed Msg → Prop) (stream : Bytes) :
    (∀ segments, segments.flatten = stream → ∀ f ∈ (receive node segments).handed, P f) ↔
      ∀ f ∈ (framing node).accepted (stops node) [] stream, P f := by
  constructor
  · intro h
    rw [← handed_bytewise]
    exact h _ (flatten_bytes stream)
  · rintro h segments rfl f hf
    exact h f ((prefix_handed segments).subset hf)

/-- A frame at the front of a stream was decoded from its payload. -/
theorem accepted_create {stream : Bytes} {f : Handed Msg}
    (h : f ∈ (framing node).accepted (stops node) [] stream) :
    node.create f.header.command f.payload = some f.msg := by
  obtain ⟨l,rest,hcut⟩ := Framing.cut_of_mem_accepted h
  exact (cut_frame.mp hcut).2.2.2.2.1

/-- Over all the ways a stream is split, the messages handed on carry the checksums of their
payloads exactly if the frames at its front do: `processing` does not look. -/
theorem intact_iff (stream : Bytes) :
    (∀ segments, segments.flatten = stream → ∀ f ∈ (receive node segments).handed, f.Intact) ↔
      ∀ f ∈ (framing node).accepted (stops node) [] stream, f.Intact :=
  forall_handed_iff node Handed.Intact stream

/-- A node that knows `getaddr`, which reads nothing of its payload. -/
def getAddrNode : Node Unit where
  create := fun command _ => if command = [103,101,116,97,100,100,114] then some () else none
  handle := fun _ => ⟨false,false⟩

/-- A `getaddr` of the main network without a payload and with the checksum 0. -/
def corrupted : Bytes :=
  [0xaa,0xaf,0xfe,0x34,103,101,116,97,100,100,114,0,0,0,0,0] ++ List.replicate 8 0

theorem payloadChecksum_nil : payloadChecksum [] = 0xe2e0f65d := by
  rw [payloadChecksum,hash256,sha256_nil]
  decide +kernel

/-- A message with a wrong checksum is handed to the context. -/
theorem corrupted_handed :
    ¬ ∀ (Msg : Type) (node : Node Msg) (segments : List Bytes), ∀ f ∈ (receive node segments).handed,
      f.Intact := by
  intro h
  have hhanded : (receive getAddrNode [corrupted]).handed =
      [⟨⟨0x34FEAFAA,[103,101,116,97,100,100,114,0,0,0,0,0],0,0⟩,[],()⟩] := rfl
  have hintact := h Unit getAddrNode [corrupted] _ (hhanded ▸ List.mem_singleton_self _)
  rw [Handed.Intact,payloadChecksum_nil] at hintact
  exact absurd hintact (by decide)

end MsgPipe
end Tkeycoin
