import Tkeycoin.Splitting
import Tkeycoin.WsPipe

/-! What a websocket connection does with frames that arrive in pieces. -/
namespace Tkeycoin
namespace WsPipe

open Splitting

/-- What a frame with a payload calls for. -/
def reply (payload : Bytes) : FrameKind → Action
  | .text => .handle .Text payload
  | .binary => .handle .Binary payload
  | .ping => .send (WsFrame.send .Pong payload)

def answer (f : SentFrame) : Action := reply f.payload f.kind

/-- The bytes of some frames. -/
def stream (frames : List SentFrame) : Bytes := frames.flatMap SentFrame.encode

@[simp] theorem stream_nil : stream [] = [] := rfl

@[simp] theorem stream_cons (f : SentFrame) (frames : List SentFrame) :
    stream (f :: frames) = f.encode ++ stream frames := rfl

@[simp] theorem stream_append (frames more : List SentFrame) :
    stream (frames ++ more) = stream frames ++ stream more := by
  simp [stream]

/-- Each frame has been answered, once and in order, and nothing is left of them. -/
structure Delivered (frames : List SentFrame) (c : Connection) : Prop where
  actions : c.actions = frames.map answer
  frame : c._frame = none
  unread : c._inBuff.unread = []

/-- A read of some length that begins inside the body of a frame, behind its first byte, and goes
on behind its end. -/
def Overtakes (frames : List SentFrame) (position length : ℕ) : Prop :=
  ∃ served f rest, frames = served ++ f :: rest ∧
    (stream served).length + f.header.length < position ∧
    position < (stream served).length + f.encode.length ∧
    (stream served).length + f.encode.length < position + length

/-- A frame with the first bytes of its body. -/
structure Holds (f : SentFrame) (held : ℕ) (frame : WsFrame) : Prop where
  unread : frame.unread = f.body.take held
  front : frame._getPosition = 0
  opcode : frame._opcode = f.kind.opcode
  masked : frame._masked = f.key.isSome
  length : frame._length = f.payload.length
  mask : frame._mask = f.mask

/-- What has been answered and what is unread, whatever frame has been begun. -/
structure Has (served : List SentFrame) (unread : Bytes) (c : Connection) : Prop where
  established : c.established = some true
  actions : c.actions = served.map answer
  unread : c._inBuff.unread = unread

/-- Where a connection stands behind some frames: in the header of the next, or in its body. -/
inductive Stands (served : List SentFrame) : List SentFrame → ℕ → Connection → Prop
  | done {c} : Has served [] c → c._frame = none → Stands served [] 0 c
  | header {c f rest k} : k < f.header.length → Has served (f.header.take k) c → c._frame = none →
      Stands served (f :: rest) k c
  | body {c f rest held frame} : held < f.payload.length → Has served [] c → c._frame = some frame →
      Holds f held frame → Stands served (f :: rest) (f.header.length + held) c

section Frames

variable {served rest : List SentFrame} {f : SentFrame} {held : ℕ} {frame : WsFrame} {b : Bytes}
  {c : Connection}

theorem begun_holds (f : SentFrame) : Holds f 0 f.begun where
  unread := by simp [SentFrame.begun]
  front := rfl
  opcode := rfl
  masked := rfl
  length := rfl
  mask := rfl

/-- More of the body. -/
theorem Holds.write (h : Holds f held frame) {n : ℕ} (hb : b = (f.body.drop held).take n) :
    Holds f (held + n) (frame.write b) where
  unread := by rw [WsFrame.unread_write,h.unread,hb,List.take_add]
  front := Buffer.getPosition_write h.front b
  opcode := h.opcode
  masked := h.masked
  length := h.length
  mask := h.mask

/-- The body without its mask is the payload. -/
theorem Holds.payload (h : Holds f held frame) (hall : f.payload.length ≤ held) :
    frame.applyMask.unread = f.payload := by
  have hbody : frame.unread = f.body := by
    rw [h.unread,List.take_of_length_le (by simpa using hall)]
  rw [WsFrame.unread_applyMask h.front,hbody,h.masked,h.mask,SentFrame.body,SentFrame.mask]
  cases f.key with
  | none => rfl
  | some key => exact maskFrom_maskFrom key 0 f.payload

theorem opcode_applyMask (frame : WsFrame) : frame.applyMask._opcode = frame._opcode := by
  rw [WsFrame.applyMask]
  split_ifs <;> rfl

/-- A complete frame of a kind that is answered. -/
theorem serve_eq (c : Connection) {kind : FrameKind} (hopcode : frame._opcode = kind.opcode) :
    serve c frame =
      ({ c with
        _ttl := 900000
        _frame := none
        actions := c.actions ++ [reply frame.unread kind] },none) := by
  cases kind <;> simp only [serve,hopcode,FrameKind.opcode,reply]

/-- A longer payload makes another reply. -/
theorem reply_ne {payload longer : Bytes} (kind : FrameKind) (h : payload.length < longer.length) :
    reply longer kind ≠ reply payload kind := by
  intro heq
  cases kind with
  | text =>
    have hlen := congrArg List.length (Action.handle.inj heq).2
    omega
  | binary =>
    have hlen := congrArg List.length (Action.handle.inj heq).2
    omega
  | ping =>
    have hlen := congrArg List.length (Action.send.inj heq)
    have := @WsFrame.length_send_lt .Pong _ _ h
    omega

/-- A body that stays incomplete. -/
theorem readBody_waits (rest : List SentFrame) (h : Has served b c) (hf : Holds f held frame)
    (hb : b = (f.body.drop held).take b.length) (hshort : held + b.length < f.payload.length) :
    ∃ c', readBody c frame = (c',some .returned) ∧
      Stands served (f :: rest) (f.header.length + (held + b.length)) c' := by
  have hdata : c._inBuff.dataLen = b.length := by rw [← Buffer.length_unread,h.unread]
  have hlen : min frame._length c._inBuff.dataLen = b.length := by
    rw [hf.length,hdata]
    omega
  have hall : c._inBuff.unread.take b.length = b := by rw [h.unread,List.take_length]
  have hmore := hf.write hb
  have hwait : (frame.write b)._length > (frame.write b).dataLen := by
    rw [hmore.length,← Buffer.length_unread,hmore.unread,List.length_take]
    omega
  simp only [readBody,hlen,hall,hwait,if_true]
  refine ⟨_,rfl,Stands.body hshort ⟨h.established,h.actions,?_⟩ rfl hmore⟩
  simp [Buffer.unread_skip,h.unread]

/-- A body that becomes complete, where no bytes stand behind it or none were held before. -/
theorem readBody_serves {more : Bytes} (h : Has served (b ++ more) c) (hf : Holds f held frame)
    (hb : b = f.body.drop held) (hheld : held ≤ f.payload.length) (hexact : held = 0 ∨ more = []) :
    ∃ c', readBody c frame = (c',none) ∧ Has (served ++ [f]) more c' ∧ c'._frame = none := by
  have hblen : b.length = f.payload.length - held := by rw [hb,List.length_drop,SentFrame.length_body]
  have hdata : c._inBuff.dataLen = b.length + more.length := by
    rw [← Buffer.length_unread,h.unread,List.length_append]
  have hlen : min frame._length c._inBuff.dataLen = b.length := by
    rw [hf.length,hdata]
    cases hexact with
    | inl hzero => omega
    | inr hnil =>
      rw [hnil,List.length_nil]
      omega
  have hall : c._inBuff.unread.take b.length = b := by rw [h.unread,List.take_left]
  have hmore : Holds f (held + b.length) (frame.write b) :=
    hf.write (by rw [hb,List.take_length])
  have hgo : ¬ (frame.write b)._length > (frame.write b).dataLen := by
    rw [hmore.length,← Buffer.length_unread,hmore.unread,List.length_take,SentFrame.length_body]
    omega
  have hopcode : (frame.write b).applyMask._opcode = f.kind.opcode := by
    rw [opcode_applyMask,hmore.opcode]
  have hpayload := hmore.payload (by omega)
  simp only [readBody,hlen,hall,hgo,if_false,serve_eq _ hopcode,hpayload]
  refine ⟨_,rfl,⟨h.established,?_,?_⟩,rfl⟩
  · simp [h.actions,answer]
  · simp [Buffer.unread_skip,h.unread]

/-- A body that was begun before takes its whole length once more, as far as there are bytes. -/
theorem readBody_overtakes (h : Has served b c) (hf : Holds f held frame) (hpos : 0 < held)
    (hheld : held < f.payload.length) (hover : f.payload.length < held + b.length) :
    ∃ action c', readBody c frame = (c',none) ∧ c'.actions = served.map answer ++ [action] ∧
      action ≠ answer f := by
  have hlength := hf.length
  have hheldlen : frame.unread.length = held := by
    rw [hf.unread,List.length_take,SentFrame.length_body]
    omega
  have hdata : c._inBuff.dataLen = b.length := by rw [← Buffer.length_unread,h.unread]
  have htaken : (b.take (min frame._length c._inBuff.dataLen)).length =
      min f.payload.length b.length := by
    rw [List.length_take,hlength,hdata]
    omega
  have hlong : f.payload.length <
      (frame.write (b.take (min frame._length c._inBuff.dataLen))).unread.length := by
    rw [WsFrame.unread_write,List.length_append,hheldlen,htaken]
    omega
  have hgo : ¬ (frame.write (b.take (min frame._length c._inBuff.dataLen)))._length >
      (frame.write (b.take (min frame._length c._inBuff.dataLen))).dataLen := by
    have hkeep : (frame.write (b.take (min frame._length c._inBuff.dataLen)))._length =
        f.payload.length := hlength
    rw [hkeep,← Buffer.length_unread]
    omega
  have hopcode : (frame.write (b.take (min frame._length c._inBuff.dataLen))).applyMask._opcode =
      f.kind.opcode := by
    rw [opcode_applyMask]
    exact hf.opcode
  simp only [readBody,h.unread,hgo,if_false,serve_eq _ hopcode]
  refine ⟨_,_,rfl,by rw [h.actions],?_⟩
  apply reply_ne
  rwa [WsFrame.length_unread_applyMask]

/-- Too little for a header. -/
theorem round_short (h : Has served b c) (hframe : c._frame = none)
    (hshort : b.length < 2 ∨ b.length < WsFrame.calcHeaderSize b) :
    ∃ ttl, round c = ({ c with _ttl := ttl },some .returned) := by
  have hdata : c._inBuff.dataLen = b.length := by rw [← Buffer.length_unread,h.unread]
  simp only [round,hframe,hdata,h.unread]
  by_cases htwo : b.length < 2
  · simp only [htwo,if_true]
    split_ifs
    · exact ⟨_,rfl⟩
    · exact ⟨_,rfl⟩
  · simp only [htwo,if_false,hshort.resolve_left htwo,if_true]
    exact ⟨_,rfl⟩

theorem two_le_length_header (f : SentFrame) : 2 ≤ f.header.length := by
  simp only [SentFrame.header,List.length_append,List.length_cons]
  omega

theorem header_cons (f : SentFrame) : ∃ tail, f.header = f.firstByte :: f.secondByte :: tail :=
  ⟨_,rfl⟩

/-- A part of a header says how long the whole is, or is too short to. -/
theorem header_short {k : ℕ} (hk : k < f.header.length) :
    (f.header.take k).length < 2 ∨
      (f.header.take k).length < WsFrame.calcHeaderSize (f.header.take k) := by
  obtain ⟨tail,htail⟩ := header_cons f
  by_cases htwo : k < 2
  · left
    rw [List.length_take]
    omega
  · right
    obtain ⟨n,rfl⟩ : ∃ n, k = n + 2 := ⟨k - 2,by omega⟩
    have htake : f.header.take (n + 2) = f.firstByte :: f.secondByte :: tail.take n := by
      rw [htail]
      rfl
    rw [htake,SentFrame.calcHeaderSize_header,← htake,List.length_take]
    omega

/-- A whole header. -/
theorem round_header (h : Has served (f.header ++ b) c) (hframe : c._frame = none) :
    ∃ c', round c = readBody c' f.begun ∧ Has served b c' := by
  have hdata : c._inBuff.dataLen = f.header.length + b.length := by
    rw [← Buffer.length_unread,h.unread,List.length_append]
  have htwo : ¬ f.header.length + b.length < 2 := by
    have := two_le_length_header f
    omega
  obtain ⟨tail,htail⟩ := header_cons f
  have hsize : WsFrame.calcHeaderSize (f.header ++ b) = f.header.length := by
    have hcalc := SentFrame.calcHeaderSize_header f (tail ++ b)
    rwa [← List.cons_append,← List.cons_append,← htail] at hcalc
  have henough : ¬ f.header.length + b.length < f.header.length := by omega
  simp only [round,hframe,hdata,h.unread,htwo,if_false,hsize,henough,SentFrame.ofBytes_header]
  refine ⟨_,rfl,h.established,h.actions,?_⟩
  simp [Buffer.unread_skip,h.unread]

theorem round_body (hframe : c._frame = some frame) : round c = readBody c frame := by
  rw [round,hframe]

/-- Frames read from where one begins. -/
theorem loop_stands (fuel : ℕ) (h : Has served b c) (hframe : c._frame = none)
    (hb : b <+: stream rest) (hfuel : b.length < fuel) :
    ∃ done rest' k, rest = done ++ rest' ∧ Stands (served ++ done) rest' k (loop fuel c).1 ∧
      b.length = (stream done).length + k := by
  obtain ⟨fuel,rfl⟩ : ∃ n, fuel = n + 1 := ⟨fuel - 1,by omega⟩
  induction rest generalizing served b c fuel with
  | nil =>
    obtain rfl := List.prefix_nil.mp hb
    obtain ⟨ttl,hround⟩ := round_short h hframe (Or.inl (by simp))
    refine ⟨[],[],0,rfl,?_,rfl⟩
    rw [loop,hround,List.append_nil]
    exact Stands.done ⟨h.established,h.actions,h.unread⟩ hframe
  | cons f rest ih =>
    rw [stream_cons,SentFrame.encode,List.append_assoc] at hb
    rcases front_cases hb with ⟨hk,htake⟩ | ⟨b',rfl,hb'⟩
    · obtain ⟨ttl,hround⟩ := round_short h hframe (by rw [htake]; exact header_short hk)
      refine ⟨[],f :: rest,b.length,rfl,?_,by simp⟩
      rw [loop,hround,List.append_nil]
      exact Stands.header hk ⟨h.established,h.actions,by rw [← htake]; exact h.unread⟩ hframe
    · obtain ⟨c₁,hround,h₁⟩ := round_header h hframe
      have hheader := two_le_length_header f
      rw [List.length_append] at hfuel
      rcases front_cases hb' with ⟨hlt,htake⟩ | ⟨more,rfl,hmore⟩
      · rw [SentFrame.length_body] at hlt
        obtain ⟨c₂,hread,hstands⟩ := readBody_waits rest h₁ (begun_holds f)
          (by rwa [List.drop_zero]) (by rwa [Nat.zero_add])
        refine ⟨[],f :: rest,f.header.length + b'.length,rfl,?_,by simp⟩
        rw [loop,hround,hread,List.append_nil]
        rwa [Nat.zero_add] at hstands
      · obtain ⟨c₂,hread,h₂,hframe₂⟩ := readBody_serves h₁ (begun_holds f) rfl (Nat.zero_le _)
          (Or.inl rfl)
        obtain ⟨fuel,rfl⟩ : ∃ n, fuel = n + 1 := ⟨fuel - 1,by omega⟩
        rw [List.length_append] at hfuel
        obtain ⟨done,rest',k,rfl,hstands,hlength⟩ := ih h₂ hframe₂ hmore fuel (by omega)
        refine ⟨f :: done,rest',k,rfl,?_,?_⟩
        · rw [loop,hround,hread]
          simpa using hstands
        · simp only [stream_cons,SentFrame.encode,List.length_append,hlength]
          omega

theorem Has.write (h : Has served b c) (piece : Bytes) :
    Has served (b ++ piece) { c with _inBuff := c._inBuff.write piece } where
  established := h.established
  actions := h.actions
  unread := by rw [Buffer.unread_write,h.unread]

theorem receive_nothing {piece : Bytes} (h : Has served b c) (hnil : b ++ piece = []) :
    receive c piece = { c with _inBuff := c._inBuff.write piece } := by
  have hdata : (c._inBuff.write piece).dataLen = 0 := by
    rw [← Buffer.length_unread,(h.write piece).unread,hnil,List.length_nil]
  simp only [receive,hdata,gt_iff_lt,lt_irrefl,if_false]

theorem receive_loop {piece : Bytes} (h : Has served b c) (hsome : b ++ piece ≠ []) :
    receive c piece = (loop ((b ++ piece).length + 2) { c with _inBuff := c._inBuff.write piece }).1 := by
  have hdata : (c._inBuff.write piece).dataLen = (b ++ piece).length := by
    rw [← Buffer.length_unread,(h.write piece).unread]
  have hpos : (b ++ piece).length > 0 := List.length_pos_of_ne_nil hsome
  simp only [receive,hdata,hpos,if_true,processing,h.established]

/-- A read that begins where no frame's body has been begun. -/
theorem receive_front {k : ℕ} {piece : Bytes} (hk : k = b.length) (h : Has served b c)
    (hframe : c._frame = none) (hb : b ++ piece <+: stream rest) :
    ∃ done rest' k', rest = done ++ rest' ∧ Stands (served ++ done) rest' k' (receive c piece) ∧
      k + piece.length = (stream done).length + k' := by
  by_cases hnil : b ++ piece = []
  · have hb₀ : b = [] := (List.append_eq_nil_iff.mp hnil).1
    have hpiece : piece = [] := (List.append_eq_nil_iff.mp hnil).2
    have h' := h.write piece
    rw [hnil] at h'
    refine ⟨[],rest,0,rfl,?_,by simp [hk,hb₀,hpiece]⟩
    rw [receive_nothing h hnil,List.append_nil]
    cases rest with
    | nil => exact Stands.done h' hframe
    | cons f rest =>
      have hheader := two_le_length_header f
      exact Stands.header (by omega) h' hframe
  · obtain ⟨done,rest',k',hrest,hstands,hlength⟩ := loop_stands ((b ++ piece).length + 2)
      (h.write piece) hframe hb (by omega)
    refine ⟨done,rest',k',hrest,?_,?_⟩
    · rwa [receive_loop h hnil]
    · rw [← hlength,List.length_append,hk]

/-- A read that goes on with a body and does not go behind its end, or begins it. -/
theorem receive_body {piece : Bytes} (hheld : held < f.payload.length) (h : Has served [] c)
    (hframe : c._frame = some frame) (hf : Holds f held frame)
    (hb : piece <+: f.body.drop held ++ stream rest)
    (hcalm : held = 0 ∨ held + piece.length ≤ f.payload.length) :
    ∃ done rest' k', f :: rest = done ++ rest' ∧
      Stands (served ++ done) rest' k' (receive c piece) ∧
      f.header.length + held + piece.length = (stream done).length + k' := by
  by_cases hnil : piece = []
  · have h' := h.write piece
    rw [hnil] at h' ⊢
    refine ⟨[],f :: rest,f.header.length + held,rfl,?_,by simp⟩
    rw [receive_nothing h rfl,List.append_nil]
    exact Stands.body hheld h' hframe hf
  · have h' := h.write piece
    have hround : round { c with _inBuff := c._inBuff.write piece } =
        readBody { c with _inBuff := c._inBuff.write piece } frame := round_body hframe
    rw [receive_loop h hnil,List.nil_append,loop,hround]
    rw [List.nil_append] at h'
    rcases front_cases hb with ⟨hlt,htake⟩ | ⟨more,rfl,hmore⟩
    · rw [List.length_drop,SentFrame.length_body] at hlt
      obtain ⟨c₂,hread,hstands⟩ := readBody_waits rest h' hf htake (by omega)
      refine ⟨[],f :: rest,f.header.length + (held + piece.length),rfl,?_,?_⟩
      · rw [hread,List.append_nil]
        exact hstands
      · rw [stream_nil,List.length_nil]
        omega
    · have hexact : held = 0 ∨ more = [] := by
        refine hcalm.imp_right fun hle => ?_
        rw [List.length_append,List.length_drop,SentFrame.length_body] at hle
        exact List.eq_nil_of_length_eq_zero (by omega)
      obtain ⟨c₂,hread,h₂,hframe₂⟩ := readBody_serves h' hf rfl hheld.le hexact
      obtain ⟨done,rest',k,rfl,hstands,hlength⟩ := loop_stands
        ((f.body.drop held ++ more).length + 1) h₂ hframe₂ hmore (by rw [List.length_append]; omega)
      refine ⟨f :: done,rest',k,rfl,?_,?_⟩
      · rw [hread]
        simpa using hstands
      · simp only [stream_cons,SentFrame.encode,List.length_append,List.length_drop,
          SentFrame.length_body,hlength]
        omega

section Actions

variable {before : List Action}

/-- Nothing that has been done is taken back. -/
theorem actions_serve (h : before <+: c.actions) : before <+: (serve c frame).1.actions := by
  rw [serve]
  split
  all_goals exact h.trans (List.prefix_append _ _)

theorem actions_readBody (h : before <+: c.actions) : before <+: (readBody c frame).1.actions := by
  simp only [readBody]
  split_ifs
  · exact h
  · exact actions_serve h

theorem actions_round (h : before <+: c.actions) : before <+: (round c).1.actions := by
  simp only [round]
  split
  · exact actions_readBody h
  · split_ifs
    · exact h
    · exact h
    · exact h
    · split
      · exact h
      · exact actions_readBody h

theorem actions_loop (fuel : ℕ) (h : before <+: c.actions) : before <+: (loop fuel c).1.actions := by
  induction fuel generalizing c with
  | zero => exact h
  | succ fuel ih =>
    have hround := actions_round h
    rw [loop]
    split
    · rename_i heq
      rwa [heq] at hround
    · rename_i heq
      rw [heq] at hround
      exact ih hround

theorem actions_receive (piece : Bytes) (h : before <+: c.actions) :
    before <+: (receive c piece).actions := by
  simp only [receive,processing]
  split_ifs
  · split
    · exact actions_loop _ h
    · exact h
  · exact h

theorem actions_run (pieces : List Bytes) (h : before <+: c.actions) :
    before <+: (run c pieces).actions := by
  induction pieces generalizing c with
  | nil => exact h
  | cons piece pieces ih => exact ih (actions_receive piece h)

end Actions

/-- A position lies in one frame only. -/
theorem frame_unique {served' rest' : List SentFrame} {f' : SentFrame} {n : ℕ}
    (h : served ++ f :: rest = served' ++ f' :: rest')
    (hle : (stream served).length ≤ n) (hlt : n < (stream served).length + f.encode.length)
    (hle' : (stream served').length ≤ n) (hlt' : n < (stream served').length + f'.encode.length) :
    served = served' ∧ f = f' ∧ rest = rest' := by
  induction served generalizing served' n with
  | nil =>
    cases served' with
    | nil =>
      simp only [List.nil_append,List.cons.injEq] at h
      exact ⟨rfl,h⟩
    | cons g served' =>
      simp only [List.nil_append,List.cons_append,List.cons.injEq] at h
      simp only [stream_nil,stream_cons,List.length_nil,List.length_append,← h.1] at *
      omega
  | cons g served ih =>
    cases served' with
    | nil =>
      simp only [List.nil_append,List.cons_append,List.cons.injEq] at h
      simp only [stream_nil,stream_cons,List.length_nil,List.length_append,h.1] at *
      omega
    | cons g' served' =>
      simp only [List.cons_append,List.cons.injEq] at h
      simp only [stream_cons,List.length_append,h.1] at *
      obtain ⟨hserved,hf,hrest⟩ := @ih served' (n - g'.encode.length) h.2 (by omega) (by omega)
        (by omega) (by omega)
      exact ⟨by rw [hserved],hf,hrest⟩

variable {k : ℕ} {piece : Bytes}

/-- A read that does not overtake moves on by its length. -/
theorem receive_stands (h : Stands served rest k c) (hb : piece <+: (stream rest).drop k)
    (hcalm : ¬ Overtakes (served ++ rest) ((stream served).length + k) piece.length) :
    ∃ done rest' k', rest = done ++ rest' ∧ Stands (served ++ done) rest' k' (receive c piece) ∧
      k + piece.length = (stream done).length + k' := by
  cases h with
  | done hhas hframe => exact receive_front rfl hhas hframe (by simpa using hb)
  | header hk hhas hframe =>
    rename_i f rest
    have hlen : k = (f.header.take k).length := by
      rw [List.length_take]
      omega
    have htake : f.header.take k = (stream (f :: rest)).take k := by
      rw [stream_cons,SentFrame.encode,List.append_assoc,List.take_append_of_le_length hk.le]
    refine receive_front hlen hhas hframe ?_
    rw [htake]
    conv_rhs => rw [← List.take_append_drop k (stream (f :: rest))]
    exact (List.prefix_append_right_inj _).mpr hb
  | body hheld hhas hframe hf =>
    rename_i f rest held frame
    have hdrop : (stream (f :: rest)).drop (f.header.length + held) =
        f.body.drop held ++ stream rest := by
      rw [stream_cons,SentFrame.encode,List.append_assoc,← List.drop_drop,List.drop_left,
        List.drop_append_of_le_length (by simpa using hheld.le)]
    rw [hdrop] at hb
    refine receive_body hheld hhas hframe hf hb ?_
    by_contra hnot
    refine hcalm ⟨served,f,rest,rfl,?_⟩
    simp only [SentFrame.encode,List.length_append,SentFrame.length_body]
    omega

/-- A read that overtakes brings an answer that is none to the frame. -/
theorem receive_overtaken (h : Stands served rest k c)
    (hover : Overtakes (served ++ rest) ((stream served).length + k) piece.length) :
    ∃ f tail action, rest = f :: tail ∧ action ≠ answer f ∧
      served.map answer ++ [action] <+: (receive c piece).actions := by
  obtain ⟨served',f',rest',hsplit,hbegin,hend,hover⟩ := hover
  cases h with
  | done hhas hframe =>
    have hlength := congrArg (fun frames => (stream frames).length) hsplit
    simp only [stream_append,stream_cons,stream_nil,List.length_append,List.length_nil] at hlength
    omega
  | header hk hhas hframe =>
    rename_i f rest
    have hlt : k < f.encode.length := by
      rw [SentFrame.encode,List.length_append]
      omega
    obtain ⟨rfl,rfl,rfl⟩ := frame_unique hsplit (Nat.le_add_right _ k) (by omega) (by omega) hend
    omega
  | body hheld hhas hframe hf =>
    rename_i f rest held frame
    have hlength : f.encode.length = f.header.length + f.payload.length := by
      rw [SentFrame.encode,List.length_append,SentFrame.length_body]
    obtain ⟨rfl,rfl,rfl⟩ := frame_unique hsplit (Nat.le_add_right _ _) (by omega) (by omega) hend
    have h' := hhas.write piece
    have hround : round { c with _inBuff := c._inBuff.write piece } =
        readBody { c with _inBuff := c._inBuff.write piece } frame := round_body hframe
    obtain ⟨action,c',hread,hactions,hne⟩ := readBody_overtakes h' hf (by omega) hheld
      (by rw [List.nil_append]; omega)
    refine ⟨f,rest,action,rfl,hne,?_⟩
    have hsome : [] ++ piece ≠ [] := by
      intro hnil
      rw [List.nil_append] at hnil
      rw [hnil,List.length_nil] at hover
      omega
    rw [receive_loop hhas hsome,loop,hround,hread]
    exact actions_loop _ (by rw [hactions])

end Frames

/-- With nothing more to come, all has been delivered. -/
theorem Stands.delivered {served rest : List SentFrame} {k : ℕ} {c : Connection}
    (h : Stands served rest k c) (hend : (stream rest).drop k = []) : Delivered (served ++ rest) c := by
  rw [List.drop_eq_nil_iff] at hend
  cases h with
  | done hhas hframe => exact ⟨by simpa using hhas.actions,hframe,hhas.unread⟩
  | header hk hhas hframe =>
    simp only [stream_cons,SentFrame.encode,List.length_append] at hend
    omega
  | body hheld hhas hframe hf =>
    simp only [stream_cons,SentFrame.encode,List.length_append,SentFrame.length_body] at hend
    omega

/-- A wrong answer stays wrong. -/
theorem not_delivered {served tail : List SentFrame} {f : SentFrame} {action : Action}
    {c : Connection} (hne : action ≠ answer f)
    (h : served.map answer ++ [action] <+: c.actions) : ¬ Delivered (served ++ f :: tail) c := by
  intro hall
  rw [hall.actions,List.map_append,List.prefix_append_right_inj,List.map_cons,
    List.cons_prefix_cons] at h
  exact hne h.1

/-- From wherever a connection stands, the frames are delivered exactly if no read overtakes. -/
theorem run_delivered_iff {frames served rest : List SentFrame} {c : Connection} {k n : ℕ}
    {pieces : List Bytes} (hframes : frames = served ++ rest) (h : Stands served rest k c)
    (hn : n = (stream served).length + k) (hpieces : pieces.flatten = (stream rest).drop k) :
    Delivered frames (run c pieces) ↔ ∀ before piece after, pieces = before ++ piece :: after →
      ¬ Overtakes frames (n + before.flatten.length) piece.length := by
  induction pieces generalizing served rest c k n with
  | nil =>
    refine iff_of_true ?_ (by simp)
    rw [hframes]
    exact h.delivered hpieces.symm
  | cons piece pieces ih =>
    rw [forall_split_cons,List.flatten_nil,List.length_nil,Nat.add_zero]
    rw [List.flatten_cons] at hpieces
    by_cases hover : Overtakes frames n piece.length
    · refine iff_of_false ?_ fun hcalm => hcalm.1 hover
      rw [hframes,hn] at hover
      obtain ⟨f,tail,action,rfl,hne,hactions⟩ := receive_overtaken h hover
      rw [hframes]
      exact not_delivered hne (actions_run pieces hactions)
    · have hb : piece <+: (stream rest).drop k := ⟨_,hpieces⟩
      obtain ⟨done,rest',k',rfl,hstands,hlength⟩ :=
        receive_stands h hb (by rwa [hframes,hn] at hover)
      have hmore : pieces.flatten = (stream rest').drop k' := by
        have hdrop := congrArg (List.drop piece.length) hpieces
        rw [List.drop_left,List.drop_drop,hlength,stream_append,← List.drop_drop,
          List.drop_left] at hdrop
        exact hdrop
      have hrest := ih (by rw [hframes,List.append_assoc]) hstands
        (n := n + piece.length) (by rw [stream_append,List.length_append]; omega) hmore
      rw [and_iff_right hover]
      refine hrest.trans ?_
      simp only [List.flatten_cons,List.length_append,Nat.add_assoc]

theorem opened_stands (b : Buffer) (frames : List SentFrame) : Stands [] frames 0 (opened b) := by
  have hhas : Has [] [] (opened b) := by
    refine ⟨rfl,rfl,?_⟩
    rw [opened,Buffer.unread_skip (by rw [Buffer.length_unread]),← Buffer.length_unread,
      List.drop_length]
  cases frames with
  | nil => exact Stands.done hhas rfl
  | cons f frames =>
    have hheader := two_le_length_header f
    exact Stands.header (by omega) hhas rfl

/-- Frames are delivered however they are read, but for reads that begin inside a body already
begun and go on behind its end. What the other side sends is such a frame. -/
theorem delivered_iff (b : Buffer) (frames : List SentFrame) (pieces : List Bytes)
    (h : pieces.flatten = stream frames) :
    (Delivered frames (run (opened b) pieces) ↔
        ∀ before piece after, pieces = before ++ piece :: after →
          ¬ Overtakes frames before.flatten.length piece.length) ∧
      ∀ (kind : FrameKind) (data : Bytes) (hdata : data.length < 2 ^ 64),
        WsFrame.send kind.opcode data = (SentFrame.sent kind data hdata).encode := by
  refine ⟨?_,SentFrame.send_eq_encode⟩
  have hiff := run_delivered_iff rfl (opened_stands b frames) rfl h
  simpa using hiff

/-- Two texts of two bytes and of one. -/
def twoTexts : List SentFrame :=
  [⟨true,.text,none,[97,98],.short,by decide⟩,⟨true,.text,some fun _ => 7,[99],.short,by decide⟩]

theorem delivered_in_one : Delivered twoTexts (run (opened Buffer.empty) [stream twoTexts]) := by
  apply (delivered_iff Buffer.empty twoTexts [stream twoTexts] (by simp)).1.mpr
  intro before piece after hsplit
  have hbefore : before = [] := by
    cases before with
    | nil => rfl
    | cons first before => simp at hsplit
  rintro ⟨served,f,rest,_,hbegin,_⟩
  simp [hbefore] at hbegin

/-- The first text cut behind its first byte, and read on together with the second. -/
def cutPieces : List Bytes :=
  [(stream twoTexts).take 3,(stream twoTexts).drop 3]

theorem cutPieces_not_delivered : cutPieces.flatten = stream twoTexts ∧
    ¬ Delivered twoTexts (run (opened Buffer.empty) cutPieces) := by
  have hall : cutPieces.flatten = stream twoTexts := by
    simp [cutPieces]
  refine ⟨hall,fun hdelivered => ?_⟩
  have hcalm := (run_delivered_iff rfl (opened_stands Buffer.empty twoTexts) rfl hall).mp hdelivered
  refine hcalm [(stream twoTexts).take 3] ((stream twoTexts).drop 3) [] rfl ?_
  refine ⟨[],_,_,rfl,?_,?_,?_⟩
  · decide
  · decide
  · decide

end WsPipe
end Tkeycoin
