import Tkeycoin.Framing
import Tkeycoin.Sha256

/-! Messages of an established connection: how `MsgPipe` cuts them from what is read. -/
namespace Tkeycoin

structure MessageHeader where
  _magic : UInt32
  _command : Bytes
  _length : UInt32
  _checksum : UInt32
  deriving DecidableEq

namespace MessageHeader

def HEADER_SIZE : ℕ := 24

def CHECKSUM_OFFSET : ℕ := 20

/-- `MessageHeader::Unserialize` on the bytes of a header. -/
def Unserialize (data : Bytes) : MessageHeader where
  _magic := UInt32.ofNat (leValue (data.take 4))
  _command := (data.drop 4).take 12
  _length := UInt32.ofNat (leValue ((data.drop 16).take 4))
  _checksum := UInt32.ofNat (leValue ((data.drop 20).take 4))

/-- The characters of the command without the padding. -/
def command (h : MessageHeader) : Bytes := h._command.filter (· ≠ 0)

/-- `Magic::main` and `Magic::testnet`. -/
def knownMagic (h : MessageHeader) : Bool := h._magic = 0x34FEAFAA ∨ h._magic = 0x211CFC69

end MessageHeader

/-- The checksum `Message::buildHeader` gives a payload. -/
def payloadChecksum (payload : Bytes) : UInt32 :=
  UInt32.ofNat (leValue ((hash256 payload).toList.take 4))

/-- A message handed to the context, with the header and the payload it was read from. -/
structure Handed (Msg : Type) where
  header : MessageHeader
  payload : Bytes
  msg : Msg

/-- The payload has the checksum of its header. -/
def Handed.Intact {Msg : Type} (f : Handed Msg) : Prop := payloadChecksum f.payload = f.header._checksum

/-- What the handler does to the connection: `transmit(..,true)` closes it and resets its
context. -/
structure HandlerResult where
  closes : Bool
  throws : Bool

structure MsgContext (Msg : Type) where
  _established : Bool
  _currentMessage : Option Msg

/-- The connection, with a record of the messages its context was handed. -/
structure TcpConnection (Msg : Type) where
  _inBuff : Bytes
  _noRead : Bool
  _ttl : ℕ
  _context : Option (MsgContext Msg)
  handed : List (Handed Msg)

namespace TcpConnection

variable {Msg : Type}

/-- `close()`, `resetContext()` and `setTtl(..)`, as they stand together. -/
def drop (c : TcpConnection Msg) (ttl : ℕ) : TcpConnection Msg :=
  { c with _noRead := true, _inBuff := [], _context := none, _ttl := ttl }

def setMessage (c : TcpConnection Msg) (f : Handed Msg) : TcpConnection Msg :=
  { c with
    _context := c._context.map fun context => { context with _currentMessage := some f.msg }
    handed := c.handed ++ [f] }

def resetMessage (c : TcpConnection Msg) : TcpConnection Msg :=
  { c with _context := c._context.map fun context => { context with _currentMessage := none } }

end TcpConnection

namespace MsgPipe

/-- How a call of `processing` ends. -/
inductive Outcome
  | returned | exception
  deriving DecidableEq

variable {Msg : Type}

/-- `MessageFactory::create` and `Unserialize` (`none` where they throw), and the handler, in
the light of all messages handed to it. -/
structure Node (Msg : Type) where
  create : Bytes → Bytes → Option Msg
  handle : List (Handed Msg) → HandlerResult

variable (node : Node Msg)

/-- The end of the loop body: the message goes to the context and its handler. -/
def dispatch (c : TcpConnection Msg) (f : Handed Msg) : TcpConnection Msg × Option Outcome :=
  let c := c.setMessage f
  let c := { c with _inBuff := c._inBuff.drop f.header._length.toNat }
  let result := node.handle c.handed
  let c := if result.closes then c.drop 50 else c
  if result.throws then (c,some .exception)
  else (c.resetMessage,none)

/-- The body of the loop. `none` goes on with the next round. -/
def round (c : TcpConnection Msg) : TcpConnection Msg × Option Outcome :=
  if c._inBuff.length < MessageHeader.HEADER_SIZE then
    if c._inBuff.length > 0 then ({ c with _ttl := 10000 },some .returned)
    else ({ c with _ttl := 900000 },some .returned)
  else
    let msgHeader := MessageHeader.Unserialize (c._inBuff.take MessageHeader.HEADER_SIZE)
    if ¬ msgHeader.knownMagic then (c.drop 50,some .returned)
    else if c._inBuff.length < MessageHeader.HEADER_SIZE + msgHeader._length.toNat then
      ({ c with _ttl := 900000 },some .returned)
    else
      let payload := (c._inBuff.drop MessageHeader.HEADER_SIZE).take msgHeader._length.toNat
      -- computed and never looked at
      let _hash := hash256 payload
      let checksum := UInt32.ofNat (leValue ((c._inBuff.drop MessageHeader.CHECKSUM_OFFSET).take 4))
      if msgHeader._checksum ≠ checksum then (c.drop 50,some .returned)
      else
        let c := { c with _inBuff := c._inBuff.drop MessageHeader.HEADER_SIZE }
        match node.create msgHeader.command payload with
        | none => (c.drop 50,some .returned)
        | some msg => dispatch node c ⟨msgHeader,payload,msg⟩

def loop : ℕ → TcpConnection Msg → TcpConnection Msg × Outcome
  | 0, c => (c,.returned)
  | fuel+1, c =>
    match round node c with
    | (c,some outcome) => (c,outcome)
    | (c,none) => loop fuel c

/-- `MsgPipe::processing`. Each round that goes on takes a header from the buffer. -/
def processing (c : TcpConnection Msg) : TcpConnection Msg × Outcome :=
  match c._context with
  | none => (c,.exception)
  | some context =>
    if ¬ context._established then (c,.exception)
    else loop node (c._inBuff.length + 1) c

/-- `TcpConnection::readFromSocket`. What `processing` throws is logged further up. -/
def readFromSocket (c : TcpConnection Msg) (segment : Bytes) : TcpConnection Msg :=
  let c := { c with _inBuff := c._inBuff ++ segment }
  if c._inBuff.length > 0 then (processing node c).1 else c

/-- The connection `setEstablished` hands over to the pipe, with nothing left to read. -/
def established : TcpConnection Msg := ⟨[],false,900000,some ⟨true,none⟩,[]⟩

def receive (segments : List Bytes) : TcpConnection Msg :=
  segments.foldl (readFromSocket node) established

/-- What `processing` finds at the front of the buffer. -/
def cut (l : Bytes) : Cut (Handed Msg) UInt8 :=
  if l.length < MessageHeader.HEADER_SIZE then .more
  else
    let msgHeader := MessageHeader.Unserialize (l.take MessageHeader.HEADER_SIZE)
    if msgHeader.knownMagic = false then .bad
    else if l.length < MessageHeader.HEADER_SIZE + msgHeader._length.toNat then .more
    else
      let payload := (l.drop MessageHeader.HEADER_SIZE).take msgHeader._length.toNat
      match node.create msgHeader.command payload with
      | none => .bad
      | some msg => .frame ⟨msgHeader,payload,msg⟩ (l.drop (MessageHeader.HEADER_SIZE + msgHeader._length.toNat))

section Cut

variable {node}

theorem header_append {l : Bytes} (m : Bytes) (h : MessageHeader.HEADER_SIZE ≤ l.length) :
    (l ++ m).take MessageHeader.HEADER_SIZE = l.take MessageHeader.HEADER_SIZE :=
  List.take_append_of_le_length h

/-- What a frame that was cut says about the string. -/
theorem cut_frame {l r : Bytes} {a : Handed Msg} :
    cut node l = .frame a r ↔
      MessageHeader.HEADER_SIZE + a.header._length.toNat ≤ l.length ∧
        a.header = MessageHeader.Unserialize (l.take MessageHeader.HEADER_SIZE) ∧
        a.header.knownMagic = true ∧
        a.payload = (l.drop MessageHeader.HEADER_SIZE).take a.header._length.toNat ∧
        node.create a.header.command a.payload = some a.msg ∧
        r = l.drop (MessageHeader.HEADER_SIZE + a.header._length.toNat) := by
  unfold cut
  dsimp only
  constructor
  · intro h
    split_ifs at h with hlen hmagic hpayload
    split at h
    · contradiction
    · rename_i msg hcreate
      obtain ⟨rfl,rfl⟩ := Cut.frame.inj h
      exact ⟨Nat.le_of_not_lt hpayload,rfl,by simpa using hmagic,rfl,hcreate,rfl⟩
  · rintro ⟨hlen,hheader,hmagic,hpayload,hcreate,rfl⟩
    obtain ⟨header,payload,msg⟩ := a
    simp only at hlen hheader hmagic hpayload hcreate
    subst hheader
    subst hpayload
    rw [if_neg (by omega),if_neg (by simp [hmagic]),if_neg (by omega)]
    simp only [hcreate]

theorem cut_bad {l : Bytes} :
    cut node l = .bad ↔
      MessageHeader.HEADER_SIZE ≤ l.length ∧
        ((MessageHeader.Unserialize (l.take MessageHeader.HEADER_SIZE)).knownMagic = false ∨
          let msgHeader := MessageHeader.Unserialize (l.take MessageHeader.HEADER_SIZE)
          MessageHeader.HEADER_SIZE + msgHeader._length.toNat ≤ l.length ∧
            node.create msgHeader.command
              ((l.drop MessageHeader.HEADER_SIZE).take msgHeader._length.toNat) = none) := by
  unfold cut
  dsimp only
  constructor
  · intro h
    split_ifs at h with hlen hmagic hpayload
    · exact ⟨by omega,.inl hmagic⟩
    · split at h
      · rename_i hcreate
        exact ⟨by omega,.inr ⟨by omega,hcreate⟩⟩
      · contradiction
  · rintro ⟨hlen,hmagic | ⟨hpayload,hcreate⟩⟩
    · rw [if_neg (by omega),if_pos hmagic]
    · rw [if_neg (by omega),if_neg (by omega : ¬ l.length < _)]
      split_ifs
      · rfl
      · simp only [hcreate]

theorem cut_more {l : Bytes} (h : cut node l = .more) :
    l.length < MessageHeader.HEADER_SIZE ∨
      l.length < MessageHeader.HEADER_SIZE +
        (MessageHeader.Unserialize (l.take MessageHeader.HEADER_SIZE))._length.toNat := by
  unfold cut at h
  dsimp only at h
  split_ifs at h with hlen hmagic hpayload
  · exact .inl hlen
  · exact .inr hpayload
  · split at h <;> contradiction

end Cut

/-- The frames of an established connection. -/
def framing : Framing (Handed Msg) UInt8 where
  cut := cut node
  shorter := by
    intro l a r h
    obtain ⟨hlen,-,-,-,-,rfl⟩ := cut_frame.mp h
    simp only [MessageHeader.HEADER_SIZE,List.length_drop] at hlen ⊢
    omega
  frame_append := by
    intro l a r m h
    obtain ⟨hlen,hheader,hmagic,hpayload,hcreate,rfl⟩ := cut_frame.mp h
    have hhead : MessageHeader.HEADER_SIZE ≤ l.length := by omega
    refine cut_frame.mpr ⟨by simp only [List.length_append]; omega,?_,hmagic,?_,hcreate,?_⟩
    · rw [header_append m hhead,hheader]
    · rw [List.drop_append_of_le_length hhead,List.take_append_of_le_length,hpayload]
      rw [List.length_drop]
      omega
    · rw [List.drop_append_of_le_length hlen]
  bad_append := by
    intro l m h
    obtain ⟨hhead,hbad⟩ := cut_bad.mp h
    refine cut_bad.mpr ⟨by simp only [List.length_append]; omega,?_⟩
    rw [header_append m hhead]
    rcases hbad with hmagic | ⟨hlen,hcreate⟩
    · exact .inl hmagic
    · refine .inr ⟨by simp only [List.length_append]; omega,?_⟩
      rw [List.drop_append_of_le_length hhead,List.take_append_of_le_length,hcreate]
      rw [List.length_drop]
      omega
  last_completes := by
    intro l b a r hmore hframe
    obtain ⟨hlen,hheader,-,-,-,rfl⟩ := cut_frame.mp hframe
    rw [List.length_append,List.length_singleton] at hlen
    apply List.drop_eq_nil_of_le
    rw [List.length_append,List.length_singleton]
    rcases cut_more hmore with hshort | hshort
    · omega
    · by_cases hhead : MessageHeader.HEADER_SIZE ≤ l.length
      · rw [hheader,header_append [b] hhead]
        omega
      · omega

@[simp] theorem framing_cut_nil : (framing node).cut [] = .more := rfl

end MsgPipe
end Tkeycoin
