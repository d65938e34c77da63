import Tkeycoin.MessageDecoding

/-! The handshake on both sides, up to where `MsgPipe` takes the connection over. -/
namespace Tkeycoin

/-- What a side of the handshake finds where it expects a message. -/
inductive Ahead
  | shortHeader | wrongMagic | wrongCommand | badLength | shortPayload | wrongChecksum
  | message (msgHeader : MessageHeader) (payload : Bytes)

/-- The checks before the header is skipped. -/
def ahead (magic : MessageHeader → Bool) (command : String) (length : ℕ → Bool) (data : Bytes) : Ahead :=
  if data.length < MessageHeader.HEADER_SIZE then .shortHeader
  else
    let msgHeader := MessageHeader.Unserialize (data.take MessageHeader.HEADER_SIZE)
    if ¬ magic msgHeader then .wrongMagic
    else if ¬ isCommand msgHeader.command command then .wrongCommand
    else if ¬ length msgHeader._length.toNat then .badLength
    else if data.length < MessageHeader.HEADER_SIZE + msgHeader._length.toNat then .shortPayload
    else
      let payload := (data.drop MessageHeader.HEADER_SIZE).take msgHeader._length.toNat
      -- computed and never looked at
      let _hash := hash256 payload
      let checksum := UInt32.ofNat (leValue ((data.drop MessageHeader.CHECKSUM_OFFSET).take 4))
      if msgHeader._checksum ≠ checksum then .wrongChecksum
      else .message msgHeader payload

namespace Version

/-- The sizes count a time in both addresses. -/
def MIN_MESSAGE_SIZE : ℕ := 4 + 8 + 8 + 30 + 30 + 8 + 1 + 4 + 1

def MAX_MESSAGE_SIZE : ℕ := MIN_MESSAGE_SIZE + 1 + 256

/-- The payload sizes that are served. -/
def sized (length : ℕ) : Bool := ¬ (length < MIN_MESSAGE_SIZE ∨ length > MAX_MESSAGE_SIZE)

end Version

/-- `Node::MIN_VERSION`. -/
def Node.MIN_VERSION : Int32 := 80000

/-- Which transport the connection is processed by. -/
inductive Transport
  | client | server | pipe
  deriving DecidableEq

/-- Where in the stream the message stood that ended the handshake, its header, and where the
pipe goes on. -/
structure Handover where
  messageAt : ℕ
  header : MessageHeader
  pipeAt : ℕ
  deriving DecidableEq

/-- A connection with the fields its context has for the handshake, and a record of the bytes
skipped in the handshake and of its end. -/
structure PeerConnection extends TcpConnection (Message × IStream) where
  _transport : Transport
  _localVersionMessage : Option Version
  _remoteVersionMessage : Option Version
  position : ℕ
  handover : Option Handover

namespace PeerConnection

def skip (c : PeerConnection) (size : ℕ) : PeerConnection :=
  { c with _inBuff := c._inBuff.drop size, position := c.position + size }

def setTtl (c : PeerConnection) (ttl : ℕ) : PeerConnection := { c with _ttl := ttl }

def resetContext (c : PeerConnection) : PeerConnection := { c with _context := none }

/-- A context where there is none. -/
def withContext (c : PeerConnection) : PeerConnection :=
  { c with _context := some (c._context.getD ⟨false,none⟩) }

end PeerConnection

/-- `MsgContext::setEstablished`: the pipe processes what the buffer holds. -/
def MsgContext.setEstablished (pipe : MsgPipe.Node (Message × IStream)) (messageAt : ℕ)
    (header : MessageHeader) (c : PeerConnection) : PeerConnection × MsgPipe.Outcome :=
  let c := { c with
    _context := c._context.map fun _ => ⟨true,none⟩
    _localVersionMessage := none
    _remoteVersionMessage := none
    _transport := .pipe
    handover := some ⟨messageAt,header,c.position⟩ }
  let (connection,outcome) := MsgPipe.processing pipe c.toTcpConnection
  ({ c with toTcpConnection := connection },outcome)

namespace MsgClient

/-- The handler the context of an outgoing connection has installed. -/
inductive Installed
  | onSuccess | protocol
  deriving DecidableEq

/-- What the two handlers do in the light of the messages handed to the context. The handler
for success replaces itself by that of the protocol unless it throws. -/
structure Handlers where
  onSuccess : MsgPipe.Handler
  protocol : MsgPipe.Handler

variable (runtime : Runtime) (handlers : Handlers)

/-- The handler installed once these messages were handed to the context. -/
def installed (handed : List (Handed (Message × IStream))) : Installed :=
  if (List.range handed.length).any fun i => ¬ (handlers.onSuccess (handed.take (i + 1))).throws
  then .protocol else .onSuccess

/-- `TransportContext::handle`: the handler that is installed when the last message comes. -/
def handle : MsgPipe.Handler := fun handed =>
  match installed handlers handed.dropLast with
  | .onSuccess => handlers.onSuccess handed
  | .protocol => handlers.protocol handed

/-- The messages that a handler was called for. -/
def calls (which : Installed) (handed : List (Handed (Message × IStream))) :
    List (Handed (Message × IStream)) :=
  (List.range handed.length).flatMap fun i =>
    if installed handlers (handed.take i) = which then handed[i]?.toList else []

def mainMagic (msgHeader : MessageHeader) : Bool := msgHeader._magic = 0x34FEAFAA

/-- The version message. `none` goes on to the verack message. -/
def counterVersion (c : PeerConnection) : PeerConnection × Option MsgPipe.Outcome :=
  match ahead mainMagic "version" Version.sized c._inBuff with
  | .shortHeader => (c,some .returned)
  | .wrongMagic | .wrongCommand | .badLength | .wrongChecksum => (c.setTtl 50,some .returned)
  | .shortPayload => (c.setTtl 5000,some .returned)
  | .message msgHeader payload =>
    let c := c.skip MessageHeader.HEADER_SIZE
    match Unserialize.version.run runtime.memory (.ofBytes payload) with
    | none => (c,some .exception)
    | some (msgVersion,_) =>
      if ¬ runtime.logs (.version msgVersion) then (c,some .exception)
      else
        let c := c.skip msgHeader._length.toNat
        if msgVersion._version < Node.MIN_VERSION then (c.setTtl 50,some .returned)
        else if some msgVersion._nonce = c._localVersionMessage.map Version._nonce then
          (c.setTtl 50,some .returned)
        else ({ c with _remoteVersionMessage := some msgVersion },none)

/-- The verack message, and the end of the handshake. -/
def waitVerack (c : PeerConnection) : PeerConnection × MsgPipe.Outcome :=
  match ahead mainMagic "verack" (fun _ => true) c._inBuff with
  | .shortHeader => (c,.returned)
  | .wrongMagic | .wrongCommand | .badLength | .wrongChecksum => (c.setTtl 50,.returned)
  | .shortPayload => (c.setTtl 5000,.returned)
  | .message msgHeader payload =>
    let messageAt := c.position
    let c := c.skip MessageHeader.HEADER_SIZE
    match (Unserialize.knownChains runtime.fits).run runtime.memory (.ofBytes payload) with
    | none => (c,.exception)
    | some (_knownChains,_) =>
      if ¬ runtime.logs (.verack _knownChains) then (c,.exception)
      else
        let c := c.skip msgHeader._length.toNat
        MsgContext.setEstablished (MsgPipe.node runtime (handle handlers)) messageAt msgHeader c

/-- `MsgClient::processing`. -/
def processing (c : PeerConnection) : PeerConnection × MsgPipe.Outcome :=
  let c := c.withContext
  if c._context.any MsgContext._established then (c,.exception)
  else if c._remoteVersionMessage.isSome then waitVerack runtime handlers c
  else
    match counterVersion runtime c with
    | (c,some outcome) => (c,outcome)
    | (c,none) => waitVerack runtime handlers c

end MsgClient

namespace MsgServer

variable (runtime : Runtime) (handler : Option MsgPipe.Handler)

/-- `MsgServer::processing`. The handler is what is bound to the selector "/". -/
def processing (c : PeerConnection) : PeerConnection × MsgPipe.Outcome :=
  let c := c.withContext
  if c._context.any MsgContext._established then (c,.exception)
  else
    match ahead MessageHeader.knownMagic "version" Version.sized c._inBuff with
    | .shortHeader | .shortPayload => (c.setTtl 5000,.returned)
    | .wrongMagic | .wrongCommand => (c.resetContext.setTtl 50,.returned)
    | .badLength | .wrongChecksum => (c.setTtl 50,.returned)
    | .message msgHeader payload =>
      let messageAt := c.position
      let c := c.skip MessageHeader.HEADER_SIZE
      match Unserialize.version.run runtime.memory (.ofBytes payload) with
      | none => (c,.exception)
      | some (_msgVersion,_) =>
        match handler with
        | none => (c.resetContext.setTtl 50,.returned)
        | some handler =>
          -- the payload is not skipped
          MsgContext.setEstablished (MsgPipe.node runtime handler) messageAt msgHeader c

end MsgServer

namespace PeerConnection

variable (serve : PeerConnection → PeerConnection × MsgPipe.Outcome)
  (pipe : MsgPipe.Node (Message × IStream))

/-- `TcpConnection::readFromSocket`, by the transport of the handshake or by the pipe. -/
def readFromSocket (c : PeerConnection) (segment : Bytes) : PeerConnection :=
  let c := { c with _inBuff := c._inBuff ++ segment }
  if c._inBuff.length > 0 then
    match c._transport with
    | .pipe => { c with toTcpConnection := (MsgPipe.processing pipe c.toTcpConnection).1 }
    | _ => (serve c).1
  else c

end PeerConnection

/-- An outgoing connection once its version message is sent. -/
def MsgClient.start (localVersion : Version) : PeerConnection :=
  { _inBuff := [], _noRead := false, _ttl := 999000, _context := some ⟨false,none⟩, handed := []
    _transport := .client, _localVersionMessage := some localVersion, _remoteVersionMessage := none
    position := 0, handover := none }

def MsgClient.receive (runtime : Runtime) (handlers : Handlers) (localVersion : Version)
    (segments : List Bytes) : PeerConnection :=
  segments.foldl (PeerConnection.readFromSocket (MsgClient.processing runtime handlers)
    (MsgPipe.node runtime (MsgClient.handle handlers))) (MsgClient.start localVersion)

/-- An incoming connection. -/
def MsgServer.start : PeerConnection :=
  { _inBuff := [], _noRead := false, _ttl := 5000, _context := none, handed := []
    _transport := .server, _localVersionMessage := none, _remoteVersionMessage := none
    position := 0, handover := none }

def MsgServer.receive (runtime : Runtime) (handler : Option MsgPipe.Handler) (segments : List Bytes) :
    PeerConnection :=
  segments.foldl (PeerConnection.readFromSocket (MsgServer.processing runtime handler)
    (MsgPipe.node runtime (handler.getD fun _ => ⟨false,false⟩))) MsgServer.start

end Tkeycoin
