import Tkeycoin.WsFrame

/-! `WsPipe`: frames taken from what is read of an established connection. -/
namespace Tkeycoin
namespace WsPipe

/-- What the pipe does with frames: the context's handler runs, or a frame is written. -/
inductive Action
  | handle (code : Opcode) (payload : Bytes)
  | send (bytes : Bytes)
  deriving DecidableEq

/-- `established` and `_frame` are those of the websocket context, which a closed connection
has no more. -/
structure Connection where
  _inBuff : Buffer
  _noRead : Bool
  _ttl : ℕ
  established : Option Bool
  _frame : Option WsFrame
  actions : List Action

/-- How a call of `processing` ends. -/
inductive Outcome
  | returned | exception
  deriving DecidableEq

/-- The closing frame, `close()`, `resetContext()` and `setTtl(..)`, as they stand together. -/
def Connection.finish (c : Connection) (message : Bytes) : Connection :=
  { c with
    _inBuff := c._inBuff.skip c._inBuff.dataLen
    _noRead := true
    _ttl := 50
    established := none
    _frame := none
    actions := c.actions ++ [.send (WsFrame.send .Close message)] }

/-- Normal closure, "Bye!" and a line feed. -/
def bye : Bytes := beBytes 2 1000 ++ [66,121,101,33,10]

/-- Unsupported data, "Unsupported opcode" and a line feed. -/
def unsupported : Bytes := beBytes 2 1003 ++
  [85,110,115,117,112,112,111,114,116,101,100,32,111,112,99,111,100,101,10]

/-- A frame that is complete. `none` goes on with the next round. -/
def serve (c : Connection) (frame : WsFrame) : Connection × Option Outcome :=
  match frame._opcode with
  | .Text | .Binary =>
    ({ c with
      _ttl := 900000
      _frame := none
      actions := c.actions ++ [.handle frame._opcode frame.unread] },none)
  | .Ping =>
    ({ c with
      _ttl := 900000
      _frame := none
      actions := c.actions ++ [.send (WsFrame.send .Pong frame.unread)] },none)
  | .Close => (c.finish bye,some .returned)
  | _ => (c.finish unsupported,some .returned)

/-- The part of the loop that reads the body of a frame. -/
def readBody (c : Connection) (frame : WsFrame) : Connection × Option Outcome :=
  let len := min frame._length c._inBuff.dataLen
  let frame := frame.write (c._inBuff.unread.take len)
  let c := { c with _inBuff := c._inBuff.skip len, _frame := some frame }
  if frame._length > frame.dataLen then ({ c with _ttl := 60000 },some .returned)
  else serve { c with _frame := some frame.applyMask } frame.applyMask

/-- The body of the loop. -/
def round (c : Connection) : Connection × Option Outcome :=
  match c._frame with
  | some frame => readBody c frame
  | none =>
    if c._inBuff.dataLen < 2 then
      if c._inBuff.dataLen > 0 then ({ c with _ttl := 60000 },some .returned)
      else ({ c with _ttl := 900000 },some .returned)
    else
      let headerSize := WsFrame.calcHeaderSize c._inBuff.unread
      if c._inBuff.dataLen < headerSize then ({ c with _ttl := 60000 },some .returned)
      else
        match WsFrame.ofBytes c._inBuff.unread with
        | none => (c,some .exception)
        | some frame => readBody { c with _inBuff := c._inBuff.skip headerSize } frame

def loop : ℕ → Connection → Connection × Outcome
  | 0, c => (c,.returned)
  | fuel + 1, c =>
    match round c with
    | (c,some outcome) => (c,outcome)
    | (c,none) => loop fuel c

/-- `WsPipe::processing`. Each round but the first takes a header. -/
def processing (c : Connection) : Connection × Outcome :=
  match c.established with
  | some true => loop (c._inBuff.dataLen + 2) c
  | _ => (c,.exception)

/-- What `readFromSocket` does with some bytes. -/
def receive (c : Connection) (piece : Bytes) : Connection :=
  let c := { c with _inBuff := c._inBuff.write piece }
  if c._inBuff.dataLen > 0 then (processing c).1 else c

def run (c : Connection) (pieces : List Bytes) : Connection := pieces.foldl receive c

/-- A connection just established, its buffer read up. -/
def opened (b : Buffer) : Connection where
  _inBuff := b.skip b.dataLen
  _noRead := false
  _ttl := 900000
  established := some true
  _frame := none
  actions := []

end WsPipe
end Tkeycoin
