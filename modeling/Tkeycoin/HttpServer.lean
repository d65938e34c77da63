import Tkeycoin.HttpRequest

/-! `HttpServer`: requests taken from what is read of a connection. -/
namespace Tkeycoin
namespace HttpServer

open Splitting

/-- A request with the bytes of its body that have been read. -/
structure HttpRequest extends Buffer where
  head : RequestHead

def HttpRequest.write (r : HttpRequest) (data : Bytes) : HttpRequest :=
  { r with toBuffer := r.toBuffer.write data }

structure HttpContext where
  _request : Option HttpRequest
  _http100ContinueSent : Bool

/-- What the server does: a handler runs for a request and its body, or a response of its own is
written. -/
inductive Action
  | handle (selector : Bytes) (head : RequestHead) (body : Bytes)
  | respond (status : ℕ) (body : Bytes)
  deriving DecidableEq

structure Connection where
  _inBuff : Buffer
  _noRead : Bool
  _ttl : ℕ
  _context : Option HttpContext
  actions : List Action

namespace Connection

def respond (c : Connection) (status : ℕ) (body : Bytes) (ttl : ℕ) : Connection :=
  { c with _ttl := ttl, actions := c.actions ++ [.respond status body] }

/-- A response with a line of text. -/
def complain (c : Connection) (status : ℕ) (what : String) : Connection :=
  c.respond status (text what ++ crlf) 50

def skip (c : Connection) (length : ℕ) : Connection := { c with _inBuff := c._inBuff.skip length }

/-- A connection without a context gets a new one. -/
def ensureContext (c : Connection) : Connection :=
  { c with _context := some (c._context.getD ⟨none,false⟩) }

/-- The request of the context. -/
def setRequest (c : Connection) (r : HttpRequest) : Connection :=
  { c with _context := c._context.map fun context => { context with _request := some r } }

end Connection

/-- The selectors in the order of the map of handlers, and the text of the exception a handler
throws, if it does. -/
structure Node where
  handlers : List Bytes
  handle : Bytes → RequestHead → Bytes → Option String

/-- `getHandler`: a selector that begins the subject, or what is left of it. -/
def getHandler (handlers : List Bytes) : ℕ → Bytes → Option Bytes
  | 0, _ => none
  | fuel + 1, subject =>
    let notAbove := handlers.filter fun key => ¬ subject.map UInt8.toNat < key.map UInt8.toNat
    match notAbove.getLast? with
    | none => none
    | some key =>
      let len := min subject.length key.length
      if key.take len = subject.take len then some key
      else if (subject.take len).map UInt8.toNat < (key.take len).map UInt8.toNat then none
      else if len - 1 = 0 then none
      else getHandler handlers fuel (subject.take (len - 1))

/-- `memmem(..,"\r\n\r\n",4)`. -/
def endOfHeaders (data : Bytes) : Option ℕ := find (crlf ++ crlf) data

/-- The request read from a header block that is complete. -/
def takeRequest (c : Connection) (headersSize : ℕ) : Connection × Option HttpRequest :=
  match RequestHead.ofBytes (c._inBuff.unread.take headersSize) with
  | .error what => (c.complain 400 what,none)
  | .ok head =>
    let sent := (c._context.map HttpContext._http100ContinueSent).getD false
    let continues := !sent && head.expectsContinue
    let c := if continues then c.respond 100 [] 10000 else c
    let request : HttpRequest := { Buffer.empty with head := head }
    let context : HttpContext := ⟨some request,sent || continues⟩
    (({ c with _context := some context, _ttl := 5000 }).skip headersSize,some request)

/-- The part of the loop that reads the headers. `none` leaves the loop. -/
def readHeaders (c : Connection) : Connection × Option HttpRequest :=
  let data := c._inBuff.unread
  if data.length ≥ 4 ∧ ¬ startsWith data "GET" ∧ ¬ startsWith data "POST" then
    (c.complain 400 "Bad request ← Bad request line ← Bad method ← Unknown method",none)
  else
    match endOfHeaders data with
    | none =>
      if data.length < 2 ^ 12 then (c,none) else (c.complain 400 "Headers data too large",none)
    | some endHeaders =>
      if endHeaders > 2 ^ 12 then (c.complain 400 "Headers data too large",none)
      else takeRequest c (endHeaders + 4)

/-- A body whose length the headers give. -/
def readSized (c : Connection) (r : HttpRequest) : Connection × Option HttpRequest :=
  if r.head._contentLength > r.dataLen then
    let len := min r.head._contentLength c._inBuff.dataLen
    let r := r.write (c._inBuff.unread.take len)
    let c := (c.skip len).setRequest r
    if r.head._contentLength > r.dataLen then ({ c with _ttl := 5000 },none)
    else (c,some r)
  else (c,some r)

/-- `strcmp(..,"\r\n")` finds no difference: two bytes and the end of a C string. What lies behind
the vector does not count as an end. -/
def endsLine (memory : Bytes) : Bool := crlf ++ [0] <+: memory

/-- What lies in the vector of a buffer from some byte on that is not taken out yet, also behind
those put in. -/
def memoryFrom (b : Buffer) (offset : ℕ) : Bytes := b._data.drop (b._getPosition + offset)

/-- A body in chunks. Each round takes one. -/
def readChunks : ℕ → Connection → HttpRequest → Connection × Option HttpRequest
  | 0, c, _ => (c,none)
  | fuel + 1, c, r =>
    match find crlf c._inBuff.unread with
    | none => ({ c with _ttl := 5000 },none)
    | some endHeader =>
      match stoull16 (c._inBuff.unread.take endHeader) with
      | none => (c.complain 400 "Wrong head of chunk for chunked Transfer-Encoding",none)
      | some size =>
        if size > 2 ^ 22 then
          (c.complain 500 "Too large chunk for chunked Transfer-Encoding",none)
        else if c._inBuff.dataLen < endHeader + 2 + size + 2 then ({ c with _ttl := 5000 },none)
        else if ¬ endsLine (memoryFrom c._inBuff (endHeader + 2 + size)) then
          (c.complain 400 "Wrong end of chunk for chunked Transfer-Encoding",none)
        else
          let r := r.write ((c._inBuff.unread.drop (endHeader + 2)).take size)
          let c := (c.skip (endHeader + 2 + size + 2)).setRequest r
          if size = 0 then (c,some r)
          else if c._noRead then (c.complain 400 "Incomplete chunked body of request",none)
          else readChunks fuel c r

/-- The part of the loop that reads the body. `none` leaves the loop. -/
def readBody (c : Connection) (r : HttpRequest) : Connection × Option HttpRequest :=
  if r.head._method = .POST then
    if r.head._hasContentLength then readSized c r
    else if r.head.isChunked then readChunks (c._inBuff.dataLen + 1) c r
    else
      let r := r.write c._inBuff.unread
      let c := (c.skip c._inBuff.dataLen).setRequest r
      if ¬ c._noRead then ({ c with _ttl := 5000 },none) else (c,some r)
  else (c,some r)

variable (node : Node)

/-- A request that is complete. The loop goes on if there is a handler for it. -/
def serve (c : Connection) (r : HttpRequest) : Connection × Bool :=
  match getHandler node.handlers (r.head.path.length + 1) r.head.path with
  | none =>
    let what := text "Not found service-handler for uri " ++ r.head.path ++ crlf
    ({ c.respond 404 what 50 with _context := none },false)
  | some selector =>
    let c := { c with actions := c.actions ++ [Action.handle selector r.head r.unread] }
    match node.handle selector r.head r.unread with
    | none => ({ c with _context := none },true)
    | some what =>
      ({ c.complain 500 ("500 Internal Server Error:\n  " ++ what) with _context := none },true)

/-- The rest of the loop, with the request of the context. -/
def proceed (c : Connection) (r : HttpRequest) : Connection × Bool :=
  match readBody c r with
  | (c,none) => (c,false)
  | (c,some r) => serve node c r

/-- The body of the loop. `true` goes on with the next round. -/
def round (c : Connection) : Connection × Bool :=
  let c := c.ensureContext
  match c._context.bind HttpContext._request with
  | some r => proceed node c r
  | none =>
    match readHeaders c with
    | (c,none) => (c,false)
    | (c,some r) => proceed node c r

def loop : ℕ → Connection → Connection
  | 0, c => c
  | fuel + 1, c =>
    match round node c with
    | (c,true) => loop fuel c
    | (c,false) => c

/-- `HttpServer::processing`. Each round but the first takes a header block. -/
def processing (c : Connection) : Connection := loop node (c._inBuff.dataLen + 2) c

/-- What `readFromSocket` does with some bytes. -/
def receive (c : Connection) (piece : Bytes) : Connection :=
  let c := { c with _inBuff := c._inBuff.write piece }
  if c._inBuff.dataLen > 0 then processing node c else c

def run (c : Connection) (pieces : List Bytes) : Connection := pieces.foldl (receive node) c

/-- A connection just accepted, its buffer read up. -/
def opened (b : Buffer) : Connection where
  _inBuff := b.skip b.dataLen
  _noRead := false
  _ttl := 900000
  _context := none
  actions := []

end HttpServer
end Tkeycoin
