import Tkeycoin.HttpServer

/-! Requests as they are sent, and the places of a stream of them that reads may cut. -/
namespace Tkeycoin
namespace HttpServer

open Splitting

/-- A chunk as its sender has it. -/
structure Chunk where
  digits : Bytes
  ext : Bytes
  data : Bytes
  digits_ne : digits ≠ []
  hex : ∀ c ∈ digits, isxdigit c
  value : number 16 digits = data.length
  ext_begin : ∀ c, ext.head? = some c → c = 0x3b
  ext_line : 0x0d ∉ ext
  small : data.length ≤ 2 ^ 22

namespace Chunk

/-- The size, with an extension. -/
def line (chunk : Chunk) : Bytes := chunk.digits ++ chunk.ext

def encode (chunk : Chunk) : Bytes := chunk.line ++ crlf ++ (chunk.data ++ crlf)

theorem not_mem_line (chunk : Chunk) : 0x0d ∉ chunk.line := by
  intro hmem
  rcases List.mem_append.mp hmem with hdigits | hext
  · exact absurd (chunk.hex _ hdigits) (by decide)
  · exact chunk.ext_line hext

/-- The size stands at the front of a chunk. -/
theorem stoull16_line (chunk : Chunk) : stoull16 chunk.line = some chunk.data.length := by
  have hlt : number 16 chunk.digits < 2 ^ 64 := by
    have := chunk.small
    rw [chunk.value]
    omega
  rw [line,stoull16_digits chunk.hex chunk.digits_ne chunk.ext_begin hlt,chunk.value]

theorem length_encode (chunk : Chunk) :
    chunk.encode.length = chunk.line.length + 2 + chunk.data.length + 2 := by
  simp [encode,crlf]
  omega

theorem find_line (chunk : Chunk) (s : Bytes) :
    find crlf (chunk.line ++ crlf ++ s) = some chunk.line.length :=
  find_front chunk.not_mem_line s

end Chunk

/-- What follows the header block of a request. -/
inductive Body
  | none
  | sized (content : Bytes)
  | chunked (chunks : List Chunk) (last : Chunk)

namespace Body

/-- The chunks with the last one. -/
def chunks : Body → List Chunk
  | .chunked chunks last => chunks ++ [last]
  | _ => []

def encode : Body → Bytes
  | .none => []
  | .sized content => content
  | .chunked chunks last => (chunks ++ [last]).flatMap Chunk.encode

/-- The body that the handler is to get. -/
def payload : Body → Bytes
  | .none => []
  | .sized content => content
  | .chunked chunks last => (chunks ++ [last]).flatMap Chunk.data

/-- What the headers must say of the body. -/
def Framed (head : RequestHead) : Body → Prop
  | .none => head._method = .GET
  | .sized content =>
    head._method = .POST ∧ head._hasContentLength ∧ head._contentLength = content.length
  | .chunked chunks last =>
    head._method = .POST ∧ head._hasContentLength = false ∧ head.isChunked ∧
      (∀ chunk ∈ chunks, chunk.data ≠ []) ∧ last.data = []

end Body

/-- A request as its sender has it: a header block that ends where it first can, is below the
limit and is read as one of a path with a handler. -/
structure SentRequest (handlers : List Bytes) where
  block : Bytes
  head : RequestHead
  body : Body
  selector : Bytes
  ends : endOfHeaders block = some (block.length - 4)
  short : block.length < 2 ^ 12
  reads : RequestHead.ofBytes block = .ok head
  framed : body.Framed head
  found : getHandler handlers (head.path.length + 1) head.path = some selector

variable {handlers : List Bytes}

namespace SentRequest

def encode (r : SentRequest handlers) : Bytes := r.block ++ r.body.encode

/-- The one call a request is for. -/
def call (r : SentRequest handlers) : Action := .handle r.selector r.head r.body.payload

theorem four_le (r : SentRequest handlers) : 4 ≤ r.block.length := by
  have := find_le r.ends
  simp only [crlf,List.length_append,List.length_cons,List.length_nil] at this
  omega

end SentRequest

/-- The bytes of some requests. -/
def stream (requests : List (SentRequest handlers)) : Bytes := requests.flatMap SentRequest.encode

@[simp] theorem stream_nil : stream ([] : List (SentRequest handlers)) = [] := rfl

@[simp] theorem stream_cons (r : SentRequest handlers) (requests : List (SentRequest handlers)) :
    stream (r :: requests) = r.encode ++ stream requests := rfl

@[simp] theorem stream_append (requests more : List (SentRequest handlers)) :
    stream (requests ++ more) = stream requests ++ stream more := by
  simp [stream]

/-- The requests that are complete in the first bytes of a stream. -/
def complete : List (SentRequest handlers) → ℕ → List (SentRequest handlers)
  | [], _ => []
  | r :: rest, n => if r.encode.length ≤ n then r :: complete rest (n - r.encode.length) else []

/-- The calls among what a server does. -/
def calls (actions : List Action) : List Action :=
  actions.filter fun
    | .handle _ _ _ => true
    | .respond _ _ => false

/-- A read of some length that begins inside a body with a given length, behind its first byte,
and goes on behind its end. -/
def Overtakes (requests : List (SentRequest handlers)) (position length : ℕ) : Prop :=
  ∃ served r rest content, requests = served ++ r :: rest ∧ r.body = .sized content ∧
    (stream served).length + r.block.length < position ∧
    position < (stream served).length + r.encode.length ∧
    (stream served).length + r.encode.length < position + length

/-- A place where a chunk ends. -/
def ChunkEnd (requests : List (SentRequest handlers)) (position : ℕ) : Prop :=
  ∃ served r rest before chunk after, requests = served ++ r :: rest ∧
    r.body.chunks = before ++ chunk :: after ∧
    position = (stream served).length + r.block.length +
      ((before ++ [chunk]).flatMap Chunk.encode).length

/-- Behind the bytes put in, the vector of a buffer has a zero. -/
def ZeroBehind (b : Buffer) : Prop := (b._data.drop b._putPosition).head? = some 0

/-- A read at some place of the stream that overtakes no body and brings the end of a chunk only
as its last byte, with a zero behind it in the buffer. -/
def Calm (requests : List (SentRequest handlers)) (s : Connection × ℕ) (piece : Bytes) : Prop :=
  ¬ Overtakes requests s.2 piece.length ∧
    ∀ place, ChunkEnd requests place → s.2 < place → place ≤ s.2 + piece.length →
      place = s.2 + piece.length ∧ ZeroBehind (s.1._inBuff.write piece)

end HttpServer
end Tkeycoin
