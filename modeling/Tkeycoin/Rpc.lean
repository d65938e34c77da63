import Tkeycoin.JsonDecoding

/-! `RPC::handler`: the body of a request on its way through decompression and
decoding, the exceptions of each layer, and the response. -/
namespace Tkeycoin

/-- What is thrown: an exception derived from `std::exception`, or a C string. -/
inductive Exception
  | std (e : StdException)
  | message (msg : Bytes)
  deriving DecidableEq

/-- zlib and the memory it works in. A status other than `Z_OK` is `none`. -/
structure Zlib where
  compress : Bytes → Option Bytes
  uncompress : ℕ → Bytes → Option Bytes
  allocates : ℕ → Bool

namespace GzipCompressor

variable (zlib : Zlib)

def deflate (input : Bytes) : Bytes :=
  if input.length ≤ 1024 then 0 :: input
  else
    match zlib.compress input with
    | some packed => 1 :: (leBytes 4 input.length ++ packed)
    | none => 0 :: input

/-- The flag byte, the length of the original and the packed data. The buffer keeps that
length when less comes out. -/
def inflate : Bytes → Except Exception Bytes
  | [] => .error (.message (text "Not anough data for trying decompress"))
  | flags :: rest =>
    if flags = 0 then .ok rest
    else if flags = 1 then
      if rest.length < 4 then .error (.message (text "Not anough data for decompress"))
      else
        let origLen := leValue (rest.take 4)
        if zlib.allocates origLen then
          match zlib.uncompress origLen (rest.drop 4) with
          | some out => .ok ((out ++ List.replicate (origLen - out.length) 0).take origLen)
          | none => .error (.message (text "Decompression failed"))
        else .error (.std .badAlloc)
    else .ok []

end GzipCompressor

/-- What the transmitter of the request is handed. -/
structure Response where
  data : Bytes
  contentType : String
  close : Bool
  deriving DecidableEq

/-- The context of one request over HTTP, with the responses transmitted so far. -/
structure LpsContext where
  _compression : Bool
  _closed : Bool
  _output : List SVal
  transmitted : List Response

namespace LpsContext

/-- As the handler makes it: with compression, nothing sent. -/
def fresh : LpsContext := ⟨true,false,[],[]⟩

abbrev Action := EStateM (Failure Exception) LpsContext

variable (fits : JsonSerializer.FloatRange) (floatText : Bytes → Bytes) (zlib : Zlib)

def ofExcept {α : Type} : Except Exception α → Action α
  | .ok a => pure a
  | .error e => throw (.thrown e)

/-- The exceptions of a serializer. -/
def ofDecoded {α : Type} : Except (Failure StdException) α → Action α
  | .ok a => pure a
  | .error (.thrown e) => throw (.thrown (.std e))
  | .error .endless => throw .endless

/-- `in[0]`, a null character behind the end of a string. -/
def firstChar (input : Bytes) : UInt8 := input.head?.getD 0

/-- Undo the compression of a request that says whether it has one. -/
def decompress (input : Bytes) : Action Bytes := do
  let s ← get
  if s._compression then
    if firstChar input = 0 ∨ firstChar input = 1 then ofExcept (GzipCompressor.inflate zlib input)
    else
      set { s with _compression := false }
      pure input
  else pure input

def recv (input : Bytes) : Action SVal := do
  let input ← decompress zlib input
  ofDecoded (JsonSerializer.decode fits true input)

def out (value : SVal) : Action Unit := do
  let s ← get
  if s._closed then pure () else set { s with _output := s._output ++ [value] }

/-- The response with the encoded output. -/
def response (s : LpsContext) (encoded : Bytes) : Response :=
  if s._compression then ⟨GzipCompressor.deflate zlib encoded,"application/octet-stream",true⟩
  else ⟨encoded,"application/json; charset=utf-8",true⟩

def send : Action Unit := do
  let s ← get
  if s._closed then pure ()
  else
    set { s with _closed := true, _output := [] }
    let encoded ← ofExcept ((JsonSerializer.encode floatText (.arr s._output)).mapError .std)
    modify fun t => { t with transmitted := t.transmitted ++ [response zlib s encoded] }

/-- The destructor sends what has not been sent, and lets no exception out. -/
def destroy (s : LpsContext) : LpsContext :=
  if s._closed then s
  else
    match (send floatText zlib).run s with
    | .ok () t => t
    | .error _ t => t

end LpsContext

namespace RPC

open LpsContext

section Handler

variable (fits : JsonSerializer.FloatRange) (floatText : Bytes → Bytes) (zlib : Zlib)

def expectObject : SVal → LpsContext.Action Unit
  | .obj _ => pure ()
  | _ => throw (.thrown (.std (.runtimeError (text "Expected JSON-serialized object"))))

/-- The `try` block. -/
def receive (body : Bytes) : LpsContext.Action Unit := do
  let rawInput ← recv fits zlib body
  expectObject rawInput

def errorReply (what : Bytes) : SVal :=
  .obj (SObj.emplace (text "messages") (.str what) (SObj.emplace (text "error") (.str (text "exception")) []))

/-- `catch (const std::exception&)`, then the response. -/
def respond (body : Bytes) : LpsContext.Action Unit := do
  tryCatch (receive fits zlib body) fun failure =>
    match failure with
    | .thrown (.std e) => out (errorReply e.what)
    | _ => throw failure
  send floatText zlib

/-- How a call of the handler ends, with the responses sent by then. -/
inductive Outcome
  | returned (responses : List Response)
  | thrown (e : Exception) (responses : List Response)
  | endless
  deriving DecidableEq

/-- The context is destroyed on the way out. -/
def leave : EStateM.Result (Failure Exception) LpsContext Unit → Outcome
  | .ok () s => .returned (destroy floatText zlib s).transmitted
  | .error (.thrown e) s => .thrown e (destroy floatText zlib s).transmitted
  | .error .endless _ => .endless

def handler (body : Bytes) : Outcome :=
  leave floatText zlib ((respond fits floatText zlib body).run .fresh)

/-- The text of an exception, whatever its type. -/
def what : Exception → Bytes
  | .std e => e.what
  | .message msg => msg

/-- The handler returns and has sent one response: the error reply for a request that
fails to be received, else an empty list. -/
def AnswersOnce (body : Bytes) : Prop :=
  match (receive fits zlib body).run .fresh with
  | .ok () s => ∃ encoded, JsonSerializer.encode floatText (.arr []) = .ok encoded ∧
      handler fits floatText zlib body = .returned [s.response zlib encoded]
  | .error (.thrown e) s => ∃ encoded, JsonSerializer.encode floatText (.arr [errorReply (what e)]) = .ok encoded ∧
      handler fits floatText zlib body = .returned [s.response zlib encoded]
  | .error .endless _ => False

/-- The decompressor throws a C string: for an empty body, and for one in the compressed
form that is too short or that zlib does not unpack. -/
def ThrowsMessage : Bytes → Prop
  | [] => True
  | flags :: rest => flags = 1 ∧ (rest.length < 4 ∨
      (zlib.allocates (leValue (rest.take 4)) = true ∧
        zlib.uncompress (leValue (rest.take 4)) (rest.drop 4) = none))

end Handler

section Layers

variable {fits : JsonSerializer.FloatRange} {floatText : Bytes → Bytes} {zlib : Zlib}

theorem inflate_message_iff (zlib : Zlib) (input : Bytes) (h : firstChar input = 0 ∨ firstChar input = 1) :
    (∃ msg, GzipCompressor.inflate zlib input = .error (.message msg)) ↔ ThrowsMessage zlib input := by
  cases input with
  | nil => simp [GzipCompressor.inflate,ThrowsMessage]
  | cons flags rest =>
    rcases h with h | h
    · obtain rfl : flags = 0 := h
      simp [GzipCompressor.inflate,ThrowsMessage]
    · obtain rfl : flags = 1 := h
      by_cases hlen : rest.length < 4
      · simp [GzipCompressor.inflate,ThrowsMessage,hlen]
      by_cases halloc : zlib.allocates (leValue (rest.take 4)) = true
      · cases hu : zlib.uncompress (leValue (rest.take 4)) (rest.drop 4) <;>
          simp [GzipCompressor.inflate,ThrowsMessage,hlen,halloc,hu]
      · simp [GzipCompressor.inflate,ThrowsMessage,hlen,halloc]

/-- Other bodies are not taken for compressed ones. -/
theorem not_throwsMessage_of_plain {input : Bytes} (h : ¬ (firstChar input = 0 ∨ firstChar input = 1)) :
    ¬ ThrowsMessage zlib input := by
  cases input with
  | nil => exact absurd (.inl rfl) h
  | cons flags rest => exact fun ht => h (.inr ht.1)

theorem decompress_run (input : Bytes) :
    (decompress zlib input).run .fresh =
      if firstChar input = 0 ∨ firstChar input = 1 then
        match GzipCompressor.inflate zlib input with
        | .ok data => .ok data .fresh
        | .error e => .error (.thrown e) .fresh
      else .ok input { fresh with _compression := false } := by
  by_cases h : firstChar input = 0 ∨ firstChar input = 1
  · simp only [decompress,EStateM.run_bind,EStateM.run_get,if_pos h]
    cases GzipCompressor.inflate zlib input <;> rfl
  · simp only [decompress,EStateM.run_bind,EStateM.run_get,if_neg h]
    rfl

/-- The decoder and the test of its result throw exceptions of the family only. -/
theorem decode_run (data : Bytes) (s : LpsContext) :
    (ofDecoded (JsonSerializer.decode fits true data) >>= expectObject).run s = .ok () s ∨
      ∃ e, (ofDecoded (JsonSerializer.decode fits true data) >>= expectObject).run s =
        .error (.thrown (.std e)) s := by
  rcases JsonSerializer.decode_total fits true data with ⟨value,hv⟩ | ⟨e,he⟩
  · rw [hv]
    cases value with
    | obj fields => exact .inl rfl
    | _ => exact .inr ⟨_,rfl⟩
  · rw [he]
    exact .inr ⟨e,rfl⟩

/-- A request is received, or fails with an exception of the family, or has the
decompressor throw. -/
theorem receive_cases (fits : JsonSerializer.FloatRange) (zlib : Zlib) (body : Bytes) :
    (ThrowsMessage zlib body ∧
      ∃ msg, (receive fits zlib body).run .fresh = .error (.thrown (.message msg)) .fresh) ∨
    (¬ ThrowsMessage zlib body ∧ ∃ compression,
      (receive fits zlib body).run .fresh = .ok () ⟨compression,false,[],[]⟩ ∨
      ∃ e, (receive fits zlib body).run .fresh = .error (.thrown (.std e)) ⟨compression,false,[],[]⟩) := by
  have hrun : (receive fits zlib body).run .fresh = match (decompress zlib body).run .fresh with
      | .ok data s => (ofDecoded (JsonSerializer.decode fits true data) >>= expectObject).run s
      | .error e s => .error e s := by
    rw [receive,recv,bind_assoc,EStateM.run_bind]
    cases (decompress zlib body).run .fresh <;> rfl
  rw [hrun,decompress_run]
  by_cases h : firstChar body = 0 ∨ firstChar body = 1
  · have hmessage := inflate_message_iff zlib body h
    rw [if_pos h]
    cases hi : GzipCompressor.inflate zlib body with
    | ok data => exact .inr ⟨fun ht => by simpa [hi] using hmessage.mpr ht,true,decode_run data .fresh⟩
    | error e =>
      cases e with
      | std e => exact .inr ⟨fun ht => by simpa [hi] using hmessage.mpr ht,true,.inr ⟨e,rfl⟩⟩
      | message msg => exact .inl ⟨hmessage.mp ⟨msg,hi⟩,msg,rfl⟩
  · rw [if_neg h]
    exact .inr ⟨not_throwsMessage_of_plain h,false,decode_run body _⟩

theorem mem_emplace {key : Bytes} {value : SVal} {fields : List (Bytes × SVal)} {field : Bytes × SVal}
    (h : field ∈ SObj.emplace key value fields) : field = (key,value) ∨ field ∈ fields := by
  induction fields with
  | nil => exact .inl (by simpa [SObj.emplace] using h)
  | cons first fields ih =>
    rw [SObj.emplace] at h
    split_ifs at h
    · exact .inr h
    · exact List.mem_cons.mp h
    · rcases List.mem_cons.mp h with rfl | h
      · exact .inr (by simp)
      · exact (ih h).imp id (List.mem_cons_of_mem _)

theorem encodeFields_str (floatText : Bytes → Bytes) {fields : List (Bytes × SVal)} (h : ∀ field ∈ fields, ∃ value, field.2 = .str value) :
    ∃ parts, JsonSerializer.encodeFields floatText fields = .ok parts := by
  induction fields with
  | nil => exact ⟨[],rfl⟩
  | cons field fields ih =>
    obtain ⟨value,hv⟩ := h field (by simp)
    obtain ⟨parts,hp⟩ := ih fun f hf => h f (List.mem_cons_of_mem _ hf)
    obtain ⟨key,v⟩ := field
    obtain rfl : v = .str value := hv
    exact ⟨_,by rw [JsonSerializer.encodeFields,hp]; rfl⟩

/-- The error reply can be encoded. -/
theorem encode_errorReply (floatText : Bytes → Bytes) (what : Bytes) :
    ∃ encoded, JsonSerializer.encode floatText (.arr [errorReply what]) = .ok encoded := by
  have hstr : ∀ field ∈ SObj.emplace (text "messages") (.str what)
      (SObj.emplace (text "error") (.str (text "exception")) []), ∃ value, field.2 = .str value := by
    intro field hf
    rcases mem_emplace hf with rfl | hf
    · exact ⟨_,rfl⟩
    rcases mem_emplace hf with rfl | hf
    · exact ⟨_,rfl⟩
    · simp at hf
  obtain ⟨parts,hp⟩ := encodeFields_str floatText hstr
  have hvalue : ∃ part, JsonSerializer.encodeValue floatText (errorReply what) = .ok part := by
    rw [errorReply,JsonSerializer.encodeValue,hp]
    exact ⟨_,rfl⟩
  obtain ⟨part,hpart⟩ := hvalue
  have harr : ∃ encoded, JsonSerializer.encodeValue floatText (.arr [errorReply what]) = .ok encoded := by
    rw [JsonSerializer.encodeValue,JsonSerializer.encodeElements,hpart]
    exact ⟨_,rfl⟩
  obtain ⟨encoded,hencoded⟩ := harr
  exact ⟨encoded,by rw [JsonSerializer.encode,hencoded]; rfl⟩

/-- So can the empty list. -/
theorem encode_empty : JsonSerializer.encode floatText (.arr []) =
    .ok ([JsonSerializer.openArray] ++ [JsonSerializer.comma].intercalate [] ++ [JsonSerializer.closeArray]) := by
  rw [JsonSerializer.encode,JsonSerializer.encodeValue,JsonSerializer.encodeElements]
  rfl

theorem send_run (floatText : Bytes → Bytes) (zlib : Zlib) (s : LpsContext) (hs : s._closed = false) {encoded : Bytes}
    (h : JsonSerializer.encode floatText (.arr s._output) = .ok encoded) :
    (send floatText zlib).run s =
      .ok () { s with _closed := true, _output := [], transmitted := s.transmitted ++ [s.response zlib encoded] } := by
  simp only [send,EStateM.run_bind,EStateM.run_get,hs,h]
  rfl

/-- What the handler makes of how the request was received. -/
theorem handler_eq (fits : JsonSerializer.FloatRange) (floatText : Bytes → Bytes) (zlib : Zlib) (body : Bytes) :
    handler fits floatText zlib body = match (receive fits zlib body).run .fresh with
      | .ok () s => leave floatText zlib ((send floatText zlib).run s)
      | .error (.thrown (.std e)) s => leave floatText zlib ((do out (errorReply e.what); send floatText zlib).run s)
      | .error failure s => leave floatText zlib (.error failure s) := by
  have hrespond : (respond fits floatText zlib body).run .fresh = match (receive fits zlib body).run .fresh with
      | .ok () s => (send floatText zlib).run s
      | .error (.thrown (.std e)) s => (do out (errorReply e.what); send floatText zlib).run s
      | .error failure s => .error failure s := by
    rw [respond,EStateM.run_bind]
    simp only [tryCatch,tryCatchThe,MonadExceptOf.tryCatch,EStateM.tryCatch,EStateM.run]
    rcases receive fits zlib body .fresh with s | ⟨(e | msg) | _,s⟩
    all_goals rfl
  rw [handler,hrespond]
  rcases (receive fits zlib body).run .fresh with s | ⟨(e | msg) | _,s⟩ <;> rfl

/-- Every request is answered once, and every failure with the error reply, exactly where
the decompressor throws no C string. -/
theorem answersOnce_iff (fits : JsonSerializer.FloatRange) (floatText : Bytes → Bytes) (zlib : Zlib)
    (body : Bytes) : AnswersOnce fits floatText zlib body ↔ ¬ ThrowsMessage zlib body := by
  have heq := handler_eq fits floatText zlib body
  rcases receive_cases fits zlib body with ⟨ht,msg,hr⟩ | ⟨ht,c,hr | ⟨e,hr⟩⟩
  · -- the C string is not caught
    simp [AnswersOnce,hr,heq,ht,leave]
  · have hsend := send_run floatText zlib ⟨c,false,[],[]⟩ rfl encode_empty
    simp only [hr,hsend] at heq
    simp only [AnswersOnce,hr,ht,not_false_eq_true,iff_true]
    exact ⟨_,encode_empty,heq⟩
  · obtain ⟨encoded,hencoded⟩ := encode_errorReply floatText e.what
    have hout : (do out (errorReply e.what); send floatText zlib : LpsContext.Action Unit).run ⟨c,false,[],[]⟩ =
        (send floatText zlib).run ⟨c,false,[errorReply e.what],[]⟩ := rfl
    have hsend := send_run floatText zlib ⟨c,false,[errorReply e.what],[]⟩ rfl hencoded
    simp only [hr,hout,hsend] at heq
    simp only [AnswersOnce,hr,ht,not_false_eq_true,iff_true]
    exact ⟨encoded,hencoded,heq⟩

/-- The empty body of a GET request is taken for a compressed one. -/
theorem emptyBody_not_answered :
    handler (fun _ => true) id ⟨fun _ => none,fun _ _ => none,fun _ => true⟩ [] =
        .thrown (.message (text "Not anough data for trying decompress"))
          [⟨[0,0x5b,0x5d],"application/octet-stream",true⟩] ∧
      ¬ AnswersOnce (fun _ => true) id ⟨fun _ => none,fun _ _ => none,fun _ => true⟩ [] :=
  ⟨rfl,fun ⟨_,_,h⟩ => nomatch h⟩

end Layers
end RPC
end Tkeycoin
