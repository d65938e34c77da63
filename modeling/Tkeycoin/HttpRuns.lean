import Tkeycoin.HttpMessages
import Tkeycoin.Stepping

/-! What an HTTP connection does with requests that arrive in pieces. -/
namespace Tkeycoin
namespace HttpServer

open Splitting Stepping

variable {handlers : List Bytes}

section Memory

variable {b : Buffer} {x : Bytes}

/-- The bytes not taken out, from one of them on, and the rest of the vector behind them. -/
theorem memoryFrom_eq {offset : ℕ} (h : offset ≤ b.unread.length) :
    memoryFrom b offset = b.unread.drop offset ++ b._data.drop b._putPosition := by
  have hput := b.put_le
  have hget := b.get_le
  rw [Buffer.length_unread,Buffer.dataLen] at h
  rw [memoryFrom,Buffer.unread,List.drop_drop,← List.drop_append_of_le_length (by simp; omega),
    List.take_append_drop]

theorem endsLine_of (hb : b.unread = x ++ crlf) (hzero : ZeroBehind b) :
    endsLine (memoryFrom b x.length) := by
  rw [memoryFrom_eq (by simp [hb]),hb,List.drop_left,endsLine]
  obtain ⟨rest,hrest⟩ := List.head?_eq_some_iff.mp hzero
  simp [hrest]

theorem zeroBehind_skip (hzero : ZeroBehind b) (length : ℕ) : ZeroBehind (b.skip length) := by
  rw [Buffer.skip]
  split_ifs
  · exact hzero
  · exact hzero

end Memory

/-- What has been called for and what is unread, whatever request has been begun. -/
structure Has (served : List (SentRequest handlers)) (unread : Bytes) (c : Connection) : Prop where
  reading : c._noRead = false
  called : calls c.actions = served.map SentRequest.call
  unread : c._inBuff.unread = unread

/-- The request that has been begun. -/
def begun (c : Connection) : Option HttpRequest := c._context.bind HttpContext._request

/-- A request with a part of its body. -/
structure Holds (r : SentRequest handlers) (body : Bytes) (request : HttpRequest) : Prop where
  head : request.head = r.head
  unread : request.unread = body

/-- Where a connection stands behind some requests: in the header block of the next, in its body
of a given length, or in one of its chunks. -/
inductive Stands (served : List (SentRequest handlers)) :
    List (SentRequest handlers) → ℕ → Connection → Prop
  | done {c} : Has served [] c → begun c = none → Stands served [] 0 c
  | head {c r rest k} : k < r.block.length → Has served (r.block.take k) c → begun c = none →
      Stands served (r :: rest) k c
  | sized {c r rest content held request} : r.body = .sized content → held < content.length →
      Has served [] c → begun c = some request → Holds r (content.take held) request →
      Stands served (r :: rest) (r.block.length + held) c
  | chunk {c r rest before chunk after k request} : r.body.chunks = before ++ chunk :: after →
      k < chunk.encode.length → Has served (chunk.encode.take k) c → begun c = some request →
      Holds r (before.flatMap Chunk.data) request →
      Stands served (r :: rest)
        (r.block.length + ((before.flatMap Chunk.encode).length + k)) c

section Rounds

variable {served rest : List (SentRequest handlers)} {r : SentRequest handlers} {b more : Bytes}
  {c : Connection} {request : HttpRequest}

@[simp] theorem calls_respond (actions : List Action) (status : ℕ) (body : Bytes) :
    calls (actions ++ [.respond status body]) = calls actions := by
  simp [calls]

@[simp] theorem calls_handle (actions : List Action) (selector : Bytes) (head : RequestHead)
    (body : Bytes) :
    calls (actions ++ [.handle selector head body]) =
      calls actions ++ [.handle selector head body] := by
  simp [calls]

theorem Holds.write {body : Bytes} (h : Holds r body request) (data : Bytes) :
    Holds r (body ++ data) (request.write data) where
  head := h.head
  unread := (Buffer.unread_write request.toBuffer data).trans (by rw [h.unread])

/-- A header block with what follows it. -/
theorem takeRequest_block (h : Has served (r.block ++ more) c) :
    ∃ c' request, takeRequest c r.block.length = (c',some request) ∧ Has served more c' ∧
      begun c' = some request ∧ Holds r [] request ∧
      (ZeroBehind c._inBuff → ZeroBehind c'._inBuff) := by
  have htake : c._inBuff.unread.take r.block.length = r.block := by
    rw [h.unread,List.take_left]
  have hskip : (c._inBuff.skip r.block.length).unread = more := by
    rw [Buffer.unread_skip (by simp [h.unread]),h.unread,List.drop_left]
  simp only [takeRequest,htake,r.reads]
  refine ⟨_,_,rfl,?_,rfl,⟨rfl,rfl⟩,?_⟩
  · split_ifs
    · exact ⟨h.reading,by simpa [Connection.skip,Connection.respond] using h.called,hskip⟩
    · exact ⟨h.reading,h.called,hskip⟩
  · intro hzero
    split_ifs
    · exact zeroBehind_skip hzero _
    · exact zeroBehind_skip hzero _

theorem readHeaders_block (h : Has served (r.block ++ more) c) :
    readHeaders c = takeRequest c r.block.length := by
  have hfour := r.four_le
  have hshort := r.short
  have hfront : (r.block ++ more).take 4 = r.block.take 4 := List.take_append_of_le_length hfour
  have hverb : ¬ (¬ startsWith (r.block ++ more) "GET" ∧ ¬ startsWith (r.block ++ more) "POST") := by
    rw [startsWith_congr hfront (by decide),startsWith_congr hfront (by decide),← not_or,not_not]
    exact RequestHead.startsWith_of_ofBytes r.reads
  have hends : endOfHeaders (r.block ++ more) = some (r.block.length - 4) := find_append r.ends more
  have hsmall : ¬ r.block.length - 4 > 2 ^ 12 := by omega
  have hwhole : r.block.length - 4 + 4 = r.block.length := by omega
  simp only [readHeaders,h.unread,hverb,and_false,if_false,hends,hsmall,hwhole]

theorem readHeaders_part {k : ℕ} (hk : k < r.block.length) (h : Has served (r.block.take k) c) :
    readHeaders c = (c,none) := by
  have hfour := r.four_le
  have hshort := r.short
  have hends : endOfHeaders (r.block.take k) = none := by
    refine find_take r.ends ?_
    simp only [crlf,List.length_append,List.length_cons,List.length_nil]
    omega
  have hsmall : (r.block.take k).length < 2 ^ 12 := by
    rw [List.length_take]
    omega
  have hverb : ¬ ((r.block.take k).length ≥ 4 ∧ ¬ startsWith (r.block.take k) "GET" ∧
      ¬ startsWith (r.block.take k) "POST") := by
    intro hbad
    have hfront : (r.block.take k).take 4 = r.block.take 4 := by
      have hlength := hbad.1
      rw [List.length_take] at hlength
      rw [List.take_take,Nat.min_eq_left (by omega)]
    rw [startsWith_congr hfront (by decide),startsWith_congr hfront (by decide),← not_or] at hbad
    exact hbad.2 (RequestHead.startsWith_of_ofBytes r.reads)
  simp only [readHeaders,h.unread,hverb,if_false,hends,hsmall,if_true]

theorem readHeaders_nothing (h : c._inBuff.unread = []) : readHeaders c = (c,none) := by
  simp [readHeaders,h,endOfHeaders,find,crlf]

/-- A request that is complete. -/
theorem serve_holds (node : Node) {r : SentRequest node.handlers}
    {served : List (SentRequest node.handlers)} (h : Has served more c)
    (hr : Holds r r.body.payload request) :
    ∃ c', serve node c request = (c',true) ∧ Has (served ++ [r]) more c' ∧ begun c' = none ∧
      c'._inBuff = c._inBuff := by
  have hcalls : calls (c.actions ++ [.handle r.selector r.head r.body.payload]) =
      (served ++ [r]).map SentRequest.call := by
    rw [calls_handle,h.called,List.map_append]
    rfl
  simp only [serve,hr.head,r.found,hr.unread]
  cases hthrows : node.handle r.selector r.head r.body.payload with
  | none => exact ⟨_,rfl,⟨h.reading,hcalls,h.unread⟩,rfl,rfl⟩
  | some what =>
    exact ⟨_,rfl,⟨h.reading,(calls_respond _ _ _).trans hcalls,h.unread⟩,rfl,rfl⟩

theorem begun_setRequest (hbegun : begun c = some request) (next : HttpRequest) :
    begun (c.setRequest next) = some next := by
  cases hcontext : c._context with
  | none => simp [begun,hcontext] at hbegun
  | some context => simp [begun,Connection.setRequest,hcontext]

theorem sized_length {content : Bytes} (hbody : r.body = .sized content) :
    r.head._contentLength = content.length := by
  have hframed := r.framed
  rw [hbody] at hframed
  exact hframed.2.2

theorem readBody_sized {content : Bytes} (hbody : r.body = .sized content) (hhead : request.head = r.head) :
    readBody c request = readSized c request := by
  have hframed := r.framed
  rw [hbody] at hframed
  simp only [readBody,hhead,hframed.1,hframed.2.1,if_true]

/-- A body of a given length that stays incomplete. -/
theorem readSized_waits {content : Bytes} {held : ℕ} (rest : List (SentRequest handlers))
    (hbody : r.body = .sized content) (h : Has served b c) (hbegun : begun c = some request)
    (hr : Holds r (content.take held) request)
    (hb : b = (content.drop held).take b.length) (hshort : held + b.length < content.length) :
    ∃ c', readSized c request = (c',none) ∧
      Stands served (r :: rest) (r.block.length + (held + b.length)) c' := by
  have hlength : request.head._contentLength = content.length := by
    rw [hr.head,sized_length hbody]
  have hheld : request.dataLen = held := by
    rw [← Buffer.length_unread,hr.unread,List.length_take]
    omega
  have hstart : request.head._contentLength > request.dataLen := by omega
  have hdata : c._inBuff.dataLen = b.length := by rw [← Buffer.length_unread,h.unread]
  have hlen : min request.head._contentLength c._inBuff.dataLen = b.length := by omega
  have hall : c._inBuff.unread.take b.length = b := by rw [h.unread,List.take_length]
  have happend : content.take held ++ b = content.take (held + b.length) := by
    rw [List.take_add,← hb]
  have hmore : Holds r (content.take (held + b.length)) (request.write b) := by
    rw [← happend]
    exact hr.write b
  have hwait : (request.write b).head._contentLength > (request.write b).dataLen := by
    rw [hmore.head,sized_length hbody,← Buffer.length_unread,hmore.unread,List.length_take]
    omega
  have hskip : (c._inBuff.skip b.length).unread = [] := by
    rw [Buffer.unread_skip (by simp [h.unread]),h.unread,List.drop_length]
  simp only [readSized,hstart,if_true,hlen,hall,hwait]
  refine ⟨_,rfl,Stands.sized hbody hshort ⟨h.reading,h.called,hskip⟩ ?_ hmore⟩
  exact begun_setRequest (c := c.skip b.length) hbegun (request.write b)

/-- A body of a given length that becomes complete, where no bytes stand behind it or none were
held before. -/
theorem readSized_serves {content : Bytes} {held : ℕ} (hbody : r.body = .sized content)
    (h : Has served (b ++ more) c) (hr : Holds r (content.take held) request)
    (hb : b = content.drop held) (hheld : held ≤ content.length) (hexact : held = 0 ∨ more = []) :
    ∃ c' request', readSized c request = (c',some request') ∧ Has served more c' ∧
      Holds r r.body.payload request' ∧ (ZeroBehind c._inBuff → ZeroBehind c'._inBuff) := by
  have hpayload : r.body.payload = content := by rw [hbody,Body.payload]
  have hlength : request.head._contentLength = content.length := by
    rw [hr.head,sized_length hbody]
  have hheldlen : request.dataLen = held := by
    rw [← Buffer.length_unread,hr.unread,List.length_take]
    omega
  have hblen : b.length = content.length - held := by rw [hb,List.length_drop]
  have hdata : c._inBuff.dataLen = b.length + more.length := by
    rw [← Buffer.length_unread,h.unread,List.length_append]
  by_cases hstart : request.head._contentLength > request.dataLen
  · have hlen : min request.head._contentLength c._inBuff.dataLen = b.length := by
      rcases hexact with hzero | hnil
      · omega
      · rw [hnil,List.length_nil] at hdata
        omega
    have hall : c._inBuff.unread.take b.length = b := by rw [h.unread,List.take_left]
    have hmore : Holds r content (request.write b) := by
      have hwrite := hr.write b
      rwa [hb,List.take_append_drop,← hb] at hwrite
    have hgo : ¬ (request.write b).head._contentLength > (request.write b).dataLen := by
      rw [hmore.head,sized_length hbody,← Buffer.length_unread,hmore.unread]
      omega
    have hskip : (c._inBuff.skip b.length).unread = more := by
      rw [Buffer.unread_skip (by simp [h.unread]),h.unread,List.drop_left]
    simp only [readSized,hstart,if_true,hlen,hall,hgo,if_false]
    exact ⟨_,_,rfl,⟨h.reading,h.called,hskip⟩,by rwa [hpayload],
      fun hzero => zeroBehind_skip hzero _⟩
  · have hwhole : content.take held = content := List.take_of_length_le (by omega)
    have hnil : b = [] := List.eq_nil_of_length_eq_zero (by omega)
    rw [hnil,List.nil_append] at h
    simp only [readSized,hstart,if_false]
    exact ⟨_,_,rfl,h,by rwa [hpayload,← hwhole],id⟩

section Chunks

variable {before after : List Chunk} {chunk : Chunk}

/-- Only a chunked body has chunks. -/
theorem chunked_of_chunks (hchunks : r.body.chunks = before ++ chunk :: after) :
    ∃ chunks last, r.body = .chunked chunks last := by
  cases hbody : r.body with
  | none => simp [hbody,Body.chunks] at hchunks
  | sized content => simp [hbody,Body.chunks] at hchunks
  | chunked chunks last => exact ⟨chunks,last,rfl⟩

/-- The last chunk is the one without data. -/
theorem after_nil_iff (hchunks : r.body.chunks = before ++ chunk :: after) :
    after = [] ↔ chunk.data.length = 0 := by
  have hframed := r.framed
  obtain ⟨chunks,last,hbody⟩ := chunked_of_chunks hchunks
  rw [hbody] at hframed hchunks
  obtain ⟨_,_,_,hdata,hlast⟩ := hframed
  cases hafter : after.reverse with
  | nil =>
    have hnil : after = [] := List.reverse_eq_nil_iff.mp hafter
    rw [hnil] at hchunks
    have hsame := (List.append_inj' hchunks rfl).2
    simp only [List.cons.injEq,and_true] at hsame
    simp [hnil,← hsame,hlast]
  | cons final front =>
    have hcons : after = front.reverse ++ [final] := by
      rw [← List.reverse_reverse after,hafter,List.reverse_cons]
    rw [hcons,← List.cons_append,← List.append_assoc] at hchunks
    have hsame := (List.append_inj' hchunks rfl).1
    have hmem : chunk ∈ chunks := by simp [hsame]
    simp [hcons,hdata chunk hmem]

theorem encode_chunks (hchunks : r.body.chunks = before ++ chunk :: after) :
    r.body.encode = (before ++ chunk :: after).flatMap Chunk.encode := by
  obtain ⟨chunks,last,hbody⟩ := chunked_of_chunks hchunks
  rw [← hchunks,hbody]
  rfl

theorem payload_chunks (hchunks : r.body.chunks = before ++ chunk :: after) :
    r.body.payload = (before ++ chunk :: after).flatMap Chunk.data := by
  obtain ⟨chunks,last,hbody⟩ := chunked_of_chunks hchunks
  rw [← hchunks,hbody]
  rfl

/-- A chunk that is not all there. -/
theorem readChunks_waits {k : ℕ} (fuel : ℕ) (rest : List (SentRequest handlers))
    (hchunks : r.body.chunks = before ++ chunk :: after) (hk : k < chunk.encode.length)
    (h : Has served (chunk.encode.take k) c) (hbegun : begun c = some request)
    (hr : Holds r (before.flatMap Chunk.data) request) :
    ∃ c', readChunks (fuel + 1) c request = (c',none) ∧ Stands served (r :: rest)
      (r.block.length + ((before.flatMap Chunk.encode).length + k)) c' := by
  have hstands : Stands served (r :: rest)
      (r.block.length + ((before.flatMap Chunk.encode).length + k)) { c with _ttl := 5000 } :=
    Stands.chunk hchunks hk ⟨h.reading,h.called,h.unread⟩ hbegun hr
  have hlength := chunk.length_encode
  by_cases hline : k < chunk.line.length + 2
  · have hnone : find crlf (chunk.encode.take k) = none := find_take (chunk.find_line _) hline
    simp only [readChunks,h.unread,hnone]
    exact ⟨_,rfl,hstands⟩
  · have hfront : chunk.encode.take k =
        chunk.line ++ crlf ++ (chunk.data ++ crlf).take (k - (chunk.line.length + 2)) := by
      rw [Chunk.encode,List.take_append,List.take_of_length_le (by simp [crlf]; omega)]
      simp [crlf]
    have hfound : find crlf (chunk.encode.take k) = some chunk.line.length := by
      rw [hfront]
      exact chunk.find_line _
    have htake : (chunk.encode.take k).take chunk.line.length = chunk.line := by
      rw [hfront,List.append_assoc,List.take_left]
    have hdata : c._inBuff.dataLen = k := by
      rw [← Buffer.length_unread,h.unread,List.length_take]
      omega
    have hshort : k < chunk.line.length + 2 + chunk.data.length + 2 := by omega
    simp only [readChunks,h.unread,hfound,htake,chunk.stoull16_line,not_lt.mpr chunk.small,
      if_false,hdata,hshort,if_true]
    exact ⟨_,rfl,hstands⟩

/-- A chunk that is all there, with a zero behind it. -/
theorem readChunks_chunk (fuel : ℕ) (h : Has served chunk.encode c)
    (hbegun : begun c = some request) {body : Bytes} (hr : Holds r body request)
    (hzero : ZeroBehind c._inBuff) :
    ∃ c' request', readChunks (fuel + 1) c request =
        (if chunk.data.length = 0 then (c',some request') else readChunks fuel c' request') ∧
      Has served [] c' ∧ begun c' = some request' ∧ Holds r (body ++ chunk.data) request' := by
  have hlength := chunk.length_encode
  have hfound : find crlf chunk.encode = some chunk.line.length := chunk.find_line _
  have htake : chunk.encode.take chunk.line.length = chunk.line := by
    rw [Chunk.encode,List.append_assoc,List.take_left]
  have hdata : c._inBuff.dataLen = chunk.encode.length := by
    rw [← Buffer.length_unread,h.unread]
  have henough : ¬ chunk.encode.length < chunk.line.length + 2 + chunk.data.length + 2 := by omega
  have hends : endsLine (memoryFrom c._inBuff (chunk.line.length + 2 + chunk.data.length)) := by
    have hline := endsLine_of (x := chunk.line ++ crlf ++ chunk.data) (b := c._inBuff)
      (by rw [h.unread,Chunk.encode]; simp) hzero
    have hplace : (chunk.line ++ crlf ++ chunk.data).length =
        chunk.line.length + 2 + chunk.data.length := by
      simp only [crlf,List.length_append,List.length_cons,List.length_nil]
    rwa [hplace] at hline
  have hbody : (chunk.encode.drop (chunk.line.length + 2)).take chunk.data.length = chunk.data := by
    have hdrop : chunk.encode.drop (chunk.line.length + 2) = chunk.data ++ crlf := by
      apply List.drop_left'
      simp [crlf]
    rw [hdrop,List.take_left]
  have hskip : (c._inBuff.skip (chunk.line.length + 2 + chunk.data.length + 2)).unread = [] := by
    rw [← hlength,← hdata,Buffer.unread_skip (by rw [Buffer.length_unread]),
      ← Buffer.length_unread,List.drop_length]
  refine ⟨(c.skip (chunk.line.length + 2 + chunk.data.length + 2)).setRequest
    (request.write chunk.data),request.write chunk.data,?_,⟨h.reading,h.called,hskip⟩,
    begun_setRequest (c := c.skip _) hbegun _,hr.write _⟩
  have hopen : ((c.skip (chunk.line.length + 2 + chunk.data.length + 2)).setRequest
    (request.write chunk.data))._noRead = false := h.reading
  simp only [readChunks,h.unread,hfound,htake,chunk.stoull16_line,not_lt.mpr chunk.small,
    if_false,hdata,henough,hends,not_true_eq_false,hbody,hopen,Bool.false_eq_true]

/-- What has come of a chunk: less than all of it, or all and nothing more. -/
theorem readChunks_some {fuel : ℕ} (rest : List (SentRequest handlers))
    (hchunks : r.body.chunks = before ++ chunk :: after) (h : Has served b c)
    (hbegun : begun c = some request) (hr : Holds r (before.flatMap Chunk.data) request)
    (hb : b.length < chunk.encode.length ∧ b = chunk.encode.take b.length ∨
      b = chunk.encode ∧ ZeroBehind c._inBuff) (hfuel : b.length ≤ fuel) :
    (∃ c', readChunks (fuel + 1) c request = (c',none) ∧ Stands served (r :: rest)
        (r.block.length + ((before.flatMap Chunk.encode).length + b.length)) c') ∨
      ∃ c' request', readChunks (fuel + 1) c request = (c',some request') ∧ Has served [] c' ∧
        Holds r r.body.payload request' ∧ after = [] ∧ b = chunk.encode := by
  rcases hb with ⟨hlt,htake⟩ | ⟨rfl,hzero⟩
  · left
    rw [htake] at h
    exact readChunks_waits fuel rest hchunks hlt h hbegun hr
  · obtain ⟨c₁,request₁,hread,h₁,hbegun₁,hr₁⟩ := readChunks_chunk fuel h hbegun hr hzero
    by_cases hlast : after = []
    · right
      have hzero := (after_nil_iff hchunks).mp hlast
      refine ⟨c₁,request₁,by rw [hread,if_pos hzero],h₁,?_,hlast,rfl⟩
      rw [payload_chunks hchunks,hlast]
      simpa using hr₁
    · left
      obtain ⟨next,after',rfl⟩ := List.exists_cons_of_ne_nil hlast
      have hmore : ¬ chunk.data.length = 0 := fun hzero => hlast ((after_nil_iff hchunks).mpr hzero)
      have hchunks' : r.body.chunks = (before ++ [chunk]) ++ next :: after' := by simp [hchunks]
      have hpos := chunk.length_encode
      have hlength := next.length_encode
      obtain ⟨fuel,rfl⟩ : ∃ n, fuel = n + 1 := ⟨fuel - 1,by omega⟩
      obtain ⟨c₂,hread₂,hstands⟩ := readChunks_waits (k := 0) fuel rest hchunks' (by omega)
        (by simpa using h₁) hbegun₁ (by simpa using hr₁)
      refine ⟨c₂,by rw [hread,if_neg hmore,hread₂],?_⟩
      simpa using hstands

/-- A body in chunks, from where one of them begins or goes on. -/
theorem readBody_chunks {s : Bytes} (rest : List (SentRequest handlers))
    (hchunks : r.body.chunks = before ++ chunk :: after) (h : Has served b c)
    (hbegun : begun c = some request) (hr : Holds r (before.flatMap Chunk.data) request)
    (hb : b <+: chunk.encode ++ s)
    (hends : chunk.encode.length ≤ b.length →
      chunk.encode.length = b.length ∧ ZeroBehind c._inBuff) :
    (∃ c', readBody c request = (c',none) ∧ Stands served (r :: rest)
        (r.block.length + ((before.flatMap Chunk.encode).length + b.length)) c') ∨
      ∃ c' request', readBody c request = (c',some request') ∧ Has served [] c' ∧
        Holds r r.body.payload request' ∧ after = [] ∧ b = chunk.encode := by
  have hread : readBody c request = readChunks (c._inBuff.dataLen + 1) c request := by
    have hframed := r.framed
    obtain ⟨chunks,last,hbody⟩ := chunked_of_chunks hchunks
    rw [hbody] at hframed
    obtain ⟨hpost,hsized,hchunked,_⟩ := hframed
    simp only [readBody,hr.head,hpost,hsized,hchunked,if_true,Bool.false_eq_true,if_false]
  rw [hread]
  refine readChunks_some rest hchunks h hbegun hr ?_ (by rw [← Buffer.length_unread,h.unread])
  rcases front_cases hb with hshort | ⟨more,rfl,_⟩
  · exact Or.inl hshort
  · obtain ⟨hexact,hzero⟩ := hends (by simp)
    have hnil : more = [] := by
      rw [List.length_append] at hexact
      exact List.eq_nil_of_length_eq_zero (by omega)
    exact Or.inr ⟨by rw [hnil,List.append_nil],hzero⟩

end Chunks

theorem chunkEnd_here (rest : List (SentRequest handlers)) {before after : List Chunk} {chunk : Chunk}
    (hchunks : r.body.chunks = before ++ chunk :: after) :
    ChunkEnd (r :: rest)
      (r.block.length + ((before.flatMap Chunk.encode).length + chunk.encode.length)) :=
  ⟨[],r,rest,before,chunk,after,rfl,hchunks,by simp⟩

theorem ChunkEnd.behind {place : ℕ} (h : ChunkEnd rest place) (served : List (SentRequest handlers)) :
    ChunkEnd (served ++ rest) ((stream served).length + place) := by
  obtain ⟨served',r',rest',before,chunk,after,rfl,hchunks,rfl⟩ := h
  refine ⟨served ++ served',r',rest',before,chunk,after,by simp,hchunks,?_⟩
  rw [stream_append,List.length_append]
  omega

theorem ChunkEnd.behind_request {place : ℕ} (h : ChunkEnd rest place) (r : SentRequest handlers) :
    ChunkEnd (r :: rest) (r.encode.length + place) := by
  have hbehind := h.behind [r]
  rwa [List.singleton_append,stream_cons,stream_nil,List.append_nil] at hbehind

theorem ChunkEnd.pos {place : ℕ} (h : ChunkEnd rest place) : 0 < place := by
  obtain ⟨served,r,rest,before,chunk,after,_,_,rfl⟩ := h
  have := r.four_le
  omega

theorem ChunkEnd.behind_block {place : ℕ} (h : ChunkEnd (r :: rest) place) :
    r.block.length < place := by
  obtain ⟨served,r',rest',before,chunk,after,hsplit,_,rfl⟩ := h
  have hchunk := chunk.length_encode
  cases served with
  | nil =>
    obtain ⟨rfl,_⟩ := List.cons.inj hsplit
    simp only [stream_nil,List.length_nil,List.flatMap_append,List.flatMap_singleton,
      List.length_append]
    omega
  | cons first served =>
    obtain ⟨rfl,_⟩ := List.cons.inj hsplit
    have hfour := r'.four_le
    simp only [stream_cons,SentRequest.encode,List.length_append]
    omega

/-- A body read from its begin. -/
theorem readBody_begins (h : Has served b c) (hbegun : begun c = some request)
    (hr : Holds r [] request) (hb : b <+: r.body.encode ++ stream rest)
    (hends : ∀ place, ChunkEnd (r :: rest) place → place ≤ r.block.length + b.length →
      place = r.block.length + b.length ∧ ZeroBehind c._inBuff) :
    (∃ c', readBody c request = (c',none) ∧ Stands served (r :: rest) (r.block.length + b.length) c') ∨
      ∃ c' request' more, readBody c request = (c',some request') ∧ b = r.body.encode ++ more ∧
        more <+: stream rest ∧ Has served more c' ∧ Holds r r.body.payload request' ∧
        (ZeroBehind c._inBuff → more ≠ [] → ZeroBehind c'._inBuff) := by
  have hframed := r.framed
  cases hbody : r.body with
  | none =>
    right
    rw [hbody] at hframed hb
    have hget : r.head._method ≠ .POST := by
      rw [hframed]
      decide
    refine ⟨c,request,b,?_,rfl,hb,h,hr,fun hzero _ => hzero⟩
    simp only [readBody,hr.head,hget,if_false]
  | sized content =>
    rw [hbody] at hb
    rw [readBody_sized hbody hr.head,← hbody]
    rcases front_cases hb with ⟨hlt,htake⟩ | ⟨more,rfl,hmore⟩
    · left
      have hnone : Holds r (content.take 0) request := by simpa using hr
      have hwaits := readSized_waits rest hbody h hbegun hnone (by rwa [List.drop_zero])
        (by rwa [Nat.zero_add])
      simpa only [Nat.zero_add] using hwaits
    · right
      have hnone : Holds r (content.take 0) request := by simpa using hr
      obtain ⟨c',request',hread,h',hr',hzero⟩ := readSized_serves hbody h hnone rfl
        (Nat.zero_le _) (Or.inl rfl)
      exact ⟨c',request',more,hread,by rw [hbody],hmore,h',hr',
        fun hbehind _ => hzero hbehind⟩
  | chunked chunks last =>
    obtain ⟨chunk,after,hchunks⟩ : ∃ chunk after, r.body.chunks = [] ++ chunk :: after := by
      rw [hbody]
      cases chunks with
      | nil => exact ⟨last,[],rfl⟩
      | cons chunk chunks => exact ⟨chunk,chunks ++ [last],rfl⟩
    have hencode : r.body.encode = chunk.encode ++ after.flatMap Chunk.encode := by
      rw [encode_chunks hchunks]
      rfl
    have hplace := chunkEnd_here rest hchunks
    rw [hencode,List.append_assoc] at hb
    rw [← hbody]
    simp only [List.flatMap_nil,List.length_nil,Nat.zero_add] at hplace
    have houtcome := readBody_chunks rest hchunks h hbegun hr hb fun hle => by
      obtain ⟨hexact,hzero⟩ := hends _ hplace (by omega)
      exact ⟨by omega,hzero⟩
    refine houtcome.imp (fun hwaits => ?_) fun hserves => ?_
    · simpa using hwaits
    · obtain ⟨c',request',hread,h',hr',hnil,hb'⟩ := hserves
      refine ⟨c',request',[],hread,?_,List.nil_prefix,h',hr',fun _ hne => absurd rfl hne⟩
      rw [hencode,hb',hnil]
      simp

theorem Has.ensureContext (h : Has served b c) : Has served b c.ensureContext :=
  ⟨h.reading,h.called,h.unread⟩

theorem begun_ensureContext (c : Connection) : begun c.ensureContext = begun c := by
  cases hcontext : c._context <;> simp [begun,Connection.ensureContext,hcontext]

end Rounds

section Runs

variable {node : Node} {served rest : List (SentRequest node.handlers)}
  {r : SentRequest node.handlers} {b : Bytes} {c : Connection} {request : HttpRequest}

theorem round_begun (hbegun : begun c = some request) :
    round node c = proceed node c.ensureContext request := by
  have hensured := begun_ensureContext c
  rw [hbegun,begun] at hensured
  simp only [round,hensured]

theorem round_headers {c' : Connection} (hbegun : begun c = none)
    (hread : readHeaders c.ensureContext = (c',some request)) :
    round node c = proceed node c' request := by
  have hensured := begun_ensureContext c
  rw [hbegun,begun] at hensured
  simp only [round,hensured,hread]

theorem round_waits {c' : Connection} (hbegun : begun c = none)
    (hread : readHeaders c.ensureContext = (c',none)) : round node c = (c',false) := by
  have hensured := begun_ensureContext c
  rw [hbegun,begun] at hensured
  simp only [round,hensured,hread]

/-- Requests read from where one begins. -/
theorem loop_stands (fuel : ℕ) (h : Has served b c) (hbegun : begun c = none)
    (hb : b <+: stream rest)
    (hends : ∀ place, ChunkEnd rest place → place ≤ b.length →
      place = b.length ∧ ZeroBehind c._inBuff) (hfuel : b.length < fuel) :
    ∃ done rest' k, rest = done ++ rest' ∧ Stands (served ++ done) rest' k (loop node fuel c) ∧
      b.length = (stream done).length + k := by
  obtain ⟨fuel,rfl⟩ : ∃ n, fuel = n + 1 := ⟨fuel - 1,by omega⟩
  have hnone : begun c.ensureContext = none := (begun_ensureContext c).trans hbegun
  induction rest generalizing served b c fuel with
  | nil =>
    obtain rfl := List.prefix_nil.mp hb
    refine ⟨[],[],0,rfl,?_,rfl⟩
    rw [loop,round_waits hbegun (readHeaders_nothing h.unread),List.append_nil]
    exact Stands.done h.ensureContext hnone
  | cons r rest ih =>
    rw [stream_cons,SentRequest.encode,List.append_assoc] at hb
    rcases front_cases hb with ⟨hk,htake⟩ | ⟨b',rfl,hb'⟩
    · refine ⟨[],r :: rest,b.length,rfl,?_,by simp⟩
      rw [htake] at h
      rw [loop,round_waits hbegun (readHeaders_part hk h.ensureContext),List.append_nil]
      exact Stands.head hk h.ensureContext hnone
    · obtain ⟨c₁,request,htaken,h₁,hbegun₁,hr₁,hzero₁⟩ := takeRequest_block h.ensureContext
      have hread := (readHeaders_block h.ensureContext).trans htaken
      have hfour := r.four_le
      rw [List.length_append] at hfuel
      have hbody := readBody_begins h₁ hbegun₁ hr₁ hb' fun place hplace hle => by
        rw [← List.length_append] at hle ⊢
        exact (hends place hplace hle).imp_right hzero₁
      rcases hbody with ⟨c₂,hread₂,hstands⟩ | ⟨c₂,request₂,more,hread₂,rfl,hmore,h₂,hr₂,hzero₂⟩
      · refine ⟨[],r :: rest,r.block.length + b'.length,rfl,?_,by simp⟩
        rw [loop,round_headers hbegun hread,proceed,hread₂,List.append_nil]
        exact hstands
      · obtain ⟨c₃,hserve,h₃,hbegun₃,hbuff₃⟩ := serve_holds node h₂ hr₂
        obtain ⟨fuel,rfl⟩ : ∃ n, fuel = n + 1 := ⟨fuel - 1,by omega⟩
        rw [List.length_append] at hfuel
        have hrest : ∀ place, ChunkEnd rest place → place ≤ more.length →
            place = more.length ∧ ZeroBehind c₃._inBuff := by
          intro place hplace hle
          have hpos := hplace.pos
          have hencode : r.encode.length = r.block.length + r.body.encode.length := List.length_append
          obtain ⟨heq,hzero⟩ := hends _ (hplace.behind_request r) (by simp only [List.length_append]; omega)
          simp only [List.length_append] at heq
          have hmore : more ≠ [] := by
            intro hnil
            rw [hnil,List.length_nil] at hle
            omega
          refine ⟨by omega,?_⟩
          rw [hbuff₃]
          exact hzero₂ (hzero₁ hzero) hmore
        obtain ⟨done,rest',k,rfl,hstands,hlength⟩ := ih h₃ hbegun₃ hmore hrest fuel (by omega)
          ((begun_ensureContext c₃).trans hbegun₃)
        refine ⟨r :: done,rest',k,rfl,?_,?_⟩
        · rw [loop,round_headers hbegun hread,proceed,hread₂]
          simp only [hserve]
          simpa using hstands
        · simp only [stream_cons,SentRequest.encode,List.length_append,hlength]
          omega

theorem Has.write (h : Has served b c) (piece : Bytes) :
    Has served (b ++ piece) { c with _inBuff := c._inBuff.write piece } where
  reading := h.reading
  called := h.called
  unread := by rw [Buffer.unread_write,h.unread]

theorem begun_write (piece : Bytes) : begun { c with _inBuff := c._inBuff.write piece } = begun c :=
  rfl

theorem receive_nothing {piece : Bytes} (h : Has served b c) (hnil : b ++ piece = []) :
    receive node c piece = { c with _inBuff := c._inBuff.write piece } := by
  have hdata : (c._inBuff.write piece).dataLen = 0 := by
    rw [← Buffer.length_unread,(h.write piece).unread,hnil,List.length_nil]
  simp only [receive,hdata,gt_iff_lt,lt_irrefl,if_false]

theorem receive_loop {piece : Bytes} (h : Has served b c) (hsome : b ++ piece ≠ []) :
    receive node c piece =
      loop node ((b ++ piece).length + 2) { c with _inBuff := c._inBuff.write piece } := by
  have hdata : (c._inBuff.write piece).dataLen = (b ++ piece).length := by
    rw [← Buffer.length_unread,(h.write piece).unread]
  have hpos : (b ++ piece).length > 0 := List.length_pos_of_ne_nil hsome
  simp only [receive,hdata,hpos,if_true,processing]

/-- A read where no body has been begun. -/
theorem receive_front {k : ℕ} {piece : Bytes} (hk : k = b.length) (h : Has served b c)
    (hbegun : begun c = none) (hb : b ++ piece <+: stream rest)
    (hends : ∀ place, ChunkEnd rest place → place ≤ k + piece.length →
      place = k + piece.length ∧ ZeroBehind (c._inBuff.write piece)) :
    ∃ done rest' k', rest = done ++ rest' ∧
      Stands (served ++ done) rest' k' (receive node c piece) ∧
      k + piece.length = (stream done).length + k' := by
  by_cases hnil : b ++ piece = []
  · have hb₀ : b = [] := (List.append_eq_nil_iff.mp hnil).1
    have hpiece : piece = [] := (List.append_eq_nil_iff.mp hnil).2
    have h' := h.write piece
    rw [hnil] at h'
    refine ⟨[],rest,0,rfl,?_,by simp [hk,hb₀,hpiece]⟩
    rw [receive_nothing h hnil,List.append_nil]
    cases rest with
    | nil => exact Stands.done h' hbegun
    | cons r rest =>
      have hfour := r.four_le
      exact Stands.head (by omega) h' hbegun
  · have hlength : (b ++ piece).length = k + piece.length := by rw [List.length_append,hk]
    obtain ⟨done,rest',k',hrest,hstands,hread⟩ := loop_stands ((b ++ piece).length + 2)
      (h.write piece) hbegun hb (by rwa [hlength]) (by omega)
    refine ⟨done,rest',k',hrest,?_,by rw [← hread,hlength]⟩
    rwa [receive_loop h hnil]

/-- A read that leaves the body begun before incomplete. -/
theorem receive_waits {piece : Bytes} {c' : Connection} (h : Has served b c)
    (hbegun : begun c = some request) (hsome : b ++ piece ≠ [])
    (hread : readBody ({ c with _inBuff := c._inBuff.write piece } : Connection).ensureContext request =
      (c',none)) : receive node c piece = c' := by
  rw [receive_loop h hsome,loop,round_begun ((begun_write piece).trans hbegun),proceed,hread]

/-- A read that completes the body begun before. -/
theorem receive_serves {piece more : Bytes} {c' : Connection} {request' : HttpRequest}
    (h : Has served b c) (hbegun : begun c = some request) (hsome : b ++ piece ≠ [])
    (hread : readBody ({ c with _inBuff := c._inBuff.write piece } : Connection).ensureContext request =
      (c',some request')) (h' : Has served more c') (hr' : Holds r r.body.payload request')
    (hmore : more <+: stream rest) (hlength : more.length ≤ (b ++ piece).length)
    (hends : ∀ place, ChunkEnd rest place → place ≤ more.length →
      place = more.length ∧ ZeroBehind c'._inBuff) :
    ∃ done rest' k, rest = done ++ rest' ∧
      Stands (served ++ r :: done) rest' k (receive node c piece) ∧
      more.length = (stream done).length + k := by
  obtain ⟨c₃,hserve,h₃,hbegun₃,hbuff₃⟩ := serve_holds node h' hr'
  obtain ⟨done,rest',k,hrest,hstands,hdone⟩ := loop_stands ((b ++ piece).length + 1) h₃ hbegun₃
    hmore (by rwa [hbuff₃]) (by omega)
  refine ⟨done,rest',k,hrest,?_,hdone⟩
  rw [receive_loop h hsome,loop,round_begun ((begun_write piece).trans hbegun),proceed,hread]
  simp only [hserve]
  simpa using hstands

/-- A read that goes on with a body of a given length. -/
theorem receive_sized {piece content : Bytes} {held : ℕ} (hbody : r.body = .sized content)
    (hheld : held < content.length) (h : Has served [] c) (hbegun : begun c = some request)
    (hr : Holds r (content.take held) request) (hb : piece <+: content.drop held ++ stream rest)
    (hcalm : held = 0 ∨ held + piece.length ≤ content.length)
    (hends : ∀ place, ChunkEnd (r :: rest) place → r.block.length + held < place →
      place ≤ r.block.length + held + piece.length →
      place = r.block.length + held + piece.length ∧ ZeroBehind (c._inBuff.write piece)) :
    ∃ done rest' k', r :: rest = done ++ rest' ∧
      Stands (served ++ done) rest' k' (receive node c piece) ∧
      r.block.length + held + piece.length = (stream done).length + k' := by
  by_cases hnil : piece = []
  · have h' := h.write piece
    rw [hnil] at h' ⊢
    refine ⟨[],r :: rest,r.block.length + held,rfl,?_,by simp⟩
    rw [receive_nothing h rfl,List.append_nil]
    exact Stands.sized hbody hheld h' hbegun hr
  · have h' := (h.write piece).ensureContext
    have hbegun' : begun ({ c with _inBuff := c._inBuff.write piece } : Connection).ensureContext =
        some request := (begun_ensureContext _).trans hbegun
    rcases front_cases hb with ⟨hlt,htake⟩ | ⟨more,rfl,hmore⟩
    · rw [List.length_drop] at hlt
      obtain ⟨c',hread,hstands⟩ := readSized_waits rest hbody h' hbegun' hr (by simpa using htake)
        (by rw [List.nil_append]; omega)
      rw [← readBody_sized hbody hr.head] at hread
      refine ⟨[],r :: rest,r.block.length + (held + piece.length),rfl,?_,?_⟩
      · rw [receive_waits h hbegun hnil hread,List.append_nil]
        simpa using hstands
      · rw [stream_nil,List.length_nil]
        omega
    · have hexact : held = 0 ∨ more = [] := by
        refine hcalm.imp_right fun hle => ?_
        rw [List.length_append,List.length_drop] at hle
        exact List.eq_nil_of_length_eq_zero (by omega)
      rw [List.nil_append] at h'
      obtain ⟨c',request',hread,h₂,hr₂,hzero⟩ := readSized_serves hbody h' hr rfl hheld.le hexact
      rw [← readBody_sized hbody hr.head] at hread
      have hencode : r.encode.length = r.block.length + content.length := by
        rw [SentRequest.encode,hbody,Body.encode,List.length_append]
      rw [List.length_append,List.length_drop] at hends
      obtain ⟨done,rest',k,rfl,hstands,hdone⟩ := receive_serves h hbegun hnil hread h₂ hr₂ hmore
        (by simp) fun place hplace hle => by
          obtain ⟨heq,hbuff⟩ := hends _ (hplace.behind_request r) (by omega) (by omega)
          exact ⟨by omega,hzero hbuff⟩
      refine ⟨r :: done,rest',k,rfl,hstands,?_⟩
      simp only [stream_cons,List.length_append,List.length_drop,hencode,hdone]
      omega

/-- A read that goes on with a body in chunks. -/
theorem receive_chunk {piece : Bytes} {before after : List Chunk} {chunk : Chunk} {k : ℕ}
    (hchunks : r.body.chunks = before ++ chunk :: after) (hk : k < chunk.encode.length)
    (h : Has served (chunk.encode.take k) c) (hbegun : begun c = some request)
    (hr : Holds r (before.flatMap Chunk.data) request)
    (hb : piece <+: chunk.encode.drop k ++ (after.flatMap Chunk.encode ++ stream rest))
    (hends : ∀ place, ChunkEnd (r :: rest) place →
      r.block.length + ((before.flatMap Chunk.encode).length + k) < place →
      place ≤ r.block.length + ((before.flatMap Chunk.encode).length + k) + piece.length →
      place = r.block.length + ((before.flatMap Chunk.encode).length + k) + piece.length ∧
        ZeroBehind (c._inBuff.write piece)) :
    ∃ done rest' k', r :: rest = done ++ rest' ∧
      Stands (served ++ done) rest' k' (receive node c piece) ∧
      r.block.length + ((before.flatMap Chunk.encode).length + k) + piece.length =
        (stream done).length + k' := by
  have hlength : (chunk.encode.take k ++ piece).length = k + piece.length := by
    rw [List.length_append,List.length_take]
    omega
  have h' := (h.write piece).ensureContext
  have hbegun' : begun ({ c with _inBuff := c._inBuff.write piece } : Connection).ensureContext =
      some request := (begun_ensureContext _).trans hbegun
  by_cases hnil : chunk.encode.take k ++ piece = []
  · have hpiece : piece = [] := (List.append_eq_nil_iff.mp hnil).2
    have h' := h.write piece
    rw [receive_nothing h hnil]
    rw [hpiece,List.append_nil] at h'
    refine ⟨[],r :: rest,r.block.length + ((before.flatMap Chunk.encode).length + k),rfl,?_,
      by rw [hpiece]; simp⟩
    rw [List.append_nil,hpiece]
    exact Stands.chunk hchunks hk h' hbegun hr
  · have hfront : chunk.encode.take k ++ piece <+:
        chunk.encode ++ (after.flatMap Chunk.encode ++ stream rest) := by
      have hwhole := (List.prefix_append_right_inj (chunk.encode.take k)).mpr hb
      rwa [← List.append_assoc,List.take_append_drop] at hwhole
    have hplace := chunkEnd_here rest hchunks
    rcases readBody_chunks rest hchunks h' hbegun' hr hfront fun hle => by
        obtain ⟨heq,hzero⟩ := hends _ hplace (by omega) (by omega)
        exact ⟨by omega,hzero⟩ with ⟨c',hread,hstands⟩ | ⟨c',request',hread,h₂,hr₂,hlast,hall⟩
    · rw [hlength] at hstands
      refine ⟨[],r :: rest,r.block.length + ((before.flatMap Chunk.encode).length +
        (k + piece.length)),rfl,?_,?_⟩
      · rw [receive_waits h hbegun hnil hread,List.append_nil]
        exact hstands
      · rw [stream_nil,List.length_nil]
        omega
    · have hnone : [] <+: stream rest := List.nil_prefix
      obtain ⟨done,rest',k',rfl,hstands,hdone⟩ := receive_serves h hbegun hnil hread h₂ hr₂
        hnone (Nat.zero_le _) fun place hplace hle => by
          have := hplace.pos
          rw [List.length_nil] at hle
          omega
      have hencode : r.encode.length =
          r.block.length + ((before.flatMap Chunk.encode).length + chunk.encode.length) := by
        rw [SentRequest.encode,encode_chunks hchunks,hlast]
        simp
      have hcount := congrArg List.length hall
      rw [List.length_nil] at hdone
      refine ⟨r :: done,rest',k',rfl,hstands,?_⟩
      simp only [stream_cons,List.length_append,hencode]
      omega

/-- A read that is calm moves on by its length. -/
theorem receive_stands {piece : Bytes} {k : ℕ} (h : Stands served rest k c)
    (hb : piece <+: (stream rest).drop k)
    (hcalm : Calm (served ++ rest) (c,(stream served).length + k) piece) :
    ∃ done rest' k', rest = done ++ rest' ∧
      Stands (served ++ done) rest' k' (receive node c piece) ∧
      k + piece.length = (stream done).length + k' := by
  have hends : ∀ place, ChunkEnd rest place → k < place → place ≤ k + piece.length →
      place = k + piece.length ∧ ZeroBehind (c._inBuff.write piece) := by
    intro place hplace hlt hle
    obtain ⟨heq,hzero⟩ := hcalm.2 _ (hplace.behind served) (by simpa using hlt)
      (by dsimp only; omega)
    exact ⟨by dsimp only at heq; omega,hzero⟩
  cases h with
  | done hhas hbegun =>
    exact receive_front rfl hhas hbegun (by simpa using hb) fun place hplace =>
      hends place hplace hplace.pos
  | head hk hhas hbegun =>
    rename_i r rest
    have hlen : k = (r.block.take k).length := by
      rw [List.length_take]
      omega
    have htake : r.block.take k = (stream (r :: rest)).take k := by
      rw [stream_cons,SentRequest.encode,List.append_assoc,List.take_append_of_le_length hk.le]
    have hfront : r.block.take k ++ piece <+: stream (r :: rest) := by
      have hwhole := (List.prefix_append_right_inj ((stream (r :: rest)).take k)).mpr hb
      rwa [List.take_append_drop,← htake] at hwhole
    exact receive_front hlen hhas hbegun hfront fun place hplace =>
      hends place hplace (hk.trans hplace.behind_block)
  | sized hbody hheld hhas hbegun hr =>
    rename_i r rest content held request
    have hencode : r.encode = r.block ++ content := by rw [SentRequest.encode,hbody,Body.encode]
    have hdrop : (stream (r :: rest)).drop (r.block.length + held) =
        content.drop held ++ stream rest := by
      rw [stream_cons,hencode,List.append_assoc,← List.drop_drop,List.drop_left,
        List.drop_append_of_le_length hheld.le]
    rw [hdrop] at hb
    refine receive_sized hbody hheld hhas hbegun hr hb ?_ hends
    by_contra hnot
    refine hcalm.1 ⟨served,r,rest,content,rfl,hbody,?_⟩
    simp only [hencode,List.length_append]
    omega
  | chunk hchunks hk hhas hbegun hr =>
    rename_i r rest before chunk after k request
    have hencode : stream (r :: rest) = r.block ++ (before.flatMap Chunk.encode ++
        (chunk.encode ++ (after.flatMap Chunk.encode ++ stream rest))) := by
      rw [stream_cons,SentRequest.encode,encode_chunks hchunks]
      simp
    have hdrop : (stream (r :: rest)).drop
        (r.block.length + ((before.flatMap Chunk.encode).length + k)) =
        chunk.encode.drop k ++ (after.flatMap Chunk.encode ++ stream rest) := by
      rw [hencode,← List.drop_drop,List.drop_left,← List.drop_drop,List.drop_left,
        List.drop_append_of_le_length hk.le]
    rw [hdrop] at hb
    exact receive_chunk hchunks hk hhas hbegun hr hb hends

/-- One read of some bytes, with the place in the stream it comes to. -/
def step (node : Node) (s : Connection × ℕ) (piece : Bytes) : Option (Connection × ℕ) :=
  some (receive node s.1 piece,s.2 + piece.length)

theorem run_stands {pieces : List Bytes} {k n : ℕ} (h : Stands served rest k c)
    (hn : n = (stream served).length + k) (hb : pieces.flatten <+: (stream rest).drop k)
    (hcalm : Along (step node) (Calm (served ++ rest)) (c,n) pieces) :
    ∃ done rest' k', rest = done ++ rest' ∧
      Stands (served ++ done) rest' k' (run node c pieces) ∧
      k + pieces.flatten.length = (stream done).length + k' := by
  induction pieces generalizing served rest k n c with
  | nil => exact ⟨[],rest,k,rfl,by rwa [List.append_nil],by simp⟩
  | cons piece pieces ih =>
    obtain ⟨hfirst,hrest⟩ := hcalm _ rfl
    rw [List.flatten_cons] at hb
    rw [hn] at hfirst
    obtain ⟨done,rest',k',rfl,hstands,hread⟩ :=
      receive_stands h ((List.prefix_append piece _).trans hb) hfirst
    have hmore : pieces.flatten <+: (stream rest').drop k' := by
      have hdrop := hb.drop piece.length
      rwa [List.drop_left,List.drop_drop,hread,stream_append,← List.drop_drop,
        List.drop_left] at hdrop
    obtain ⟨done',rest'',k'',rfl,hstands',hread'⟩ := ih (n := n + piece.length) hstands
      (by rw [stream_append,List.length_append]; omega) hmore
      (by rw [List.append_assoc]; exact hrest)
    refine ⟨done ++ done',rest'',k'',by simp,?_,?_⟩
    · rw [← List.append_assoc]
      exact hstands'
    · simp only [List.flatten_cons,stream_append,List.length_append]
      omega

theorem complete_append (served rest : List (SentRequest node.handlers)) (k : ℕ) :
    complete (served ++ rest) ((stream served).length + k) = served ++ complete rest k := by
  induction served with
  | nil => simp
  | cons r served ih =>
    have hle : r.encode.length ≤ (stream (r :: served)).length + k := by
      rw [stream_cons,List.length_append]
      omega
    have hsub : (stream (r :: served)).length + k - r.encode.length = (stream served).length + k := by
      rw [stream_cons,List.length_append]
      omega
    rw [List.cons_append,complete,if_pos hle,hsub,ih,List.cons_append]

/-- A connection stands before the end of the next request. -/
theorem Stands.complete_nil {k : ℕ} (h : Stands served rest k c) : complete rest k = [] := by
  cases h with
  | done hhas hbegun => rfl
  | head hk hhas hbegun =>
    apply if_neg
    rw [SentRequest.encode,List.length_append]
    omega
  | sized hbody hheld hhas hbegun hr =>
    apply if_neg
    rw [SentRequest.encode,hbody,Body.encode,List.length_append]
    omega
  | chunk hchunks hk hhas hbegun hr =>
    apply if_neg
    rw [SentRequest.encode,encode_chunks hchunks]
    simp only [List.flatMap_append,List.flatMap_cons,List.length_append]
    omega

/-- Of the bytes read, the requests that are complete have been called for, once each and with
their bodies, and nothing has been taken from the next request but for its own. -/
structure Exact (requests : List (SentRequest handlers)) (read : Bytes) (c : Connection) : Prop where
  called : calls c.actions = (complete requests read.length).map SentRequest.call
  untouched : begun c = none →
    c._inBuff.unread = read.drop (stream (complete requests read.length)).length
  next : ∀ request, begun c = some request → ∃ r rest,
    requests = complete requests read.length ++ r :: rest ∧ request.head = r.head ∧
      request.unread <+: r.body.payload

/-- Where a connection stands, it is exact. -/
theorem Stands.exact {k : ℕ} {read : Bytes} (h : Stands served rest k c)
    (hread : read = stream served ++ (stream rest).take k)
    (hk : read.length = (stream served).length + k) : Exact (served ++ rest) read c := by
  have hcomplete : complete (served ++ rest) read.length = served := by
    rw [hk,complete_append,h.complete_nil,List.append_nil]
  have hbehind : read.drop (stream served).length = (stream rest).take k := by
    rw [hread,List.drop_left]
  cases h with
  | done hhas hbegun =>
    refine ⟨by rw [hcomplete,hhas.called],fun _ => ?_,fun request hsome => ?_⟩
    · rw [hcomplete,hbehind,hhas.unread,List.take_zero]
    · simp [hbegun] at hsome
  | head hlt hhas hbegun =>
    refine ⟨by rw [hcomplete,hhas.called],fun _ => ?_,fun request hsome => ?_⟩
    · rw [hcomplete,hbehind,hhas.unread,stream_cons,SentRequest.encode,List.append_assoc,
        List.take_append_of_le_length hlt.le]
    · simp [hbegun] at hsome
  | sized hbody hheld hhas hbegun hr =>
    rename_i r rest content held request
    refine ⟨by rw [hcomplete,hhas.called],fun hnone => ?_,fun request' hsome => ?_⟩
    · simp [hbegun] at hnone
    · obtain rfl := Option.some.inj (hbegun.symm.trans hsome)
      refine ⟨r,rest,by rw [hcomplete],hr.head,?_⟩
      rw [hr.unread,hbody,Body.payload]
      exact List.take_prefix held content
  | chunk hchunks hlt hhas hbegun hr =>
    rename_i r rest before chunk after k request
    refine ⟨by rw [hcomplete,hhas.called],fun hnone => ?_,fun request' hsome => ?_⟩
    · simp [hbegun] at hnone
    · obtain rfl := Option.some.inj (hbegun.symm.trans hsome)
      refine ⟨r,rest,by rw [hcomplete],hr.head,?_⟩
      rw [hr.unread,payload_chunks hchunks,List.flatMap_append]
      exact List.prefix_append _ _

end Runs

variable (node : Node)

theorem opened_stands (b : Buffer) (requests : List (SentRequest node.handlers)) :
    Stands [] requests 0 (opened b) := by
  have hhas : Has ([] : List (SentRequest node.handlers)) [] (opened b) := by
    refine ⟨rfl,rfl,?_⟩
    rw [opened,Buffer.unread_skip (by rw [Buffer.length_unread]),← Buffer.length_unread,
      List.drop_length]
  cases requests with
  | nil => exact Stands.done hhas rfl
  | cons r requests =>
    have hfour := r.four_le
    exact Stands.head (by omega) hhas rfl

/-- In a run whose reads are calm, a handler has run at each time exactly once for each request
that is complete, in their order and with their bodies, and nothing of the next one is gone. -/
theorem run_requests (b : Buffer) (requests : List (SentRequest node.handlers)) (pieces : List Bytes)
    (h : pieces.flatten <+: stream requests)
    (hcalm : Along (step node) (Calm requests) (opened b,0) pieces) :
    Exact requests pieces.flatten (run node (opened b) pieces) := by
  obtain ⟨done,rest,k,rfl,hstands,hread⟩ :=
    run_stands (opened_stands node b requests) (n := 0) rfl h hcalm
  rw [List.nil_append] at hstands
  rw [Nat.zero_add] at hread
  refine hstands.exact ?_ hread
  rw [stream_append] at h
  have htake := List.prefix_iff_eq_take.mp h
  rwa [hread,List.take_length_add_append] at htake

/-- A server with one handler, for all paths. -/
def oneHandler : Node := ⟨[text "/"],fun _ _ _ => none⟩

def chunkA : Chunk where
  digits := text "1"
  ext := []
  data := text "a"
  digits_ne := by decide
  hex := by decide +kernel
  value := by decide
  ext_begin := by simp
  ext_line := by decide
  small := by decide

def lastChunk : Chunk where
  digits := text "0"
  ext := []
  data := []
  digits_ne := by decide
  hex := by decide +kernel
  value := by decide
  ext_begin := by simp
  ext_line := by decide
  small := by decide

/-- A request with a body of one byte, in a chunk of its own. -/
def chunkedPost : SentRequest oneHandler.handlers where
  block := text "POST / HTTP/1.1\r\nTransfer-Encoding: chunked\r\n\r\n"
  head := ⟨.POST,text "/",101,[(text "TRANSFER-ENCODING",text "chunked")],false,0⟩
  body := .chunked [chunkA] lastChunk
  selector := text "/"
  ends := by decide +kernel
  short := by decide +kernel
  reads := by rfl
  framed := ⟨rfl,rfl,by decide +kernel,by simp [chunkA]; decide,rfl⟩
  found := by decide +kernel

instance (b : Buffer) : Decidable (ZeroBehind b) :=
  inferInstanceAs (Decidable ((b._data.drop b._putPosition).head? = some 0))

theorem chunkedPost_ends {place : ℕ} (h : ChunkEnd [chunkedPost] place) : place = 53 ∨ place = 58 := by
  obtain ⟨served,r,rest,before,chunk,after,hsplit,hchunks,rfl⟩ := h
  cases served with
  | nil =>
    obtain ⟨rfl,rfl⟩ := List.cons.inj hsplit
    cases before with
    | nil =>
      obtain ⟨rfl,_⟩ := List.cons.inj hchunks
      left
      decide
    | cons first before =>
      obtain ⟨rfl,htail⟩ := List.cons.inj hchunks
      cases before with
      | nil =>
        obtain ⟨rfl,_⟩ := List.cons.inj htail
        right
        decide
      | cons second before => simp at htail
  | cons first served => simp at hsplit

theorem chunkedPost_not_overtaken (position length : ℕ) : ¬ Overtakes [chunkedPost] position length := by
  intro h
  obtain ⟨served,r,rest,content,hsplit,hbody,_⟩ := h
  cases served with
  | nil =>
    obtain ⟨rfl,_⟩ := List.cons.inj hsplit
    contradiction
  | cons first served => simp at hsplit

/-- The chunks are read one by one. -/
theorem chunkedPost_called :
    Exact [chunkedPost] (stream [chunkedPost])
      (run oneHandler (opened Buffer.empty) [chunkedPost.block ++ chunkA.encode,lastChunk.encode]) := by
  have hexact := run_requests oneHandler Buffer.empty [chunkedPost]
    [chunkedPost.block ++ chunkA.encode,lastChunk.encode] (by decide) ?_
  · exact hexact
  · intro t ht
    obtain rfl := Option.some.inj ht
    refine ⟨⟨chunkedPost_not_overtaken _ _,fun place hplace _ hle => ?_⟩,fun t ht => ?_⟩
    · have hlength : (chunkedPost.block ++ chunkA.encode).length = 53 := by decide
      have hzero : ZeroBehind ((opened Buffer.empty)._inBuff.write
          (chunkedPost.block ++ chunkA.encode)) := by decide +kernel
      simp only [hlength] at hle ⊢
      have := chunkedPost_ends hplace
      exact ⟨by omega,hzero⟩
    · obtain rfl := Option.some.inj ht
      refine ⟨⟨chunkedPost_not_overtaken _ _,fun place hplace hlt _ => ?_⟩,trivial⟩
      have hplaces : (chunkedPost.block ++ chunkA.encode).length = 53 ∧
          lastChunk.encode.length = 5 := by decide
      have hzero : ZeroBehind ((receive oneHandler (opened Buffer.empty)
          (chunkedPost.block ++ chunkA.encode))._inBuff.write lastChunk.encode) := by decide +kernel
      simp only [hplaces.1,hplaces.2] at hlt ⊢
      have := chunkedPost_ends hplace
      exact ⟨by omega,hzero⟩

/-- The same request read at once is answered with an error, for its chunk is not the last of
what is read. -/
theorem chunkedPost_not_called :
    ¬ Exact [chunkedPost] (stream [chunkedPost])
      (run oneHandler (opened Buffer.empty) [stream [chunkedPost]]) := by
  have hcalls : calls (run oneHandler (opened Buffer.empty) [stream [chunkedPost]]).actions ≠
      (complete [chunkedPost] (stream [chunkedPost]).length).map SentRequest.call := by
    decide +kernel
  exact fun h => hcalls h.called

end HttpServer
end Tkeycoin
