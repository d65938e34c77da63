import Tkeycoin.Buffer
import Tkeycoin.Stepping

/-! `Buffer` with the arithmetic of `size_t`, and what any sequence of calls makes of it. -/
namespace Tkeycoin

/-- The members of a `Buffer`, whatever they are. -/
structure RawBuffer where
  _data : Bytes
  _getPosition : ℕ
  _putPosition : ℕ
  deriving DecidableEq

/-- The members, of a buffer whose positions are in order. -/
def Buffer.raw (b : Buffer) : RawBuffer := ⟨b._data,b._getPosition,b._putPosition⟩

/-- How a call ends: with undefined behaviour, an exception of `resize`, `false`, or `true` and the bytes that it
gives. -/
inductive Answer
  | undefined | threw | failed
  | done (bytes : Bytes)
  deriving DecidableEq

namespace RawBuffer

def empty : RawBuffer := ⟨[],0,0⟩

def unread (b : RawBuffer) : Bytes := (b._data.take b._putPosition).drop b._getPosition

def spaceLen (b : RawBuffer) : ℕ := (b._data.length + 2^64 - b._putPosition) % 2^64

/-- The bytes not taken out move to the front. -/
def shift (b : RawBuffer) : RawBuffer where
  _data := b.unread ++ b._data.drop (b._putPosition - b._getPosition)
  _getPosition := 0
  _putPosition := b._putPosition - b._getPosition

def resize (b : RawBuffer) (n : ℕ) : RawBuffer :=
  { b with _data := b._data.take n ++ List.replicate (n - b._data.length) 0 }

/-- `data`. -/
def data (b : RawBuffer) : Answer × RawBuffer :=
  let b := if b._getPosition > 0 then b.shift.resize b.shift._putPosition else b
  (.done b._data,b)

def show_ (length : ℕ) (b : RawBuffer) : Answer × RawBuffer :=
  if length = 0 then (.done [],b)
  else if b._putPosition - b._getPosition < length then (.failed,b)
  else (.done ((b._data.drop b._getPosition).take length),b)

def skip (length : ℕ) (b : RawBuffer) : Answer × RawBuffer :=
  if length = 0 then (.done [],b)
  else if b._putPosition - b._getPosition < length then (.failed,b)
  else (.done [],{ b with _getPosition := b._getPosition + length })

def read (length : ℕ) (b : RawBuffer) : Answer × RawBuffer :=
  if length = 0 then (.done [],b)
  else if b._putPosition - b._getPosition < length then (.failed,b)
  else (.done ((b._data.drop b._getPosition).take length),{ b with _getPosition := b._getPosition + length })

/-- Where there is no room behind them, the bytes not taken out move to the front. -/
def moved (b : RawBuffer) (length : ℕ) : RawBuffer :=
  if (b._putPosition + length) % 2^64 > b._data.length ∧ b._getPosition > 0 then b.shift else b

/-- Whole pages, one more than is needed at least, in a `size_t`. -/
def pages (n : ℕ) : ℕ := (n / 2^12 + 1) * 2^12 % 2^64

/-- Where there is still no room, the vector becomes larger. `false` is an exception of `resize`, which gives no more
than `room` bytes. -/
def enlarge (room length : ℕ) (b : RawBuffer) : Bool × RawBuffer :=
  if (b._putPosition + length) % 2^64 > b._data.length then
    if pages ((b._putPosition + length) % 2^64) > room then (false,b)
    else (true,b.resize (pages ((b._putPosition + length) % 2^64)))
  else (true,b)

def prepare (room length : ℕ) (b : RawBuffer) : Bool × RawBuffer :=
  if length = 0 then (true,b) else (b.moved length).enlarge room length

/-- Bytes are written at the put position. -/
def fillSpace (bytes : Bytes) (b : RawBuffer) : RawBuffer :=
  { b with
    _data := b._data.take b._putPosition ++ bytes ++ b._data.drop (b._putPosition + bytes.length) }

def forward (length : ℕ) (b : RawBuffer) : Answer × RawBuffer :=
  if length = 0 then (.done [],b)
  else if length > b.spaceLen then (.failed,b)
  else (.done [],{ b with _putPosition := b._putPosition + length })

/-- `prepare`, then the space is filled as far as it goes, and `forward`. -/
def fill (room length : ℕ) (bytes : Bytes) (b : RawBuffer) : Answer × RawBuffer :=
  match b.prepare room length with
  | (false,b) => (.threw,b)
  | (true,b) =>
    let front := bytes.take b.spaceLen
    if b._putPosition + front.length > b._data.length then (.undefined,b)
    else (b.fillSpace front).forward bytes.length

def write (room : ℕ) (bytes : Bytes) (b : RawBuffer) : Answer × RawBuffer :=
  if bytes.length = 0 then (.done [],b)
  else
    match b.prepare room bytes.length with
    | (false,b) => (.threw,b)
    | (true,b) =>
      if b._putPosition + bytes.length > b._data.length then (.undefined,b)
      else (.done [],{ b.fillSpace bytes with _putPosition := b._putPosition + bytes.length })

end RawBuffer

/-- A call with a length of 64 bits. -/
inductive BufferCall
  | write (bytes : { l : Bytes // l.length < 2^64 })
  | fill (length : UInt64) (bytes : { l : Bytes // l.length < 2^64 })
  | show_ (length : UInt64)
  | read (length : UInt64)
  | skip (length : UInt64)
  | data

namespace BufferCall

def answer (room : ℕ) (b : RawBuffer) : BufferCall → Answer × RawBuffer
  | write bytes => b.write room bytes
  | fill length bytes => b.fill room length.toNat bytes
  | show_ length => b.show_ length.toNat
  | read length => b.read length.toNat
  | skip length => b.skip length.toNat
  | data => b.data

/-- What an answer has to be for a queue with this content. Only `resize` throws. -/
def right (content : Bytes) : BufferCall → Answer → Bool
  | _, .undefined => false
  | write _, .threw => true
  | write _, .done bytes => bytes = []
  | fill _ _, .threw => true
  | fill _ _, .failed => true
  | fill _ _, .done bytes => bytes = []
  | show_ length, .failed => content.length < length.toNat
  | show_ length, .done bytes => length.toNat ≤ content.length ∧ bytes = content.take length.toNat
  | read length, .failed => content.length < length.toNat
  | read length, .done bytes => length.toNat ≤ content.length ∧ bytes = content.take length.toNat
  | skip length, .failed => content.length < length.toNat
  | skip length, .done bytes => length.toNat ≤ content.length ∧ bytes = []
  | data, .done bytes => bytes = content
  | _, _ => false

/-- The bytes that a call has put in. -/
def puts : BufferCall → Answer → Bytes
  | write bytes, .done _ => bytes
  | fill _ bytes, .done _ => bytes
  | _, _ => []

/-- How many bytes it has taken out. -/
def takes : BufferCall → Answer → ℕ
  | read length, .done _ => length.toNat
  | skip length, .done _ => length.toNat
  | _, _ => 0

/-- The sizes that `prepare` computes stay below `2^64`, and `data` is called where bytes have been taken out or no
space is left. -/
def Sound (b : RawBuffer) : BufferCall → Prop
  | write bytes => bytes.1.length = 0 ∨ (b.moved bytes.1.length)._putPosition + bytes.1.length < 2^64 - 2^12
  | fill length _ => length.toNat = 0 ∨ (b.moved length.toNat)._putPosition = 0 ∨
      ((b.moved length.toNat)._putPosition + length.toNat) % 2^64 < 2^64 - 2^12
  | data => b._getPosition > 0 ∨ b._putPosition = b._data.length
  | _ => True

end BufferCall

/-- A buffer, with all bytes that were put in, how many of them were taken out, and whether all answers were right. -/
structure BufferSession where
  buffer : RawBuffer
  put : Bytes
  taken : ℕ
  allRight : Bool

namespace BufferSession

def new : BufferSession := ⟨.empty,[],0,true⟩

/-- What was put in and not taken out. -/
def content (s : BufferSession) : Bytes := s.put.drop s.taken

def step (room : ℕ) (s : BufferSession) (call : BufferCall) : Option BufferSession :=
  let (answer,buffer) := call.answer room s.buffer
  some {
    buffer := buffer
    put := s.put ++ call.puts answer
    taken := s.taken + call.takes answer
    allRight := s.allRight && call.right s.content answer }

end BufferSession

namespace RawBuffer

/-- The positions are in order. -/
structure Ordered (room : ℕ) (b : RawBuffer) : Prop where
  get_le : b._getPosition ≤ b._putPosition
  put_le : b._putPosition ≤ b._data.length
  size_le : b._data.length ≤ room

section Moving

variable {room length : ℕ} {b : RawBuffer} {bytes : Bytes}

theorem Ordered.length_unread (h : b.Ordered room) : b.unread.length = b._putPosition - b._getPosition := by
  rw [unread,List.length_drop,List.length_take,Nat.min_eq_left h.put_le]

theorem Ordered.shift (h : b.Ordered room) : b.shift.Ordered room ∧ b.shift.unread = b.unread ∧
    b.shift._data.length = b._data.length := by
  have hlength := h.length_unread
  have hget := h.get_le
  have hput := h.put_le
  have hsize : b.shift._data.length = b._data.length := by
    rw [RawBuffer.shift,List.length_append,List.length_drop,hlength]
    omega
  refine ⟨⟨Nat.zero_le _,?_,hsize ▸ h.size_le⟩,?_,hsize⟩
  · rw [hsize]
    exact (Nat.sub_le _ _).trans hput
  · change ((b.unread ++ _).take (b._putPosition - b._getPosition)).drop 0 = b.unread
    rw [← hlength,List.take_left,List.drop_zero]

theorem Ordered.moved (h : b.Ordered room) (length : ℕ) : (b.moved length).Ordered room ∧
    (b.moved length).unread = b.unread ∧ (b.moved length)._data.length = b._data.length := by
  rw [RawBuffer.moved]
  split_ifs
  · exact h.shift
  · exact ⟨h,rfl,rfl⟩

theorem length_resize (b : RawBuffer) (n : ℕ) : (b.resize n)._data.length = n := by
  rw [resize,List.length_append,List.length_take,List.length_replicate]
  omega

theorem Ordered.resize {n : ℕ} (h : b.Ordered room) (hle : b._data.length ≤ n) (hn : n ≤ room) :
    (b.resize n).Ordered room ∧ (b.resize n).unread = b.unread := by
  refine ⟨⟨h.get_le,?_,?_⟩,?_⟩
  · rw [length_resize]
    exact h.put_le.trans hle
  · rwa [length_resize]
  · change ((b._data.take n ++ _).take b._putPosition).drop b._getPosition = b.unread
    rw [List.take_of_length_le hle,List.take_append_of_le_length h.put_le,unread]

theorem spaceLen_eq (hroom : room < 2^63) (h : b.Ordered room) : b.spaceLen = b._data.length - b._putPosition := by
  have hput := h.put_le
  have hsize := h.size_le
  rw [spaceLen]
  omega

theorem pages_eq {n : ℕ} (h : n < 2^64 - 2^12) : n < pages n := by
  rw [pages]
  omega

theorem pages_wrap {n : ℕ} (hlow : 2^64 - 2^12 ≤ n) (hhigh : n < 2^64) : pages n = 0 := by
  rw [pages]
  omega

/-- Where the sizes do not wrap, nothing is lost. -/
theorem Ordered.enlarge (h : b.Ordered room)
    (hsound : b._putPosition = 0 ∨ (b._putPosition + length) % 2^64 < 2^64 - 2^12) :
    (b.enlarge room length).2.Ordered room ∧ (b.enlarge room length).2.unread = b.unread := by
  rw [RawBuffer.enlarge]
  split_ifs with hsum hthrow
  · exact ⟨h,rfl⟩
  · rw [Nat.not_lt] at hthrow
    by_cases hwrap : (b._putPosition + length) % 2^64 < 2^64 - 2^12
    · exact h.resize ((Nat.le_of_lt hsum).trans (Nat.le_of_lt (pages_eq hwrap))) hthrow
    · have hput := hsound.resolve_right hwrap
      have hget : b._getPosition = 0 := Nat.le_zero.mp (hput ▸ h.get_le)
      rw [pages_wrap (Nat.not_lt.mp hwrap) (Nat.mod_lt _ (by decide))]
      refine ⟨⟨h.get_le,?_,?_⟩,?_⟩
      · change b._putPosition ≤ _
        rw [hput]
        exact Nat.zero_le _
      · rw [length_resize]
        exact Nat.zero_le _
      · change ((b.resize 0)._data.take b._putPosition).drop _ = (b._data.take b._putPosition).drop _
        rw [hput,List.take_zero,List.take_zero,List.drop_nil,List.drop_nil]
  · exact ⟨h,rfl⟩

theorem pages_le {m n : ℕ} (h : m ≤ n) (hn : n < 2^64 - 2^12) : pages m ≤ pages n := by
  rw [pages,pages,Nat.mod_eq_of_lt (by omega),Nat.mod_eq_of_lt (by omega)]
  exact Nat.mul_le_mul_right _ (Nat.succ_le_succ (Nat.div_le_div_right h))

/-- Where they do, all is lost. -/
theorem enlarge_wrap (hroom : room < 2^63) (h : b.Ordered room)
    (hwrap : 2^64 - 2^12 ≤ (b._putPosition + length) % 2^64) :
    b.enlarge room length = (true,b.resize 0) := by
  have hsize := h.size_le
  have hsum : (b._putPosition + length) % 2^64 > b._data.length := by omega
  rw [RawBuffer.enlarge,if_pos hsum,pages_wrap hwrap (Nat.mod_lt _ (by decide)),if_neg (Nat.not_lt_zero room)]

/-- Without an exception there is room, if the sum does not wrap either. -/
theorem enlarge_room (hwrap : b._putPosition + length < 2^64 - 2^12) (hdone : (b.enlarge room length).1 = true) :
    (b.enlarge room length).2._putPosition + length ≤ (b.enlarge room length).2._data.length := by
  have hmod : (b._putPosition + length) % 2^64 = b._putPosition + length := Nat.mod_eq_of_lt (by omega)
  rw [RawBuffer.enlarge] at hdone ⊢
  rw [hmod] at hdone ⊢
  split_ifs at hdone ⊢ with hsum hthrow
  · rw [length_resize]
    exact Nat.le_of_lt (pages_eq hwrap)
  · exact Nat.not_lt.mp hsum

theorem take_unread {n : ℕ} (hle : n ≤ b._putPosition - b._getPosition) :
    (b._data.drop b._getPosition).take n = b.unread.take n := by
  rw [unread,List.drop_take,List.take_take,Nat.min_eq_left hle]

theorem Ordered.taken {n : ℕ} (h : b.Ordered room) (hle : n ≤ b._putPosition - b._getPosition) :
    RawBuffer.Ordered room { b with _getPosition := b._getPosition + n } ∧
      RawBuffer.unread { b with _getPosition := b._getPosition + n } = b.unread.drop n := by
  have hget := h.get_le
  refine ⟨⟨?_,h.put_le,h.size_le⟩,?_⟩
  · change b._getPosition + n ≤ b._putPosition
    omega
  · rw [unread,unread,List.drop_drop]

/-- Bytes that have room are behind the others. -/
theorem Ordered.fillSpace (h : b.Ordered room) (hfits : b._putPosition + bytes.length ≤ b._data.length) :
    RawBuffer.Ordered room { b.fillSpace bytes with _putPosition := b._putPosition + bytes.length } ∧
      RawBuffer.unread { b.fillSpace bytes with _putPosition := b._putPosition + bytes.length } = b.unread ++ bytes ∧
      (b.fillSpace bytes)._data.length = b._data.length := by
  have hput := h.put_le
  have hget := h.get_le
  have htake : (b._data.take b._putPosition).length = b._putPosition := by
    rw [List.length_take,Nat.min_eq_left hput]
  have hsize : (b.fillSpace bytes)._data.length = b._data.length := by
    rw [RawBuffer.fillSpace,List.length_append,List.length_append,htake,List.length_drop]
    omega
  refine ⟨⟨hget.trans (Nat.le_add_right _ _),hsize ▸ hfits,hsize ▸ h.size_le⟩,?_,hsize⟩
  change ((b._data.take b._putPosition ++ bytes ++ _).take (b._putPosition + bytes.length)).drop b._getPosition = _
  rw [List.take_left' (by rw [List.length_append,htake]),List.drop_append_of_le_length (by rw [htake]; exact hget),
    unread]

/-- The same bytes without `forward`. -/
theorem Ordered.filled (h : b.Ordered room) (hfits : b._putPosition + bytes.length ≤ b._data.length) :
    (b.fillSpace bytes).Ordered room ∧ (b.fillSpace bytes).unread = b.unread := by
  have hput := h.put_le
  have htake : (b._data.take b._putPosition).length = b._putPosition := by
    rw [List.length_take,Nat.min_eq_left hput]
  have hsize := (h.fillSpace hfits).2.2
  refine ⟨⟨h.get_le,hsize ▸ hput,hsize ▸ h.size_le⟩,?_⟩
  change ((b._data.take b._putPosition ++ bytes ++ _).take b._putPosition).drop b._getPosition = _
  rw [List.append_assoc,List.take_left' htake,unread]

end Moving

end RawBuffer

namespace Buffer

section Raw

variable {room length : ℕ} {b : Buffer}

theorem moved_raw (hsum : b._putPosition + length < 2^64) : b.raw.moved length =
    (if b._putPosition + length > b._data.length ∧ b._getPosition > 0 then b.shift else b).raw := by
  rw [RawBuffer.moved]
  change (if (b._putPosition + length) % 2^64 > b._data.length ∧ b._getPosition > 0 then b.raw.shift else b.raw) = _
  rw [Nat.mod_eq_of_lt hsum]
  split_ifs
  · rfl
  · rfl

theorem enlarge_raw (hsum : b._putPosition + length < 2^64 - 2^12)
    (hroom : RawBuffer.pages (b._putPosition + length) ≤ room) : b.raw.enlarge room length =
    (true,(if b._putPosition + length > b._data.length then b.grow length else b).raw) := by
  rw [RawBuffer.enlarge]
  change (if (b._putPosition + length) % 2^64 > b._data.length then
    if RawBuffer.pages ((b._putPosition + length) % 2^64) > room then (false,b.raw)
    else (true,b.raw.resize (RawBuffer.pages ((b._putPosition + length) % 2^64))) else (true,b.raw)) = _
  rw [Nat.mod_eq_of_lt (by omega),if_neg (Nat.not_lt.mpr hroom)]
  split_ifs with hmore
  · have hpages : RawBuffer.pages (b._putPosition + length) = ((b._putPosition + length) / 2^12 + 1) * 2^12 := by
      rw [RawBuffer.pages]
      exact Nat.mod_eq_of_lt (by omega)
    have hkeep : b._data.take (RawBuffer.pages (b._putPosition + length)) = b._data :=
      List.take_of_length_le ((Nat.le_of_lt hmore).trans (Nat.le_of_lt (RawBuffer.pages_eq hsum)))
    simp only [raw,RawBuffer.resize,grow,RawBuffer.mk.injEq,Prod.mk.injEq,true_and,and_true]
    rw [hkeep,hpages]
  · rfl

/-- `Buffer.write` is `write` where there is room and no sum wraps. -/
theorem write_raw {bytes : Bytes} (hsum : b._putPosition + bytes.length < 2^64 - 2^12)
    (hroom : RawBuffer.pages (b._putPosition + bytes.length) ≤ room) :
    b.raw.write room bytes = (.done [],(b.write bytes).raw) := by
  by_cases hzero : bytes.length = 0
  · have hnil := List.length_eq_zero_iff.mp hzero
    rw [RawBuffer.write,if_pos hzero]
    simp [raw,write,prepare,hnil]
  · have hprepare : b.raw.prepare room bytes.length = (true,(b.prepare bytes.length).raw) := by
      rw [RawBuffer.prepare,if_neg hzero,prepare,if_neg hzero,moved_raw (by omega)]
      apply enlarge_raw
      · split_ifs
        · exact (Nat.add_le_add_right (Nat.sub_le _ _) _).trans_lt hsum
        · exact hsum
      · split_ifs
        · exact (RawBuffer.pages_le (Nat.add_le_add_right (Nat.sub_le _ _) _) hsum).trans hroom
        · exact hroom
    have hfits : ¬ (b.prepare bytes.length).raw._putPosition + bytes.length >
        (b.prepare bytes.length).raw._data.length := Nat.not_lt.mpr (le_length_prepare b bytes.length)
    rw [RawBuffer.write,if_neg hzero,hprepare]
    exact if_neg hfits

end Raw

end Buffer

namespace BufferSession

/-- All answers were right, the positions are in order, and between them stand the bytes not taken out. -/
structure Holds (room : ℕ) (s : BufferSession) : Prop where
  allRight : s.allRight = true
  ordered : s.buffer.Ordered room
  taken_le : s.taken ≤ s.put.length
  unread : s.buffer.unread = s.content

section Steps

variable {room : ℕ} {s t : BufferSession} {call : BufferCall} {a : Answer} {b : RawBuffer}

theorem step_eq (h : call.answer room s.buffer = (a,b)) : s.step room call = some
    ⟨b,s.put ++ call.puts a,s.taken + call.takes a,s.allRight && call.right s.content a⟩ := by
  rw [step,h]

/-- A call that puts bytes in, or none. -/
theorem Holds.put (h : s.Holds room) (hright : call.right s.content a = true) (hb : b.Ordered room)
    (htakes : call.takes a = 0) (hunread : b.unread = s.buffer.unread ++ call.puts a) :
    Holds room ⟨b,s.put ++ call.puts a,s.taken + call.takes a,s.allRight && call.right s.content a⟩ where
  allRight := by rw [h.allRight,hright,Bool.and_self]
  ordered := hb
  taken_le := by
    have hle := h.taken_le
    change s.taken + call.takes a ≤ (s.put ++ call.puts a).length
    rw [htakes,List.length_append]
    omega
  unread := by
    change b.unread = (s.put ++ call.puts a).drop (s.taken + call.takes a)
    rw [htakes,Nat.add_zero,List.drop_append_of_le_length h.taken_le,hunread,h.unread,content]

/-- A call that takes bytes out. -/
theorem Holds.take (h : s.Holds room) (hright : call.right s.content a = true) (hb : b.Ordered room)
    (hputs : call.puts a = []) (hle : call.takes a ≤ s.content.length)
    (hunread : b.unread = s.buffer.unread.drop (call.takes a)) :
    Holds room ⟨b,s.put ++ call.puts a,s.taken + call.takes a,s.allRight && call.right s.content a⟩ where
  allRight := by rw [h.allRight,hright,Bool.and_self]
  ordered := hb
  taken_le := by
    have htaken := h.taken_le
    rw [content,List.length_drop] at hle
    change s.taken + call.takes a ≤ (s.put ++ call.puts a).length
    rw [hputs,List.append_nil]
    omega
  unread := by
    change b.unread = (s.put ++ call.puts a).drop (s.taken + call.takes a)
    rw [hputs,List.append_nil,hunread,h.unread,content,List.drop_drop]

/-- An answer that is not right stays in the books. -/
theorem not_holds_of_wrong (hwrong : call.right s.content a = false) {put : Bytes} {taken : ℕ} :
    ¬ Holds room ⟨b,put,taken,s.allRight && call.right s.content a⟩ := by
  intro h
  have hall := h.allRight
  rw [hwrong,Bool.and_false] at hall
  exact absurd hall nofun

theorem data_iff (h : s.Holds room) (hstep : s.step room .data = some t) :
    t.Holds room ↔ BufferCall.Sound s.buffer .data := by
  by_cases hget : s.buffer._getPosition > 0
  · obtain ⟨hshift,hunread,hsize⟩ := h.ordered.shift
    have hdata : (s.buffer.shift.resize s.buffer.shift._putPosition)._data = s.buffer.unread := by
      rw [RawBuffer.resize,Nat.sub_eq_zero_of_le hshift.put_le,List.replicate_zero,List.append_nil,← hunread]
      rfl
    have hanswer : BufferCall.answer room s.buffer .data =
        (.done s.buffer.unread,s.buffer.shift.resize s.buffer.shift._putPosition) := by
      rw [BufferCall.answer,RawBuffer.data,if_pos hget,hdata]
    rw [step_eq hanswer] at hstep
    obtain rfl := Option.some.inj hstep
    apply iff_of_true _ (Or.inl hget)
    apply h.put (by simp [BufferCall.right,h.unread]) _ rfl
    · change RawBuffer.unread _ = s.buffer.unread ++ []
      rw [List.append_nil,← hunread]
      change ((s.buffer.shift.resize s.buffer.shift._putPosition)._data.take s.buffer.shift._putPosition).drop
        s.buffer.shift._getPosition = _
      rw [RawBuffer.resize,Nat.sub_eq_zero_of_le hshift.put_le,List.replicate_zero,List.append_nil,List.take_take,
        Nat.min_self]
      rfl
    · refine ⟨hshift.get_le,?_,?_⟩
      · rw [RawBuffer.length_resize]
        exact le_rfl
      · rw [RawBuffer.length_resize]
        exact hshift.put_le.trans hshift.size_le
  · have hzero : s.buffer._getPosition = 0 := Nat.eq_zero_of_not_pos hget
    have hanswer : BufferCall.answer room s.buffer .data = (.done s.buffer._data,s.buffer) := by
      rw [BufferCall.answer,RawBuffer.data,if_neg hget]
    have hcontent : s.content = s.buffer._data.take s.buffer._putPosition := by
      rw [← h.unread,RawBuffer.unread,hzero,List.drop_zero]
    rw [step_eq hanswer] at hstep
    obtain rfl := Option.some.inj hstep
    by_cases hfull : s.buffer._putPosition = s.buffer._data.length
    · apply iff_of_true _ (Or.inr hfull)
      rw [hfull,List.take_length] at hcontent
      exact h.put (by simp [BufferCall.right,hcontent]) h.ordered rfl (List.append_nil _).symm
    · apply iff_of_false _ (not_or.mpr ⟨hget,hfull⟩)
      apply not_holds_of_wrong
      have hlonger : s.buffer._data ≠ s.content := by
        intro heq
        have hlength := congrArg List.length heq
        rw [hcontent,List.length_take] at hlength
        have hput := h.ordered.put_le
        omega
      exact decide_eq_false hlonger

theorem show_holds {length : UInt64} (h : s.Holds room) (hstep : s.step room (.show_ length) = some t) :
    t.Holds room := by
  have hlength : s.content.length = s.buffer._putPosition - s.buffer._getPosition := by
    rw [← h.unread,h.ordered.length_unread]
  obtain ⟨a,hanswer,hright⟩ : ∃ a, BufferCall.answer room s.buffer (.show_ length) = (a,s.buffer) ∧
      BufferCall.right s.content (.show_ length) a = true ∧ BufferCall.puts (.show_ length) a = [] ∧
      BufferCall.takes (.show_ length) a = 0 := by
    rw [BufferCall.answer,RawBuffer.show_]
    split_ifs with hzero hmore
    · exact ⟨_,rfl,by simp [BufferCall.right,hzero],rfl,rfl⟩
    · exact ⟨_,rfl,by simpa [BufferCall.right,hlength] using hmore,rfl,rfl⟩
    · rw [Nat.not_lt] at hmore
      rw [RawBuffer.take_unread hmore,h.unread]
      exact ⟨_,rfl,by simpa [BufferCall.right,hlength] using hmore,rfl,rfl⟩
  rw [step_eq hanswer] at hstep
  obtain rfl := Option.some.inj hstep
  exact h.put hright.1 h.ordered hright.2.2 (by rw [hright.2.1,List.append_nil])

theorem read_holds {length : UInt64} (h : s.Holds room) (hstep : s.step room (.read length) = some t) :
    t.Holds room := by
  have hlength : s.content.length = s.buffer._putPosition - s.buffer._getPosition := by
    rw [← h.unread,h.ordered.length_unread]
  by_cases hmore : s.buffer._putPosition - s.buffer._getPosition < length.toNat
  · have hanswer : BufferCall.answer room s.buffer (.read length) = (.failed,s.buffer) := by
      rw [BufferCall.answer,RawBuffer.read,if_neg (by omega),if_pos hmore]
    rw [step_eq hanswer] at hstep
    obtain rfl := Option.some.inj hstep
    exact h.put (by simpa [BufferCall.right,hlength] using hmore) h.ordered rfl (List.append_nil _).symm
  · have hle := Nat.not_lt.mp hmore
    have hanswer : BufferCall.answer room s.buffer (.read length) = (.done (s.content.take length.toNat),
        { s.buffer with _getPosition := s.buffer._getPosition + length.toNat }) := by
      rw [BufferCall.answer,RawBuffer.read,if_neg hmore,RawBuffer.take_unread hle,h.unread]
      split_ifs with hzero
      · rw [hzero,List.take_zero,Nat.add_zero]
      · rfl
    rw [step_eq hanswer] at hstep
    obtain rfl := Option.some.inj hstep
    obtain ⟨hordered,hunread⟩ := h.ordered.taken hle
    exact h.take (by simpa [BufferCall.right,hlength] using hle) hordered rfl (hlength ▸ hle) hunread

theorem skip_holds {length : UInt64} (h : s.Holds room) (hstep : s.step room (.skip length) = some t) :
    t.Holds room := by
  have hlength : s.content.length = s.buffer._putPosition - s.buffer._getPosition := by
    rw [← h.unread,h.ordered.length_unread]
  by_cases hmore : s.buffer._putPosition - s.buffer._getPosition < length.toNat
  · have hanswer : BufferCall.answer room s.buffer (.skip length) = (.failed,s.buffer) := by
      rw [BufferCall.answer,RawBuffer.skip,if_neg (by omega),if_pos hmore]
    rw [step_eq hanswer] at hstep
    obtain rfl := Option.some.inj hstep
    exact h.put (by simpa [BufferCall.right,hlength] using hmore) h.ordered rfl (List.append_nil _).symm
  · have hle := Nat.not_lt.mp hmore
    have hanswer : BufferCall.answer room s.buffer (.skip length) = (.done [],
        { s.buffer with _getPosition := s.buffer._getPosition + length.toNat }) := by
      rw [BufferCall.answer,RawBuffer.skip,if_neg hmore]
      split_ifs with hzero
      · rw [hzero,Nat.add_zero]
      · rfl
    rw [step_eq hanswer] at hstep
    obtain rfl := Option.some.inj hstep
    obtain ⟨hordered,hunread⟩ := h.ordered.taken hle
    exact h.take (by simpa [BufferCall.right,hlength] using hle) hordered rfl (hlength ▸ hle) hunread

/-- A vector that is resized to nothing is not in order. -/
theorem wrap_spec (hroom : room < 2^63) {b : RawBuffer} (h : b.Ordered room) {length : ℕ}
    (hwrap : 2^64 - 2^12 ≤ (b._putPosition + length) % 2^64) :
    (b.enlarge room length).1 = true ∧ (b.enlarge room length).2._data.length = 0 ∧
      (b.enlarge room length).2._putPosition = b._putPosition := by
  rw [RawBuffer.enlarge_wrap hroom h hwrap]
  exact ⟨rfl,RawBuffer.length_resize b 0,rfl⟩

theorem write_iff (hroom : room < 2^63) {bytes : { l : Bytes // l.length < 2^64 }} (h : s.Holds room)
    (hstep : s.step room (.write bytes) = some t) : t.Holds room ↔ BufferCall.Sound s.buffer (.write bytes) := by
  obtain ⟨bytes,hbytes⟩ := bytes
  obtain ⟨hmoved,hunread,-⟩ := h.ordered.moved bytes.length
  by_cases hzero : bytes.length = 0
  · have hnil := List.length_eq_zero_iff.mp hzero
    have hanswer : BufferCall.answer room s.buffer (.write ⟨bytes,hbytes⟩) = (.done [],s.buffer) := by
      rw [BufferCall.answer,RawBuffer.write,if_pos hzero]
    rw [step_eq hanswer] at hstep
    obtain rfl := Option.some.inj hstep
    apply iff_of_true _ (Or.inl hzero)
    apply h.put rfl h.ordered rfl
    change s.buffer.unread = s.buffer.unread ++ bytes
    rw [hnil,List.append_nil]
  · by_cases hsound : (s.buffer.moved bytes.length)._putPosition + bytes.length < 2^64 - 2^12
    · apply iff_of_true _ (Or.inr hsound)
      have hbelow : ((s.buffer.moved bytes.length)._putPosition + bytes.length) % 2^64 < 2^64 - 2^12 := by omega
      obtain ⟨hordered,hsame⟩ := hmoved.enlarge (.inr hbelow)
      have hroomy := @RawBuffer.enlarge_room room bytes.length (s.buffer.moved bytes.length) hsound
      have hanswer : BufferCall.answer room s.buffer (.write ⟨bytes,hbytes⟩) = s.buffer.write room bytes := rfl
      rw [RawBuffer.write,if_neg hzero,RawBuffer.prepare,if_neg hzero] at hanswer
      generalize (s.buffer.moved bytes.length).enlarge room bytes.length = enlarged at *
      obtain ⟨done,b⟩ := enlarged
      cases done with
      | false =>
        rw [step_eq hanswer] at hstep
        obtain rfl := Option.some.inj hstep
        exact h.put rfl hordered rfl ((hsame.trans hunread).trans (List.append_nil _).symm)
      | true =>
        have hfits := hroomy rfl
        simp only [if_neg (Nat.not_lt.mpr hfits)] at hanswer
        rw [step_eq hanswer] at hstep
        obtain rfl := Option.some.inj hstep
        obtain ⟨hfilled,hput,-⟩ := hordered.fillSpace hfits
        exact h.put rfl hfilled rfl (hput.trans (congrArg (· ++ bytes) (hsame.trans hunread)))
    · apply iff_of_false _ (not_or.mpr ⟨hzero,hsound⟩)
      have hput := hmoved.put_le
      have hsize := hmoved.size_le
      have hanswer : BufferCall.answer room s.buffer (.write ⟨bytes,hbytes⟩) = s.buffer.write room bytes := rfl
      rw [RawBuffer.write,if_neg hzero,RawBuffer.prepare,if_neg hzero] at hanswer
      obtain ⟨hdone,hbeyond⟩ : ((s.buffer.moved bytes.length).enlarge room bytes.length).1 = true ∧
          ((s.buffer.moved bytes.length).enlarge room bytes.length).2._putPosition + bytes.length >
            ((s.buffer.moved bytes.length).enlarge room bytes.length).2._data.length := by
        by_cases hwrap : 2^64 - 2^12 ≤ ((s.buffer.moved bytes.length)._putPosition + bytes.length) % 2^64
        · obtain ⟨hdone,hnothing,hsame⟩ := wrap_spec hroom hmoved hwrap
          refine ⟨hdone,?_⟩
          rw [hnothing]
          omega
        · have hsum : ¬ ((s.buffer.moved bytes.length)._putPosition + bytes.length) % 2^64 >
              (s.buffer.moved bytes.length)._data.length := by omega
          rw [RawBuffer.enlarge,if_neg hsum]
          refine ⟨rfl,?_⟩
          change (s.buffer.moved bytes.length)._putPosition + bytes.length > (s.buffer.moved bytes.length)._data.length
          omega
      generalize (s.buffer.moved bytes.length).enlarge room bytes.length = enlarged at *
      obtain ⟨done,b⟩ := enlarged
      obtain rfl : done = true := hdone
      simp only [if_pos hbeyond] at hanswer
      rw [step_eq hanswer] at hstep
      obtain rfl := Option.some.inj hstep
      exact not_holds_of_wrong rfl

theorem fill_iff (hroom : room < 2^63) {length : UInt64} {bytes : { l : Bytes // l.length < 2^64 }} (h : s.Holds room)
    (hstep : s.step room (.fill length bytes) = some t) :
    t.Holds room ↔ BufferCall.Sound s.buffer (.fill length bytes) := by
  obtain ⟨bytes,hbytes⟩ := bytes
  obtain ⟨hmoved,hunread,-⟩ := h.ordered.moved length.toNat
  have hanswer : BufferCall.answer room s.buffer (.fill length ⟨bytes,hbytes⟩) =
      s.buffer.fill room length.toNat bytes := rfl
  by_cases hsound : BufferCall.Sound s.buffer (.fill length ⟨bytes,hbytes⟩)
  · apply iff_of_true _ hsound
    obtain ⟨hordered,hsame⟩ : (s.buffer.prepare room length.toNat).2.Ordered room ∧
        (s.buffer.prepare room length.toNat).2.unread = s.buffer.unread := by
      rw [RawBuffer.prepare]
      split_ifs with hzero
      · exact ⟨h.ordered,rfl⟩
      · obtain ⟨hordered,hsame⟩ := hmoved.enlarge (hsound.resolve_left hzero)
        exact ⟨hordered,hsame.trans hunread⟩
    rw [RawBuffer.fill] at hanswer
    generalize s.buffer.prepare room length.toNat = prepared at *
    obtain ⟨done,b⟩ := prepared
    cases done with
    | false =>
      rw [step_eq hanswer] at hstep
      obtain rfl := Option.some.inj hstep
      exact h.put rfl hordered rfl (hsame.trans (List.append_nil _).symm)
    | true =>
      have hput : b._putPosition ≤ b._data.length := hordered.put_le
      have hspace : b.spaceLen = b._data.length - b._putPosition := RawBuffer.spaceLen_eq hroom hordered
      have hfits : b._putPosition + (bytes.take b.spaceLen).length ≤ b._data.length := by
        rw [List.length_take]
        omega
      obtain ⟨hfilled,hkept⟩ := RawBuffer.Ordered.filled hordered hfits
      have hspace' : (b.fillSpace (bytes.take b.spaceLen)).spaceLen = b.spaceLen := by
        rw [RawBuffer.spaceLen,(RawBuffer.Ordered.fillSpace hordered hfits).2.2]
        rfl
      simp only [if_neg (Nat.not_lt.mpr hfits),RawBuffer.forward,hspace'] at hanswer
      by_cases hzero : bytes.length = 0
      · rw [if_pos hzero] at hanswer
        rw [step_eq hanswer] at hstep
        obtain rfl := Option.some.inj hstep
        apply h.put rfl hfilled rfl
        change _ = s.buffer.unread ++ bytes
        rw [List.length_eq_zero_iff.mp hzero,List.append_nil,← List.length_eq_zero_iff.mp hzero]
        exact hkept.trans hsame
      · rw [if_neg hzero] at hanswer
        by_cases hlong : bytes.length > b.spaceLen
        · rw [if_pos hlong] at hanswer
          rw [step_eq hanswer] at hstep
          obtain rfl := Option.some.inj hstep
          exact h.put rfl hfilled rfl ((hkept.trans hsame).trans (List.append_nil _).symm)
        · rw [if_neg hlong,List.take_of_length_le (Nat.not_lt.mp hlong)] at hanswer
          rw [List.take_of_length_le (Nat.not_lt.mp hlong)] at hfits
          obtain ⟨hdone,hbehind,-⟩ := RawBuffer.Ordered.fillSpace hordered hfits
          rw [step_eq hanswer] at hstep
          obtain rfl := Option.some.inj hstep
          exact h.put rfl hdone rfl (hbehind.trans (congrArg (· ++ bytes) hsame))
  · apply iff_of_false _ hsound
    obtain ⟨hzero,hmore⟩ := not_or.mp hsound
    obtain ⟨hput,hwrap⟩ := not_or.mp hmore
    obtain ⟨hdone,hnothing,hsame⟩ := wrap_spec hroom hmoved (Nat.not_lt.mp hwrap)
    rw [RawBuffer.fill,RawBuffer.prepare,if_neg hzero] at hanswer
    generalize (s.buffer.moved length.toNat).enlarge room length.toNat = enlarged at *
    obtain ⟨done,b⟩ := enlarged
    obtain rfl : done = true := hdone
    have hbeyond : b._putPosition + (bytes.take b.spaceLen).length > b._data.length := by
      have hempty : b._data.length = 0 := hnothing
      have hposition : b._putPosition = (s.buffer.moved length.toNat)._putPosition := hsame
      omega
    simp only [if_pos hbeyond] at hanswer
    rw [step_eq hanswer] at hstep
    obtain rfl := Option.some.inj hstep
    exact not_holds_of_wrong rfl

theorem step_iff (hroom : room < 2^63) (h : s.Holds room) (hstep : s.step room call = some t) :
    t.Holds room ↔ call.Sound s.buffer := by
  cases call with
  | write bytes => exact write_iff hroom h hstep
  | fill length bytes => exact fill_iff hroom h hstep
  | show_ length => exact iff_of_true (show_holds h hstep) trivial
  | read length => exact iff_of_true (read_holds h hstep) trivial
  | skip length => exact iff_of_true (skip_holds h hstep) trivial
  | data => exact data_iff h hstep

end Steps

theorem new_holds (room : ℕ) : Holds room new :=
  ⟨rfl,⟨le_rfl,le_rfl,Nat.zero_le _⟩,le_rfl,rfl⟩

/-- A buffer is a queue in all states of a run exactly if all its calls are sound. -/
theorem queue_iff {room : ℕ} (hroom : room < 2^63) (calls : List BufferCall) :
    (∀ before, before <+: calls → ∀ t, Stepping.run (step room) new before = some t → t.Holds room) ↔
      Stepping.Along (step room) (fun s call => call.Sound s.buffer) new calls :=
  Stepping.run_iff (fun _ _ _ => step_iff hroom) (new_holds room)

/-- The first byte makes a page. -/
def first : RawBuffer := { RawBuffer.fillSpace [1] (RawBuffer.empty.resize (2^12)) with _putPosition := 1 }

theorem write_first : RawBuffer.write 8192 [1] .empty = (.done [],first) := by
  have hroomy : ¬ 0 + 1 > (RawBuffer.empty.resize (2^12))._data.length := by
    rw [RawBuffer.length_resize]
    decide
  have hpages : RawBuffer.pages 1 = 2^12 := by decide
  have hprepare : RawBuffer.prepare 8192 1 .empty = (true,RawBuffer.empty.resize (2^12)) := by
    have hsum : (RawBuffer.empty._putPosition + 1) % 2^64 > RawBuffer.empty._data.length := by decide
    have hspace : ¬ RawBuffer.pages ((RawBuffer.empty._putPosition + 1) % 2^64) > 8192 := by decide
    rw [RawBuffer.prepare,if_neg Nat.one_ne_zero,RawBuffer.moved,if_neg (by decide),RawBuffer.enlarge,if_pos hsum,
      if_neg hspace,← hpages]
    exact congrArg (fun n => (true,RawBuffer.empty.resize n)) (congrArg RawBuffer.pages (by decide))
  rw [RawBuffer.write,List.length_singleton,if_neg Nat.one_ne_zero,hprepare]
  exact if_neg hroomy

theorem length_first : first._data.length = 2^12 := by
  have hfits : (RawBuffer.empty.resize (2^12))._putPosition + [(1 : UInt8)].length ≤
      (RawBuffer.empty.resize (2^12))._data.length := by
    rw [RawBuffer.length_resize]
    decide
  have hordered : (RawBuffer.empty.resize (2^12)).Ordered (2^12) :=
    ((new_holds (2^12)).ordered.resize (n := 2^12) (Nat.zero_le _) (Nat.le_refl _)).1
  rw [first,(hordered.fillSpace hfits).2.2,RawBuffer.length_resize]

theorem step_first (t : BufferSession) (h : step 8192 new (.write ⟨[1],by decide⟩) = some t) :
    t = ⟨first,[1],0,true⟩ := by
  have hanswer : BufferCall.answer 8192 new.buffer (.write ⟨[1],by decide⟩) = (.done [],first) := write_first
  rw [step_eq hanswer] at h
  exact (Option.some.inj h).symm

/-- A byte is written and taken out, and `data` gives the empty rest. -/
def emptied : List BufferCall :=
  [.write ⟨[1],by decide⟩,.read 1,.data]

theorem along_emptied : Stepping.Along (step 8192) (fun s call => call.Sound s.buffer) new emptied := by
  intro t ht
  obtain rfl := step_first t ht
  refine ⟨Or.inr (by decide),fun t ht => ⟨trivial,fun u hu => ⟨?_,trivial⟩⟩⟩
  obtain rfl := Option.some.inj ht
  exact Or.inl Nat.one_pos

theorem queue_emptied : (∃ t, Stepping.run (step 8192) new emptied = some t) ∧
    ∀ before, before <+: emptied → ∀ t, Stepping.run (step 8192) new before = some t → t.Holds 8192 :=
  ⟨⟨_,rfl⟩,(queue_iff (by decide) emptied).mpr along_emptied⟩

/-- Where nothing has been taken out, `data` gives the space behind the bytes with them. -/
theorem data_unsound : ¬ ∀ calls : List BufferCall, ∀ before, before <+: calls → ∀ t,
    Stepping.run (step 8192) new before = some t → t.Holds 8192 := by
  intro h
  have hanswer : BufferCall.answer 8192 new.buffer (.write ⟨[1],by decide⟩) = (.done [],first) := write_first
  have hwrite : step 8192 new (.write ⟨[1],by decide⟩) = some ⟨first,[1],0,true⟩ := step_eq hanswer
  have hholds : Holds 8192 ⟨first,[1],0,true⟩ := h [.write ⟨[1],by decide⟩] _ (List.prefix_refl _) _ (by
    rw [Stepping.run_cons,hwrite]
    rfl)
  have hrun : Stepping.run (step 8192) new [.write ⟨[1],by decide⟩,.data] =
      step 8192 ⟨first,[1],0,true⟩ .data := by
    rw [Stepping.run_cons,hwrite]
    rfl
  have hdata := h [.write ⟨[1],by decide⟩,.data] _ (List.prefix_refl _) _ (hrun.trans rfl)
  have hsound : 0 > 0 ∨ 1 = first._data.length := (data_iff hholds rfl).mp hdata
  rw [length_first] at hsound
  exact absurd hsound (by decide)

end BufferSession

end Tkeycoin
