import Tkeycoin.Buffer
import Tkeycoin.Sha256

/-! Websocket frames: what their header says, their mask, and how they are written. -/
namespace Tkeycoin

theorem beValue_beBytes {width n : ℕ} (h : n < 256 ^ width) : beValue (beBytes width n) = n := by
  rw [beValue,beBytes,List.reverse_reverse,leValue_leBytes,Nat.mod_eq_of_lt h]

@[simp] theorem length_beBytes (width n : ℕ) : (beBytes width n).length = width := by
  simp [beBytes]

inductive Opcode
  | Continue | Text | Binary | data_0x03 | data_0x04 | data_0x05 | data_0x06 | data_0x07
  | Close | Ping | Pong | crtl_0x0B | crtl_0x0C | crtl_0x0D | crtl_0x0E | crtl_0x0F
  deriving DecidableEq

namespace Opcode

def all : List Opcode :=
  [.Continue,.Text,.Binary,.data_0x03,.data_0x04,.data_0x05,.data_0x06,.data_0x07,
    .Close,.Ping,.Pong,.crtl_0x0B,.crtl_0x0C,.crtl_0x0D,.crtl_0x0E,.crtl_0x0F]

/-- `static_cast<Opcode>` of four bits. -/
def ofBits (bits : UInt8) : Opcode := all.getD bits.toNat .Continue

def code (o : Opcode) : UInt8 := UInt8.ofNat (all.idxOf o)

end Opcode

/-- A frame with the bytes of its body that have been read. -/
structure WsFrame extends Buffer where
  _finaly : Bool
  _opcode : Opcode
  _masked : Bool
  _length : ℕ
  _mask : Fin 4 → UInt8

namespace WsFrame

def calcHeaderSize (data : Bytes) : ℕ :=
  let prelen := data.getD 1 0 &&& 0x7F
  let masked := data.getD 1 0 >>> 7 &&& 0x01
  2 + (if prelen ≤ 125 then 0 else if prelen = 126 then 2 else 8) + if masked = 0 then 0 else 4

/-- The length of the body, and what follows. `none` where the constructor throws. -/
def readLength (prelen : UInt8) (s : Bytes) : Option (ℕ × Bytes) :=
  if prelen < 126 then some (prelen.toNat,s)
  else if prelen = 126 then
    if s.length < 2 then none else some (beValue (s.take 2),s.drop 2)
  else
    if s.length < 8 then none else some (beValue (s.take 8),s.drop 8)

def readMask (masked : Bool) (s : Bytes) : Option (Fin 4 → UInt8) :=
  if masked then
    if s.length < 4 then none else some fun i => s.getD i 0
  else some fun _ => 0

/-- The constructor. -/
def ofBytes : Bytes → Option WsFrame
  | b₀ :: b₁ :: s =>
    let masked := b₁ >>> 7 &&& 0x01 ≠ 0
    (readLength (b₁ &&& 0x7F) s).bind fun (length,s) =>
      (readMask masked s).map fun mask =>
        { Buffer.empty with
          _finaly := b₀ >>> 7 &&& 0x01 ≠ 0
          _opcode := Opcode.ofBits (b₀ &&& 0x0F)
          _masked := masked
          _length := length
          _mask := mask }
  | _ => none

/-- The loop of `applyMask`. A count that begins with 0 wraps and does not come to 0 again. -/
def maskLoop (mask : Fin 4 → UInt8) : Fin 4 → ℕ → Bytes → Bytes
  | _, _, [] => []
  | i, remain, b :: rest =>
    (b ^^^ mask i) :: if remain = 1 then rest else maskLoop mask (i + 1) (remain - 1) rest

@[simp] theorem length_maskLoop (mask : Fin 4 → UInt8) (i : Fin 4) (remain : ℕ) (data : Bytes) :
    (maskLoop mask i remain data).length = data.length := by
  induction data generalizing i remain with
  | nil => rfl
  | cons b rest ih =>
    simp only [maskLoop,List.length_cons]
    split_ifs
    · rfl
    · rw [ih]

def applyMask (f : WsFrame) : WsFrame :=
  if ¬ f._masked then f
  else
    { f with
      _data := maskLoop f._mask 0 f.dataLen f._data
      put_le := by simpa using f.put_le }

def write (f : WsFrame) (data : Bytes) : WsFrame :=
  { f with toBuffer := f.toBuffer.write data }

/-- What `send` writes. -/
def send (code : Opcode) (data : Bytes) : Bytes :=
  let size := data.length
  let length : UInt8 := if size > 65535 then 127 else if size > 125 then 126 else UInt8.ofNat size
  [(1 : UInt8) <<< 7 ||| code.code,length] ++
    (if size > 65535 then beBytes 8 size else if size > 125 then beBytes 2 size else []) ++ data

@[simp] theorem unread_write (f : WsFrame) (data : Bytes) :
    (f.write data).unread = f.unread ++ data := Buffer.unread_write f.toBuffer data

@[simp] theorem length_unread_applyMask (f : WsFrame) :
    f.applyMask.unread.length = f.unread.length := by
  rw [Buffer.length_unread,Buffer.length_unread,applyMask]
  split_ifs <;> rfl

/-- Longer data are sent as more bytes. -/
theorem length_send_lt {code : Opcode} {data more : Bytes} (h : data.length < more.length) :
    (send code data).length < (send code more).length := by
  simp only [send,List.length_append,List.length_cons,List.length_nil]
  split_ifs <;> simp <;> omega

end WsFrame

/-- The bytes of a string, from one of the key on. -/
def maskFrom (key : Fin 4 → UInt8) : Fin 4 → Bytes → Bytes
  | _, [] => []
  | i, b :: rest => (b ^^^ key i) :: maskFrom key (i + 1) rest

@[simp] theorem length_maskFrom (key : Fin 4 → UInt8) (i : Fin 4) (data : Bytes) :
    (maskFrom key i data).length = data.length := by
  induction data generalizing i with
  | nil => rfl
  | cons b rest ih => simp [maskFrom,ih]

theorem maskFrom_maskFrom (key : Fin 4 → UInt8) (i : Fin 4) (data : Bytes) :
    maskFrom key i (maskFrom key i data) = data := by
  induction data generalizing i with
  | nil => rfl
  | cons b rest ih => simp [maskFrom,ih,UInt8.xor_assoc]

/-- The loop masks as many bytes as there are to the first. -/
theorem maskLoop_append (key : Fin 4 → UInt8) (i : Fin 4) (data rest : Bytes)
    (hpos : 0 < data.length) :
    WsFrame.maskLoop key i data.length (data ++ rest) = maskFrom key i data ++ rest := by
  induction data generalizing i with
  | nil => simp at hpos
  | cons b data ih =>
    simp only [List.cons_append,List.length_cons,WsFrame.maskLoop,maskFrom,Nat.add_sub_cancel,
      Nat.add_eq_right]
    split_ifs with hzero
    · simp [List.length_eq_zero_iff.mp hzero,maskFrom]
    · rw [ih (i + 1) (Nat.pos_of_ne_zero hzero)]

namespace WsFrame

/-- The mask on what has been read of a frame that begins its buffer. -/
theorem unread_applyMask {f : WsFrame} (hfront : f._getPosition = 0) :
    f.applyMask.unread = if f._masked then maskFrom f._mask 0 f.unread else f.unread := by
  by_cases hmasked : f._masked
  · have hunread : f.unread = f._data.take f._putPosition := by
      rw [Buffer.unread,hfront,List.drop_zero]
    have hmask : f.applyMask.unread = (maskLoop f._mask 0 f.dataLen f._data).take f._putPosition := by
      simp [applyMask,hmasked,Buffer.unread,hfront]
    rw [if_pos hmasked,hmask]
    by_cases hzero : f.unread.length = 0
    · have hput : f._putPosition = 0 := by
        rw [Buffer.length_unread,Buffer.dataLen,hfront] at hzero
        exact hzero
      rw [hput,List.length_eq_zero_iff.mp hzero]
      rfl
    · have hdata : f._data = f.unread ++ f._data.drop f._putPosition := by
        rw [hunread,List.take_append_drop]
      rw [hdata,← Buffer.length_unread,maskLoop_append f._mask 0 f.unread _ (Nat.pos_of_ne_zero hzero)]
      apply List.take_left'
      rw [length_maskFrom,Buffer.length_unread,Buffer.dataLen,hfront,Nat.sub_zero]
  · simp [applyMask,hmasked]

end WsFrame

/-- The forms a length can be written in. -/
inductive LengthForm
  | short | medium | long
  deriving DecidableEq

namespace LengthForm

/-- The longest body that can be announced so. -/
def most : LengthForm → ℕ
  | .short => 125
  | .medium => 65535
  | .long => 2 ^ 64 - 1

def prelen : LengthForm → ℕ → ℕ
  | .short, length => length
  | .medium, _ => 126
  | .long, _ => 127

def extended : LengthForm → ℕ → Bytes
  | .short, _ => []
  | .medium, length => beBytes 2 length
  | .long, length => beBytes 8 length

/-- The form `send` takes. -/
def least (length : ℕ) : LengthForm :=
  if length > 65535 then .long else if length > 125 then .medium else .short

theorem le_most_least {length : ℕ} (h : length < 2 ^ 64) : length ≤ (least length).most := by
  simp only [least]
  split_ifs <;> simp only [most] <;> omega

end LengthForm

/-- The frames a pipe answers. -/
inductive FrameKind
  | text | binary | ping
  deriving DecidableEq

def FrameKind.opcode : FrameKind → Opcode
  | .text => .Text
  | .binary => .Binary
  | .ping => .Ping

/-- A frame as its sender has it. -/
structure SentFrame where
  finaly : Bool
  kind : FrameKind
  key : Option (Fin 4 → UInt8)
  payload : Bytes
  form : LengthForm
  fits : payload.length ≤ form.most

namespace SentFrame

def prelen (f : SentFrame) : ℕ := f.form.prelen f.payload.length

def firstByte (f : SentFrame) : UInt8 := (if f.finaly then 128 else 0) ||| f.kind.opcode.code

def secondByte (f : SentFrame) : UInt8 :=
  (if f.key.isSome then 128 else 0) ||| UInt8.ofNat f.prelen

def keyBytes (f : SentFrame) : Bytes :=
  match f.key with
  | some key => List.ofFn key
  | none => []

def header (f : SentFrame) : Bytes :=
  [f.firstByte,f.secondByte] ++ f.form.extended f.payload.length ++ f.keyBytes

def body (f : SentFrame) : Bytes :=
  match f.key with
  | some key => maskFrom key 0 f.payload
  | none => f.payload

/-- The bytes of a frame. -/
def encode (f : SentFrame) : Bytes := f.header ++ f.body

@[simp] theorem length_body (f : SentFrame) : f.body.length = f.payload.length := by
  rw [body]
  split <;> simp

theorem prelen_le (f : SentFrame) : f.prelen ≤ 127 := by
  have := f.fits
  rw [prelen]
  cases hform : f.form <;> simp only [LengthForm.prelen,LengthForm.most,hform] at * <;> omega

/-- A byte with its first bit set or not and a number below 128. -/
theorem bits_of_or (first : Bool) {n : ℕ} (h : n < 128) :
    ((if first then (128 : UInt8) else 0) ||| UInt8.ofNat n) &&& 0x7F = UInt8.ofNat n ∧
      (decide (((if first then (128 : UInt8) else 0) ||| UInt8.ofNat n) >>> 7 &&& 0x01 ≠ 0) = first) := by
  have hall : ∀ first : Bool, ∀ n : Fin 128,
      ((if first then (128 : UInt8) else 0) ||| UInt8.ofNat n) &&& 0x7F = UInt8.ofNat n ∧
        (decide (((if first then (128 : UInt8) else 0) ||| UInt8.ofNat n) >>> 7 &&& 0x01 ≠ 0) = first) := by
    decide
  exact hall first ⟨n,h⟩

theorem prelen_secondByte (f : SentFrame) : f.secondByte &&& 0x7F = UInt8.ofNat f.prelen :=
  (bits_of_or f.key.isSome (Nat.lt_succ_of_le f.prelen_le)).1

theorem masked_secondByte (f : SentFrame) :
    decide (f.secondByte >>> 7 &&& 0x01 ≠ 0) = f.key.isSome :=
  (bits_of_or f.key.isSome (Nat.lt_succ_of_le f.prelen_le)).2

theorem opcode_firstByte (f : SentFrame) : Opcode.ofBits (f.firstByte &&& 0x0F) = f.kind.opcode := by
  rw [firstByte]
  cases f.finaly <;> cases f.kind <;> decide

theorem finaly_firstByte (f : SentFrame) : decide (f.firstByte >>> 7 &&& 0x01 ≠ 0) = f.finaly := by
  rw [firstByte]
  cases f.finaly <;> cases f.kind <;> decide

@[simp] theorem length_keyBytes (f : SentFrame) :
    f.keyBytes.length = if f.key.isSome then 4 else 0 := by
  rw [keyBytes]
  cases f.key <;> simp

/-- The size read from the second byte is that of the whole header. -/
theorem calcHeaderSize_header (f : SentFrame) (s : Bytes) :
    WsFrame.calcHeaderSize (f.firstByte :: f.secondByte :: s) = f.header.length := by
  have hmasked : (if f.secondByte >>> 7 &&& 0x01 = 0 then 0 else 4) = if f.key.isSome then 4 else 0 := by
    rw [← masked_secondByte]
    split_ifs <;> simp_all
  have hfits := f.fits
  simp only [WsFrame.calcHeaderSize,List.getD_cons_succ,List.getD_cons_zero,hmasked,prelen_secondByte,
    prelen,header,List.length_append,List.length_cons,List.length_nil,length_keyBytes]
  congr 1
  congr 1
  cases hform : f.form with
  | short =>
    have hle : UInt8.ofNat f.payload.length ≤ 125 := by
      simp only [hform,LengthForm.most] at hfits
      rw [UInt8.le_iff_toNat_le]
      simpa using (Nat.mod_le f.payload.length 256).trans hfits
    simp [LengthForm.prelen,LengthForm.extended,hle]
  | medium => simp [LengthForm.prelen,LengthForm.extended]
  | long => simp [LengthForm.prelen,LengthForm.extended]

theorem readLength_header (f : SentFrame) (s : Bytes) :
    WsFrame.readLength (UInt8.ofNat f.prelen) (f.form.extended f.payload.length ++ s) =
      some (f.payload.length,s) := by
  have hfits := f.fits
  rw [prelen]
  cases hform : f.form with
  | short =>
    simp only [hform,LengthForm.most] at hfits
    have hlt : UInt8.ofNat f.payload.length < 126 := by
      rw [UInt8.lt_iff_toNat_lt]
      simp
      omega
    simp [LengthForm.prelen,LengthForm.extended,WsFrame.readLength,hlt]
    omega
  | medium =>
    have hlt : f.payload.length < 256 ^ 2 := by
      simp only [hform,LengthForm.most] at hfits
      omega
    simp [LengthForm.prelen,LengthForm.extended,WsFrame.readLength,beValue_beBytes hlt]
    omega
  | long =>
    have hlt : f.payload.length < 256 ^ 8 := by
      simp only [hform,LengthForm.most] at hfits
      omega
    simp [LengthForm.prelen,LengthForm.extended,WsFrame.readLength,beValue_beBytes hlt]

/-- The mask of a frame without one is 0 in every place. -/
def mask (f : SentFrame) : Fin 4 → UInt8 := f.key.getD fun _ => 0

theorem readMask_header (f : SentFrame) (s : Bytes) :
    WsFrame.readMask f.key.isSome (f.keyBytes ++ s) = some f.mask := by
  rw [keyBytes,mask]
  cases f.key with
  | none => rfl
  | some key =>
    have hkey : (fun i : Fin 4 => (List.ofFn key ++ s).getD i 0) = key := by
      funext i
      fin_cases i <;> rfl
    have hshort : ¬ (List.ofFn key ++ s).length < 4 := by simp
    simp only [WsFrame.readMask,Option.isSome_some,if_true,hshort,if_false,hkey,Option.getD_some]

/-- The frame as it stands when its header has been read. -/
def begun (f : SentFrame) : WsFrame :=
  { Buffer.empty with
    _finaly := f.finaly
    _opcode := f.kind.opcode
    _masked := f.key.isSome
    _length := f.payload.length
    _mask := f.mask }

theorem ofBytes_header (f : SentFrame) (s : Bytes) : WsFrame.ofBytes (f.header ++ s) = some f.begun := by
  simp only [header,List.append_assoc,List.cons_append,List.nil_append,WsFrame.ofBytes,
    prelen_secondByte,readLength_header,masked_secondByte,readMask_header,finaly_firstByte,
    opcode_firstByte,Option.bind_some,Option.map_some]
  rfl

/-- What the other side's `send` makes of some data. -/
def sent (kind : FrameKind) (data : Bytes) (h : data.length < 2 ^ 64) : SentFrame where
  finaly := true
  kind := kind
  key := none
  payload := data
  form := LengthForm.least data.length
  fits := LengthForm.le_most_least h

theorem send_eq_encode (kind : FrameKind) (data : Bytes) (h : data.length < 2 ^ 64) :
    WsFrame.send kind.opcode data = (sent kind data h).encode := by
  have hfirst : (1 : UInt8) <<< 7 = 128 := by decide
  simp only [WsFrame.send,encode,header,body,keyBytes,firstByte,secondByte,prelen,sent,hfirst,
    LengthForm.least,if_true,Option.isSome_none,Bool.false_eq_true,if_false,UInt8.zero_or,
    List.append_nil]
  split_ifs <;> rfl

end SentFrame
end Tkeycoin
