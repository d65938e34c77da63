import Tkeycoin.MsgPipe

/-! The stream that hashes what is written to it, and the headers it makes. -/
namespace Tkeycoin

/-- The hasher after `Finalize`, which writes the padding to it. -/
def CSHA256.finalized (c : CSHA256) : CSHA256 :=
  (c.Write c.pad).Write (beBytes 8 (c.bytes <<< 3).toNat)

/-- `HashStreamBuffer<CSHA256>`. The put area holds `_put`, and never more than its size. -/
structure HashStreamBuffer where
  _put : Bytes
  _digest : uint256
  _valid : Bool
  _hasher : CSHA256
  _writeCount : UInt64
  inArea : _put.length ≤ 64

namespace HashStreamBuffer

def new : HashStreamBuffer where
  _put := []
  _digest := .replicate 32 0
  _valid := false
  _hasher := .new
  _writeCount := 0
  inArea := by simp

def size (b : HashStreamBuffer) : UInt64 := b._writeCount

def sync (b : HashStreamBuffer) : HashStreamBuffer :=
  if b._put = [] then b
  else { b with _hasher := b._hasher.Write b._put, _put := [], inArea := by simp }

/-- `digest`, with the buffer it leaves. Where it is valid it is not computed again. -/
def digest (b : HashStreamBuffer) : uint256 × HashStreamBuffer :=
  if b._valid then (b._digest,b)
  else
    let b := b.sync
    let hasher := b._hasher.finalized.Reset.Write b._hasher.Finalize.toList
    let b := { b with _digest := hasher.Finalize, _hasher := hasher.finalized, _valid := true }
    (b._digest,b)

/-- What `xsputn` does first: the first write after a digest starts over. -/
def restart (b : HashStreamBuffer) : HashStreamBuffer :=
  if b._valid then { b with _hasher := b._hasher.Reset, _writeCount := 0, _valid := false } else b

/-- What `xsputn` does then: data that reaches the end of the put area goes to the hasher. -/
def store (b : HashStreamBuffer) (data : Bytes) : HashStreamBuffer :=
  let count := b._writeCount + UInt64.ofNat data.length
  let space := 64 - b._put.length
  if hroom : data.length < space then
    { b with
      _put := b._put ++ data
      _writeCount := count
      inArea := by simp only [List.length_append]; omega }
  else
    let hasher := b._hasher.Write (b._put ++ data.take space)
    if hremain : data.length - space < 64 then
      { b with
        _hasher := hasher
        _put := data.drop space
        _writeCount := count
        inArea := by simp only [List.length_drop]; omega }
    else
      { b with
        _hasher := hasher.Write (data.drop space)
        _put := []
        _writeCount := count
        inArea := by simp }

def xsputn (b : HashStreamBuffer) (data : Bytes) : HashStreamBuffer := b.restart.store data

/-- What is done to a stream. Reading `size` does nothing to it. -/
inductive Op
  | write (data : Bytes)
  | digest

def step (b : HashStreamBuffer) : Op → HashStreamBuffer
  | .write data => b.xsputn data
  | .digest => b.digest.2

def run (ops : List Op) : HashStreamBuffer := ops.foldl step new

/-- A stretch of writes: the bytes written so far, and whether a digest has ended it. -/
structure Stretch where
  bytes : Bytes
  ended : Bool

namespace Stretch

def write (s : Stretch) (data : Bytes) : Stretch :=
  if s.ended then ⟨data,false⟩ else ⟨s.bytes ++ data,false⟩

def step (s : Stretch) : Op → Stretch
  | .write data => s.write data
  | .digest => ⟨s.bytes,true⟩

/-- Writes go on with a stretch that has not ended. -/
theorem foldl_writes (bytes : Bytes) (pieces : List Bytes) :
    (pieces.map Op.write).foldl step ⟨bytes,false⟩ = ⟨bytes ++ pieces.flatten,false⟩ := by
  induction pieces generalizing bytes with
  | nil => simp
  | cons data pieces ih => simp [step,write,ih,List.append_assoc]

end Stretch

/-- The buffer and the hasher together hold the bytes of the stretch, or the digest is theirs. -/
structure Holds (b : HashStreamBuffer) (s : Stretch) : Prop where
  count : b._writeCount = UInt64.ofNat s.bytes.length
  valid : b._valid = s.ended
  taken : s.ended = false → ∃ absorbed, b._hasher.Absorbed absorbed ∧ absorbed ++ b._put = s.bytes
  final : s.ended = true → b._put = [] ∧ b._digest = hash256 s.bytes

section Holds

variable {b : HashStreamBuffer} {s : Stretch}

theorem new_holds : Holds new ⟨[],false⟩ where
  count := rfl
  valid := rfl
  taken := fun _ => ⟨[],CSHA256.new_absorbed,rfl⟩
  final := by simp

theorem Holds.unended {bytes : Bytes} (h : Holds b ⟨bytes,false⟩) :
    ∃ absorbed, b._hasher.Absorbed absorbed ∧ absorbed ++ b._put = bytes :=
  h.taken rfl

/-- A write finds an unended stretch: the one before, or a new one. -/
theorem Holds.restart (h : Holds b s) : Holds b.restart ⟨if s.ended then [] else s.bytes,false⟩ := by
  unfold HashStreamBuffer.restart
  cases hs : s.ended with
  | false =>
    have hv : b._valid = false := h.valid.trans hs
    simp only [hv,Bool.false_eq_true,if_false]
    exact ⟨h.count,hv,fun _ => h.taken hs,by simp⟩
  | true =>
    have hv : b._valid = true := h.valid.trans hs
    have hput := (h.final hs).1
    simp only [hv,if_true]
    exact ⟨rfl,rfl,fun _ => ⟨[],b._hasher.Reset_absorbed,by simpa using hput⟩,by simp⟩

theorem Holds.store {bytes : Bytes} (h : Holds b ⟨bytes,false⟩) (data : Bytes) :
    Holds (b.store data) ⟨bytes ++ data,false⟩ := by
  obtain ⟨absorbed,habsorbed,hbytes⟩ := h.unended
  have hcount : b._writeCount + UInt64.ofNat data.length = UInt64.ofNat (bytes ++ data).length := by
    rw [h.count,List.length_append,UInt64.ofNat_add]
  have hfilled := CSHA256.Write_absorbed habsorbed (b._put ++ data.take (64 - b._put.length))
  have hall : absorbed ++ (b._put ++ data.take (64 - b._put.length)) ++ data.drop (64 - b._put.length) =
      bytes ++ data := by
    rw [← hbytes]
    simp [List.append_assoc]
  unfold HashStreamBuffer.store
  simp only
  split_ifs with hroom hremain
  · refine ⟨hcount,h.valid,fun _ => ⟨absorbed,habsorbed,?_⟩,by simp⟩
    rw [← List.append_assoc,hbytes]
  · exact ⟨hcount,h.valid,fun _ => ⟨_,hfilled,hall⟩,by simp⟩
  · have hrest := CSHA256.Write_absorbed hfilled (data.drop (64 - b._put.length))
    rw [hall] at hrest
    exact ⟨hcount,h.valid,fun _ => ⟨_,hrest,List.append_nil _⟩,by simp⟩

theorem Holds.xsputn (h : Holds b s) (data : Bytes) : Holds (b.xsputn data) (s.write data) := by
  have hstored : Holds (b.xsputn data) _ := h.restart.store data
  unfold Stretch.write
  cases hs : s.ended with
  | false => simpa [hs] using hstored
  | true => simpa [hs] using hstored

theorem Holds.sync {bytes : Bytes} (h : Holds b ⟨bytes,false⟩) :
    b.sync._hasher.Absorbed bytes ∧ b.sync._put = [] ∧ b.sync._writeCount = b._writeCount := by
  obtain ⟨absorbed,habsorbed,hbytes⟩ := h.unended
  unfold HashStreamBuffer.sync
  split_ifs with hput
  · rw [hput,List.append_nil] at hbytes
    rw [← hbytes]
    exact ⟨habsorbed,hput,rfl⟩
  · have hwritten := CSHA256.Write_absorbed habsorbed b._put
    rw [hbytes] at hwritten
    exact ⟨hwritten,rfl,rfl⟩

theorem Holds.digest (h : Holds b s) :
    b.digest.1 = hash256 s.bytes ∧ Holds b.digest.2 ⟨s.bytes,true⟩ := by
  obtain ⟨bytes,ended⟩ := s
  unfold HashStreamBuffer.digest
  cases ended with
  | true =>
    have hv : b._valid = true := h.valid
    simp only [hv,if_true]
    exact ⟨(h.final rfl).2,h⟩
  | false =>
    have hv : b._valid = false := h.valid
    obtain ⟨habsorbed,hput,hcount⟩ := h.sync
    have hdigest : (b.sync._hasher.finalized.Reset.Write b.sync._hasher.Finalize.toList).Finalize =
        hash256 bytes := by
      rw [CSHA256.reset_digest,habsorbed.digest]
      rfl
    simp only [hv,Bool.false_eq_true,if_false]
    exact ⟨hdigest,hcount.trans h.count,rfl,by simp,fun _ => ⟨hput,hdigest⟩⟩

theorem Holds.step (h : Holds b s) (op : Op) : Holds (b.step op) (s.step op) := by
  cases op with
  | write data => exact h.xsputn data
  | digest => exact h.digest.2

end Holds

theorem run_holds (ops : List Op) : Holds (run ops) (ops.foldl Stretch.step ⟨[],false⟩) :=
  List.foldl_rel new_holds fun op _ _ _ h => h.step op

/-- What `digest` and `size` return in a stretch, ended or not. -/
theorem Holds.seen {b : HashStreamBuffer} {bytes : Bytes} {ended : Bool} (h : Holds b ⟨bytes,ended⟩) :
    b.digest.1 = hash256 bytes ∧ b.size = UInt64.ofNat bytes.length :=
  ⟨h.digest.1,h.count⟩

/-- Writes only: the digest is that of all that was written. -/
theorem run_writes (pieces : List Bytes) :
    (run (pieces.map .write)).digest.1 = hash256 pieces.flatten ∧
      (run (pieces.map .write)).size = UInt64.ofNat pieces.flatten.length := by
  have h := run_holds (pieces.map .write)
  rw [Stretch.foldl_writes,List.nil_append] at h
  exact h.seen

/-- Writes after a digest start over, whatever was before it. -/
theorem run_writes_after (ops : List Op) (data : Bytes) (pieces : List Bytes) :
    (run (ops ++ .digest :: (data :: pieces).map .write)).digest.1 = hash256 (data ++ pieces.flatten) ∧
      (run (ops ++ .digest :: (data :: pieces).map .write)).size =
        UInt64.ofNat (data ++ pieces.flatten).length := by
  have h := run_holds (ops ++ .digest :: (data :: pieces).map .write)
  simp only [List.foldl_append,List.foldl_cons,List.map_cons,Stretch.step,Stretch.write,if_true] at h
  rw [Stretch.foldl_writes] at h
  exact h.seen

/-- A digest that follows a digest is the same, and so is the size. -/
theorem run_digest_again (ops : List Op) :
    (run (ops ++ [.digest])).digest.1 = (run ops).digest.1 ∧ (run (ops ++ [.digest])).size = (run ops).size := by
  have hrun : run (ops ++ [.digest]) = (run ops).digest.2 := by simp [run,List.foldl_append,step]
  obtain ⟨hdigest,hended⟩ := (run_holds ops).digest
  rw [hrun,hdigest]
  exact ⟨hended.seen.1,hended.count.trans (run_holds ops).count.symm⟩

end HashStreamBuffer

/-- `Magic::main`. -/
def Magic.main : UInt32 := 0x34FEAFAA

/-- The constructor of a header. The name of a message fits into the array and is padded. -/
def MessageHeader.make (magic : UInt32) (command : Bytes) (length : UInt64) (checksum : UInt32) :
    MessageHeader where
  _magic := magic
  _command := command ++ List.replicate (12 - command.length) 0
  _length := length.toUInt32
  _checksum := checksum

/-- `Message::buildHeader` of a message with this name, whose `Serialize` makes these writes. -/
def Message.buildHeader (command : Bytes) (serialize : List Bytes) : MessageHeader :=
  let calculator := HashStreamBuffer.run (serialize.map .write)
  let length := calculator.size
  let hash := calculator.digest.1
  let checksum := UInt32.ofNat (leValue (hash.toList.take 4))
  .make Magic.main command length checksum

/-- The header of a message is that of its bytes, however they are written. -/
theorem Message.buildHeader_eq (command : Bytes) (serialize : List Bytes) :
    Message.buildHeader command serialize =
      .make Magic.main command (UInt64.ofNat serialize.flatten.length) (payloadChecksum serialize.flatten) := by
  obtain ⟨hdigest,hsize⟩ := HashStreamBuffer.run_writes serialize
  simp only [buildHeader,hdigest,hsize,payloadChecksum]

namespace HashStreamBuffer

/-- A digest is the double hash of what was written since the start, or since the first write
after the digest before, and the size is the number of these bytes. Without a write in between
both stay as they are. The header of a message is that of the bytes it serialises to. -/
theorem digest_stream :
    (∀ pieces : List Bytes,
      (run (pieces.map .write)).digest.1 = hash256 pieces.flatten ∧
        (run (pieces.map .write)).size = UInt64.ofNat pieces.flatten.length) ∧
    (∀ (ops : List Op) (data : Bytes) (pieces : List Bytes),
      (run (ops ++ .digest :: (data :: pieces).map .write)).digest.1 = hash256 (data ++ pieces.flatten) ∧
        (run (ops ++ .digest :: (data :: pieces).map .write)).size =
          UInt64.ofNat (data ++ pieces.flatten).length) ∧
    (∀ ops : List Op,
      (run (ops ++ [.digest])).digest.1 = (run ops).digest.1 ∧
        (run (ops ++ [.digest])).size = (run ops).size) ∧
    ∀ (command : Bytes) (serialize : List Bytes),
      (Message.buildHeader command serialize)._length.toNat = serialize.flatten.length % 2^32 ∧
        (Message.buildHeader command serialize)._checksum = payloadChecksum serialize.flatten := by
  refine ⟨run_writes,run_writes_after,run_digest_again,fun command serialize => ?_⟩
  rw [Message.buildHeader_eq]
  refine ⟨?_,rfl⟩
  simp only [MessageHeader.make,UInt64.toNat_toUInt32,UInt64.toNat_ofNat']
  omega

/-- Nothing was written since the first digest, but the second is not the hash of nothing. -/
theorem digest_repeated :
    (run [.write [0],.digest]).digest.1 ≠ hash256 [] ∧ (run [.write [0],.digest]).size = 1 := by
  decide +kernel

end HashStreamBuffer

end Tkeycoin
