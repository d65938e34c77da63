import Tkeycoin.BlockHeader
import Tkeycoin.InputStream

/-! What `::Unserialize` makes of a stream, type by type. -/
namespace Tkeycoin
namespace Unserialize

/-- `is.read(..,count)`. -/
def bytes (count : ℕ) : Reader Bytes := .read count .done

/-- A little-endian number of so many bytes. -/
def number (width : ℕ) : Reader ℕ := do
  let b ← bytes width
  pure (leValue b)

def uint8 : Reader UInt8 := do pure (UInt8.ofNat (← number 1))

def uint16 : Reader UInt16 := do pure (UInt16.ofNat (← number 2))

def uint32 : Reader UInt32 := do pure (UInt32.ofNat (← number 4))

def uint64 : Reader UInt64 := do pure (UInt64.ofNat (← number 8))

def int32 : Reader Int32 := do pure (← uint32).toInt32

def int64 : Reader Int64 := do pure (← uint64).toInt64

/-- Reads are as long as they were asked to be: the other branch is never taken. -/
def blob (BITS : ℕ) : Reader (Blob BITS) := do
  let b ← bytes ((BITS + 7) / 8)
  if h : b.length = (BITS + 7) / 8 then pure ⟨b,h⟩ else .throw

/-- `VariableLengthInteger::Unserialize`, which refuses longer forms than needed. -/
def uintV : Reader UInt64 := do
  let size ← uint8
  if size < 253 then pure size.toUInt64
  else if size = 253 then
    let value ← uint16
    if value < 253 then .throw else pure value.toUInt64
  else if size = 254 then
    let value ← uint32
    if value ≤ 0xffff then .throw else pure value.toUInt64
  else
    let value ← uint64
    if value ≤ 0xffffffff then .throw else pure value

section Vectors

variable (fits : ℕ → Bool)

/-- `resize` and `reserve` throw where the allocator does not serve so many elements. -/
def allocate (size : UInt64) : Reader ℕ := if fits size.toNat then pure size.toNat else .throw

/-- A vector behind its size. -/
def sizeAnd {α : Type} (element : Reader α) : Reader (List α) := do
  let size ← uintV
  let count ← allocate fits size
  element.times count

/-- A `Script` or another vector of bytes behind its size, in one read. -/
def sizeAndBytes : Reader ByteVector := do
  let size ← uintV
  let count ← allocate fits size
  let b ← bytes count
  if h : b.length < 2^64 then pure ⟨b,h⟩ else .throw

def txOutPoint : Reader TxOutPoint := do
  let _hash ← blob 256
  let _index ← uint32
  pure ⟨_hash,_index⟩

def txOut : Reader TxOut := do
  let _value ← int64
  let _keyScript ← sizeAndBytes fits
  pure ⟨_value,_keyScript⟩

/-- The witness is read behind the outputs. -/
def txIn : Reader TxIn := do
  let _prevOut ← txOutPoint
  let _sigScript ← sizeAndBytes fits
  let _sequence ← uint32
  pure ⟨_prevOut,_sigScript,_sequence,⟨[]⟩⟩

/-- The elements are vectors that have no bytes when they are read. -/
def txWitness : Reader TxWitness := do
  let _stack ← sizeAnd fits (do let _ ← bytes 0; pure ByteVector.empty)
  pure ⟨_stack⟩

def transaction : Reader Transaction := do
  let _version ← int32
  let _flag ← Reader.peek fun byte =>
    if byte = some 0 then do pure (some (← uint16)) else pure none
  let _txIn ← sizeAnd fits (txIn fits)
  let _txOut ← sizeAnd fits (txOut fits)
  let _txIn ← match _flag with
    | some _ =>
      Reader.forEach (fun txIn => do pure { txIn with _scriptWitness := (← txWitness fits) }) _txIn
    | none => pure _txIn
  let _srcChain ← uint32
  let _dstChain ← uint32
  let _lockTime ← uint32
  pure ⟨_version,_flag,_txIn,_txOut,_srcChain,_dstChain,_lockTime⟩

end Vectors

def blockHeader : Reader BlockHeader := do
  let _version ← uint32
  let _prev ← blob 256
  let _merkle ← blob 256
  let _timestamp ← uint32
  let _bits ← uint32
  let _nonce ← uint32
  let _chain ← uint32
  pure ⟨_version,_prev,_merkle,_timestamp,_bits,_nonce,_chain⟩

def block (fits : ℕ → Bool) : Reader Block := do
  let header ← blockHeader
  let txList ← sizeAnd fits (transaction fits)
  pure ⟨header,txList⟩

end Unserialize
end Tkeycoin
