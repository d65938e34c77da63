import Tkeycoin.Flags
import Tkeycoin.Script
import Tkeycoin.Transaction

/-! The bytes a signature commits to. -/
namespace Tkeycoin

/-- The fields of the wrapper around the transaction being signed. -/
structure CTransactionSignatureSerializer where
  txTo : Transaction
  scriptCode : ByteVector
  nIn : UInt32
  fAnyoneCanPay : Bool
  fHashSingle : Bool
  fHashNone : Bool

namespace CTransactionSignatureSerializer

/-- The constructor. -/
def new (txToIn : Transaction) (scriptCodeIn : ByteVector) (nInIn : UInt32)
    (nHashTypeIn : Flags SignatureHashType) : CTransactionSignatureSerializer :=
  ⟨txToIn,scriptCodeIn,nInIn,nHashTypeIn.isSet .sighashAnyoneCanPay,
    (nHashTypeIn.mask 0x1f).isSet .sighashSingle,(nHashTypeIn.mask 0x1f).isSet .sighashNone⟩

/-- The first loop of `SerializeScriptCode`. -/
def countSeparators : ℕ → Bytes → ℕ
  | 0, _ => 0
  | fuel+1, it =>
    match Script.getScriptOp it with
    | (none,_) => 0
    | (some i,it) => (if i.1 = OpCode.opCodeSeparator then 1 else 0) + countSeparators fuel it

/-- The second loop: positions are the bytes behind them. -/
def writeScriptCode : ℕ → Bytes → Bytes → Bytes
  | 0, _, _ => []
  | fuel+1, itBegin, it =>
    match Script.getScriptOp it with
    | (none,it) => if itBegin ≠ [] then itBegin.take (itBegin.length - it.length) else []
    | (some i,it) =>
      if i.1 = OpCode.opCodeSeparator then
        itBegin.take (itBegin.length - it.length - 1) ++ writeScriptCode fuel it it
      else writeScriptCode fuel itBegin it

/-- `SerializeScriptCode`, which leaves out `OP_CODESEPARATOR`. Its counter is an `unsigned int`. -/
def serializeScriptCode (scriptCode : Bytes) : Bytes :=
  let nCodeSeparators := countSeparators (scriptCode.length+1) scriptCode % 2^32
  Serialization.uintV (UInt64.ofNat (scriptCode.length - nCodeSeparators)) ++
    writeScriptCode (scriptCode.length+1) scriptCode scriptCode

section Serialize

variable (s : CTransactionSignatureSerializer)

def serializeInput (nInput : UInt32) : Option Bytes := do
  let nInput := if s.fAnyoneCanPay then s.nIn else nInput
  let txIn ← s.txTo.txIn nInput.toNat
  let script := if nInput ≠ s.nIn then Serialization.sizeAnd ByteVector.empty
    else serializeScriptCode s.scriptCode.1
  let sequence := if nInput ≠ s.nIn ∧ (s.fHashSingle ∨ s.fHashNone) then Serialization.int32 0
    else Serialization.uint32 txIn._sequence
  pure (txIn._prevOut.serialize ++ script ++ sequence)

def serializeOutput (nOutput : UInt32) : Option Bytes :=
  if s.fHashSingle ∧ nOutput ≠ s.nIn then some TxOut.null.serialize
  else do
    let txOut ← s.txTo.txOut nOutput.toNat
    pure txOut.serialize

/-- `for (unsigned int n = from; n < from + count; n++)` over a writer that may throw. -/
def forEach (write : UInt32 → Option Bytes) (start : ℕ) : ℕ → Option Bytes
  | 0 => some []
  | count+1 => do
    let bytes ← write (UInt32.ofNat start)
    let rest ← forEach write (start+1) count
    pure (bytes ++ rest)

/-- `Serialize`. The numbers of inputs and outputs are `unsigned int`, and the
chains are left out: `TKEYCOIN` is not defined. -/
def serialize : Option Bytes := do
  let nInputs : UInt32 := if s.fAnyoneCanPay then 1 else UInt32.ofNat s.txTo._txIn.length
  let inputs ← forEach s.serializeInput 0 nInputs.toNat
  let nOutputs : UInt32 := if s.fHashNone then 0
    else if s.fHashSingle then s.nIn + 1 else UInt32.ofNat s.txTo._txOut.length
  let outputs ← forEach s.serializeOutput 0 nOutputs.toNat
  pure (Serialization.int32 s.txTo._version ++
    Serialization.uintV nInputs.toUInt64 ++ inputs ++
    Serialization.uintV nOutputs.toUInt64 ++ outputs ++
    Serialization.uint32 s.txTo._lockTime)

end Serialize

end CTransactionSignatureSerializer
end Tkeycoin
