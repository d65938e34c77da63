import Tkeycoin.Serialization

/-! Transactions and what goes on the wire for them. -/
namespace Tkeycoin

structure TxOutPoint where
  _hash : uint256
  _index : UInt32
  deriving DecidableEq

/-- The elements of a witness, without their sizes when they are written. -/
structure TxWitness where
  _stack : List ByteVector
  deriving DecidableEq

structure TxIn where
  _prevOut : TxOutPoint
  _sigScript : ByteVector
  _sequence : UInt32
  _scriptWitness : TxWitness
  deriving DecidableEq

/-- The value is an `Amount`. -/
structure TxOut where
  _value : Int64
  _keyScript : ByteVector
  deriving DecidableEq

structure Transaction where
  _version : Int32
  _flag : Option UInt16
  _txIn : List TxIn
  _txOut : List TxOut
  _srcChain : UInt32
  _dstChain : UInt32
  _lockTime : UInt32
  deriving DecidableEq

/-- An empty `Script`. -/
def ByteVector.empty : ByteVector := ⟨[],by decide⟩

/-- The default constructor. -/
def TxOut.null : TxOut := ⟨-1,ByteVector.empty⟩

namespace TxOutPoint

def serialize (o : TxOutPoint) : Bytes := Serialization.blob o._hash ++ Serialization.uint32 o._index

theorem serialize_prefixCode : PrefixCode serialize := by
  have h := Serialization.blob_prefixCode.pair fun _ : uint256 => Serialization.uint32_prefixCode
  refine h.comp (f := fun o : TxOutPoint => (o._hash,o._index)) fun a b hab => ?_
  obtain ⟨hhash,hindex⟩ := Prod.mk.inj hab
  cases a
  cases b
  simp_all

end TxOutPoint

namespace TxOut

def serialize (o : TxOut) : Bytes := Serialization.int64 o._value ++ Serialization.sizeAnd o._keyScript

theorem serialize_prefixCode : PrefixCode serialize := by
  have h := Serialization.int64_prefixCode.pair fun _ : Int64 => Serialization.sizeAnd_prefixCode
  refine h.comp (f := fun o : TxOut => (o._value,o._keyScript)) fun a b hab => ?_
  obtain ⟨hvalue,hscript⟩ := Prod.mk.inj hab
  cases a
  cases b
  simp_all

end TxOut

namespace TxIn

def serialize (i : TxIn) : Bytes :=
  i._prevOut.serialize ++ Serialization.sizeAnd i._sigScript ++ Serialization.uint32 i._sequence

end TxIn

namespace TxWitness

def serialize (w : TxWitness) : Bytes :=
  Serialization.uintV (UInt64.ofNat w._stack.length) ++ w._stack.flatMap Subtype.val

end TxWitness

namespace Transaction

/-- `Transaction::Serialize`. -/
def serialize (tx : Transaction) : Bytes :=
  Serialization.int32 tx._version ++
  (match tx._flag with
    | some flag => Serialization.uint16 flag
    | none => []) ++
  (Serialization.uintV (UInt64.ofNat tx._txIn.length) ++ tx._txIn.flatMap TxIn.serialize) ++
  (Serialization.uintV (UInt64.ofNat tx._txOut.length) ++ tx._txOut.flatMap TxOut.serialize) ++
  (match tx._flag with
    | some _ => tx._txIn.flatMap fun txIn => txIn._scriptWitness.serialize
    | none => []) ++
  Serialization.uint32 tx._srcChain ++ Serialization.uint32 tx._dstChain ++
  Serialization.uint32 tx._lockTime

/-- `_txIn.at(index)`, which throws beyond the end. -/
def txIn (tx : Transaction) (index : ℕ) : Option TxIn := tx._txIn[index]?

def txOut (tx : Transaction) (index : ℕ) : Option TxOut := tx._txOut[index]?

end Transaction
end Tkeycoin
