import Tkeycoin.Sha256
import Tkeycoin.Transaction

/-! Block headers and blocks as they go on the wire. -/
namespace Tkeycoin

/-- The serialised fields. What the node adds to them is in `StoredBlock`. -/
structure BlockHeader where
  _version : UInt32
  _prev : uint256
  _merkle : uint256
  _timestamp : UInt32
  _bits : UInt32
  _nonce : UInt32
  _chain : UInt32
  deriving DecidableEq

namespace BlockHeader

/-- `BlockHeader::Serialize`. -/
def serialize (h : BlockHeader) : Bytes :=
  Serialization.uint32 h._version ++ (Serialization.blob h._prev ++ (Serialization.blob h._merkle ++
    (Serialization.uint32 h._timestamp ++ (Serialization.uint32 h._bits ++
      (Serialization.uint32 h._nonce ++ Serialization.uint32 h._chain)))))

/-- `BlockHeader::hash`, of the header alone also where it is that of a block. -/
def hash (h : BlockHeader) : uint256 := hash256 h.serialize

theorem serialize_prefixCode : PrefixCode serialize := by
  rintro ⟨version,prev,merkle,timestamp,bits,nonce,chain⟩
    ⟨version',prev',merkle',timestamp',bits',nonce',chain'⟩ x y h
  simp only [serialize,List.append_assoc] at h
  obtain ⟨rfl,h₁⟩ := Serialization.uint32_prefixCode _ _ _ _ h
  obtain ⟨rfl,h₂⟩ := Serialization.blob_prefixCode _ _ _ _ h₁
  obtain ⟨rfl,h₃⟩ := Serialization.blob_prefixCode _ _ _ _ h₂
  obtain ⟨rfl,h₄⟩ := Serialization.uint32_prefixCode _ _ _ _ h₃
  obtain ⟨rfl,h₅⟩ := Serialization.uint32_prefixCode _ _ _ _ h₄
  obtain ⟨rfl,h₆⟩ := Serialization.uint32_prefixCode _ _ _ _ h₅
  obtain ⟨rfl,h₇⟩ := Serialization.uint32_prefixCode _ _ _ _ h₆
  exact ⟨rfl,h₇⟩

end BlockHeader

/-- A block: its header and its transactions. -/
structure Block where
  header : BlockHeader
  txList : List Transaction
  deriving DecidableEq

/-- `Block::Serialize`. -/
def Block.serialize (b : Block) : Bytes :=
  b.header.serialize ++
    (Serialization.uintV (UInt64.ofNat b.txList.length) ++ b.txList.flatMap Transaction.serialize)

/-- The hash of a transaction. -/
def Transaction.hash (tx : Transaction) : uint256 := hash256 tx.serialize

end Tkeycoin
