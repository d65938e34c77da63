import Tkeycoin.HashTypeRules
import Tkeycoin.Interpreter
import Tkeycoin.Sha256

/-! The digest a signature is checked against. -/
namespace Tkeycoin

/-- `std::ostream` over the buffer it was given, if it was given one. -/
structure OStream where
  rdbuf : Option Bytes

/-- `write` is not virtual. Without a buffer it stores nothing. -/
def OStream.write (os : OStream) (data : Bytes) : OStream := ⟨os.rdbuf.map (· ++ data)⟩

structure CHashWriter extends OStream where
  ctx : CHash256

namespace CHashWriter

/-- The constructor leaves the base class without a buffer. -/
def new : CHashWriter := { rdbuf := none, ctx := CHash256.new }

/-- The member `write`, which hides the one of the base class. -/
def write (w : CHashWriter) (data : Bytes) : CHashWriter := { w with ctx := w.ctx.Write data }

/-- `operator<<`: `::Serialize` is handed the writer as a `std::ostream`. -/
def insert (w : CHashWriter) (emitted : Bytes) : CHashWriter :=
  { w with toOStream := w.toOStream.write emitted }

def GetHash (w : CHashWriter) : uint256 := w.ctx.Finalize

@[simp] theorem insert_ctx (w : CHashWriter) (emitted : Bytes) : (w.insert emitted).ctx = w.ctx := rfl

theorem new_GetHash : new.GetHash = hash256 [] := CHash256.Finalize_eq CSHA256.new_absorbed

/-- The member function would have hashed what it is given. -/
theorem write_GetHash {w : CHashWriter} {data : Bytes} (h : w.ctx.sha.Absorbed data) (more : Bytes) :
    (w.write more).GetHash = hash256 (data ++ more) :=
  CHash256.Finalize_eq (CSHA256.Write_absorbed h more)

end CHashWriter

/-- `(Flags<SignatureHashType>::type)nHashType`, which has eight bits. -/
def serializeHashType (nHashType : Flags SignatureHashType) : Bytes :=
  Serialization.uint8 (UInt8.ofNat nHashType._flags.toNat)

/-- The digest of a SINGLE without its output. -/
def SignatureHash.one : uint256 := ⟨1 :: List.replicate 31 0,rfl⟩

/-- `SignatureHash`. The amount and the signature version are not looked at. -/
def SignatureHash (scriptCode : ByteVector) (tx : Transaction) (nIn : UInt32)
    (nHashType : Flags SignatureHashType) (_amount : Int64) (_sigversion : SigVersion) :
    Except CheckerStop uint256 :=
  if ¬ nIn.toNat < tx._txIn.length then throw .assertion
  else
    let maskedHashType := nHashType.mask 0x1f
    if maskedHashType.isSet .sighashSingle ∧ nIn.toNat ≥ tx._txOut.length then pure SignatureHash.one
    else
      match (CTransactionSignatureSerializer.new tx scriptCode nIn nHashType).serialize with
      | none => throw .exception
      | some emitted =>
        pure ((CHashWriter.new.insert emitted).insert (serializeHashType nHashType)).GetHash

/-- What `CPubKey` does with the bytes of a key. -/
structure CPubKey where
  IsValid : ScriptData → Bool
  Verify : ScriptData → uint256 → Bytes → Bool

/-- `GenericTransactionSignatureChecker` over the transaction that spends. -/
structure GenericTransactionSignatureChecker where
  txTo : Transaction
  nIn : UInt32
  amount : Int64

/-- The last byte of a signature is its hash type. -/
def GenericTransactionSignatureChecker.CheckSig (c : GenericTransactionSignatureChecker) (key : CPubKey)
    (sigData pubKeyData : ScriptData) (script : ByteVector) (sigversion : SigVersion) :
    Except CheckerStop Bool := do
  if ¬ key.IsValid pubKeyData then return false
  match sigData.getLast? with
  | none => return false
  | some back =>
    let nHashType : Flags SignatureHashType := ⟨BitVec.ofNat _ back.toNat⟩
    let sighash ← SignatureHash script c.txTo c.nIn nHashType c.amount sigversion
    return key.Verify pubKeyData sighash sigData.dropLast

namespace SignatureHash

variable {scriptCode : ByteVector} {tx : Transaction} {nIn : UInt32}
  {nHashType : Flags SignatureHashType} {amount : Int64} {sigversion : SigVersion}

/-- What is inserted never reaches the hash context. -/
theorem eq_hash_nil (h : nIn.toNat < tx._txIn.length) :
    SignatureHash scriptCode tx nIn nHashType amount sigversion = .ok (hash256 []) := by
  have hserialize := CTransactionSignatureSerializer.serialize_eq tx scriptCode nIn nHashType h
  unfold SignatureHash
  simp only [h,not_true_eq_false,if_false,Flags.mask_isSet,Bool.false_eq_true,false_and,hserialize]
  exact congrArg Except.ok CHashWriter.new_GetHash

/-- Two checkers that pass the assertion accept the same signatures. -/
theorem CheckSig_eq {c c' : GenericTransactionSignatureChecker} (h : c.nIn.toNat < c.txTo._txIn.length)
    (h' : c'.nIn.toNat < c'.txTo._txIn.length) (key : CPubKey) (sigData pubKeyData : ScriptData)
    (script script' : ByteVector) (sigversion sigversion' : SigVersion) :
    c.CheckSig key sigData pubKeyData script sigversion =
      c'.CheckSig key sigData pubKeyData script' sigversion' := by
  unfold GenericTransactionSignatureChecker.CheckSig
  cases sigData.getLast? with
  | none => rfl
  | some back =>
    simp only [eq_hash_nil h,eq_hash_nil h']

/-- The digest is the double hash of the empty string for every call that passes the assertion.
So it is that of the bytes written and the hash type only where these collide with the empty
string, no two calls differ in it, and a signature is bound to no transaction. -/
theorem digest_of_bytes_iff (scriptCode : ByteVector) (tx : Transaction) (nIn : UInt32)
    (nHashType : Flags SignatureHashType) (amount : Int64) (sigversion : SigVersion)
    (h : nIn.toNat < tx._txIn.length) :
    (∃ emitted, (CTransactionSignatureSerializer.new tx scriptCode nIn nHashType).serialize = some emitted ∧
      (SignatureHash scriptCode tx nIn nHashType amount sigversion =
          .ok (hash256 (emitted ++ serializeHashType nHashType)) ↔
        hash256 (emitted ++ serializeHashType nHashType) = hash256 [])) ∧
    ∀ (scriptCode' : ByteVector) (tx' : Transaction) (nIn' : UInt32)
      (nHashType' : Flags SignatureHashType) (amount' : Int64) (sigversion' : SigVersion),
      nIn'.toNat < tx'._txIn.length →
        SignatureHash scriptCode tx nIn nHashType amount sigversion =
          SignatureHash scriptCode' tx' nIn' nHashType' amount' sigversion' ∧
        ∀ (key : CPubKey) (sigData pubKeyData : ScriptData),
          GenericTransactionSignatureChecker.CheckSig ⟨tx,nIn,amount⟩ key sigData pubKeyData scriptCode
              sigversion =
            GenericTransactionSignatureChecker.CheckSig ⟨tx',nIn',amount'⟩ key sigData pubKeyData
              scriptCode' sigversion' := by
  constructor
  · refine ⟨_,CTransactionSignatureSerializer.serialize_eq tx scriptCode nIn nHashType h,?_⟩
    rw [eq_hash_nil h,Except.ok.injEq,eq_comm]
  · intro scriptCode' tx' nIn' nHashType' amount' sigversion' h'
    constructor
    · rw [eq_hash_nil h,eq_hash_nil h']
    · intro key sigData pubKeyData
      exact CheckSig_eq h h' key sigData pubKeyData scriptCode scriptCode' sigversion sigversion'

theorem digest_of_bytes_iff_two :
    SignatureHash ByteVector.empty (.ofOutputs 1) 0 ⟨1⟩ 0 .base =
      SignatureHash ByteVector.empty (.ofOutputs 2) 0 ⟨1⟩ 0 .base :=
  ((digest_of_bytes_iff ByteVector.empty (.ofOutputs 1) 0 ⟨1⟩ 0 .base (by decide)).2
    ByteVector.empty (.ofOutputs 2) 0 ⟨1⟩ 0 .base (by decide)).1

/-- What is written for one input and no outputs under ALL. -/
theorem ofOutputs_serialize :
    (CTransactionSignatureSerializer.new (.ofOutputs 0) ByteVector.empty 0 ⟨1⟩).serialize =
      some ([1,0,0,0,1] ++ List.replicate 46 0) := by
  decide +kernel

theorem ofOutputs_sha256 :
    (sha256 ([1,0,0,0,1] ++ List.replicate 46 0 ++ serializeHashType ⟨1⟩)).toList =
      [81,57,250,70,123,27,239,179,208,230,134,168,121,221,184,156,83,105,28,198,205,119,174,151,247,198,
       227,44,163,84,179,128] := by
  decide +kernel

/-- One input and no outputs, signed under ALL. -/
theorem digest_not_of_bytes :
    ¬ ∀ (scriptCode : ByteVector) (tx : Transaction) (nIn : UInt32) (nHashType : Flags SignatureHashType)
      (amount : Int64), nIn.toNat < tx._txIn.length →
        (baseType nHashType = Flags.cast .sighashSingle → nIn.toNat < tx._txOut.length) →
          ∃ emitted, (CTransactionSignatureSerializer.new tx scriptCode nIn nHashType).serialize =
              some emitted ∧
            SignatureHash scriptCode tx nIn nHashType amount .base =
              .ok (hash256 (emitted ++ serializeHashType nHashType)) := by
  intro h
  obtain ⟨emitted,hserialize,hdigest⟩ :=
    h ByteVector.empty (.ofOutputs 0) 0 ⟨1⟩ 0 (by decide) (by decide)
  rw [ofOutputs_serialize,Option.some.injEq] at hserialize
  rw [eq_hash_nil (by decide),Except.ok.injEq,← hserialize,hash256,hash256,ofOutputs_sha256,
    sha256_nil] at hdigest
  revert hdigest
  decide +kernel

end SignatureHash
end Tkeycoin
