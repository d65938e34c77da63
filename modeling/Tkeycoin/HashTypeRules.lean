import Tkeycoin.SignedFields

/-! The rules of the hash types, and which hash types keep them. -/
namespace Tkeycoin

namespace Transaction

variable (nIn : UInt32) (tx : Transaction)

/-- The sequences of all inputs but one blanked. -/
def blankSequences : Transaction :=
  { tx with
    _txIn := tx._txIn.mapIdx fun i txIn =>
      if i = nIn.toNat then txIn else { txIn with _sequence := 0 } }

/-- What NONE is to leave of a transaction. -/
def withoutOutputs : Transaction := { blankSequences nIn tx with _txOut := [] }

/-- What SINGLE is to leave of it. -/
def upToOutput : Transaction :=
  { blankSequences nIn tx with
    _txOut := (tx._txOut.take (nIn.toNat+1)).mapIdx fun i txOut =>
      if i = nIn.toNat then txOut else TxOut.null }

/-- What ANYONECANPAY is to leave of it. -/
def onlyInput : Transaction := { tx with _txIn := (tx._txIn[nIn.toNat]?).toList }

/-- The inputs and outputs are as many as an `unsigned int` counts. -/
def Signable : Prop := tx._txIn.length < 2^32 ∧ tx._txOut.length < 2^32

instance : Decidable (Signable tx) := inferInstanceAs (Decidable (_ ∧ _))

/-- One input, spending nothing, and outputs of no value. -/
def ofOutputs (count : ℕ) : Transaction where
  _version := 1
  _flag := none
  _txIn := [⟨⟨List.Vector.replicate 32 0,0⟩,ByteVector.empty,0,⟨[]⟩⟩]
  _txOut := List.replicate count TxOut.null
  _srcChain := 0
  _dstChain := 0
  _lockTime := 0

end Transaction

/-- The low bits of a hash type. -/
def baseType (nHashType : Flags SignatureHashType) : BitVec (Flags.width SignatureHashType) :=
  nHashType._flags &&& 0x1f

namespace CTransactionSignatureSerializer

/-- The hash-type rules on the bytes written for two transactions. -/
structure Obeys (nHashType : Flags SignatureHashType) (scriptCode : ByteVector) (nIn : UInt32)
    (tx tx' : Transaction) : Prop where
  none : baseType nHashType = Flags.cast .sighashNone →
    tx.withoutOutputs nIn = tx'.withoutOutputs nIn →
      (new tx scriptCode nIn nHashType).serialize = (new tx' scriptCode nIn nHashType).serialize
  single : baseType nHashType = Flags.cast .sighashSingle →
    tx.upToOutput nIn = tx'.upToOutput nIn →
      (new tx scriptCode nIn nHashType).serialize = (new tx' scriptCode nIn nHashType).serialize
  anyoneCanPay : nHashType.isSet .sighashAnyoneCanPay = true →
    tx.onlyInput nIn = tx'.onlyInput nIn →
      (new tx scriptCode nIn nHashType).serialize = (new tx' scriptCode nIn nHashType).serialize
  all : baseType nHashType = Flags.cast .sighashAll → nHashType.isSet .sighashAnyoneCanPay = false →
    (new tx scriptCode nIn nHashType).serialize = (new tx' scriptCode nIn nHashType).serialize →
      tx._txOut = tx'._txOut ∧
        tx._txIn.map (fun txIn => (txIn._prevOut,txIn._sequence)) =
          tx'._txIn.map (fun txIn => (txIn._prevOut,txIn._sequence))

section Rules

variable {nHashType : Flags SignatureHashType} {scriptCode : ByteVector} {nIn : UInt32}
  {tx tx' : Transaction}

/-- ANYONECANPAY is read from the hash type itself, before any mask. -/
theorem anyoneCanPay_obeyed (h : nIn.toNat < tx._txIn.length) (h' : nIn.toNat < tx'._txIn.length)
    (ha : nHashType.isSet .sighashAnyoneCanPay = true) (hin : tx.onlyInput nIn = tx'.onlyInput nIn) :
    (new tx scriptCode nIn nHashType).serialize = (new tx' scriptCode nIn nHashType).serialize := by
  simp only [Transaction.onlyInput,Transaction.mk.injEq] at hin
  obtain ⟨hversion,-,hinput,houtputs,-,-,hlockTime⟩ := hin
  apply (serialize_eq_iff h h').mpr
  simp only [ha,SignedPart.of,if_true,hversion,hinput,houtputs,hlockTime]

theorem all_obeyed (hs : tx.Signable) (hs' : tx'.Signable) (h : nIn.toNat < tx._txIn.length)
    (h' : nIn.toNat < tx'._txIn.length) (ha : nHashType.isSet .sighashAnyoneCanPay = false)
    (hbytes : (new tx scriptCode nIn nHashType).serialize = (new tx' scriptCode nIn nHashType).serialize) :
    tx._txOut = tx'._txOut ∧
      tx._txIn.map (fun txIn => (txIn._prevOut,txIn._sequence)) =
        tx'._txIn.map (fun txIn => (txIn._prevOut,txIn._sequence)) := by
  have hpart := (serialize_eq_iff h h').mp hbytes
  simp only [ha,SignedPart.of,SignedPart.mk.injEq,Bool.false_eq_true,if_false,counted_of_lt hs.1,
    counted_of_lt hs.2,counted_of_lt hs'.1,counted_of_lt hs'.2] at hpart
  exact ⟨hpart.2.2.1,hpart.2.1⟩

/-- The rules that bind a hash type whose base is neither NONE nor SINGLE. -/
theorem obeys_of_base (h : nIn.toNat < tx._txIn.length) (h' : nIn.toNat < tx'._txIn.length)
    (hnone : baseType nHashType ≠ Flags.cast .sighashNone)
    (hsingle : baseType nHashType ≠ Flags.cast .sighashSingle)
    (hall : baseType nHashType = Flags.cast .sighashAll → nHashType.isSet .sighashAnyoneCanPay = false →
      tx.Signable ∧ tx'.Signable) : Obeys nHashType scriptCode nIn tx tx' where
  none := fun hbase => absurd hbase hnone
  single := fun hbase => absurd hbase hsingle
  anyoneCanPay := anyoneCanPay_obeyed h h'
  all := fun hbase ha hbytes =>
    have ⟨hs,hs'⟩ := hall hbase ha
    all_obeyed hs hs' h h' ha hbytes

/-- Whatever the base, the outputs are signed. -/
theorem outputs_signed (h : nIn.toNat < tx._txIn.length) (h' : nIn.toNat < tx'._txIn.length)
    (hbytes : (new tx scriptCode nIn nHashType).serialize = (new tx' scriptCode nIn nHashType).serialize) :
    counted tx._txOut = counted tx'._txOut :=
  congrArg SignedPart.outputs ((serialize_eq_iff h h').mp hbytes)

theorem ofOutputs_valid (count : ℕ) : (0 : UInt32).toNat < (Transaction.ofOutputs count)._txIn.length :=
  Nat.zero_lt_one

theorem ofOutputs_outputs_length (count : ℕ) : (Transaction.ofOutputs count)._txOut.length = count :=
  List.length_replicate

theorem ofOutputs_signable {count : ℕ} (h : count < 2^32) : (Transaction.ofOutputs count).Signable := by
  constructor
  · exact Nat.one_lt_two_pow (by decide)
  · rwa [ofOutputs_outputs_length]

/-- Under NONE and SINGLE one output more changes the bytes, even behind the input's index. -/
theorem one_more_output (n : ℕ) (hn : n + 1 < 2^32)
    (hbytes : (new (.ofOutputs n) scriptCode 0 nHashType).serialize =
      (new (.ofOutputs (n+1)) scriptCode 0 nHashType).serialize) : False := by
  have houts := outputs_signed (ofOutputs_valid n) (ofOutputs_valid (n+1)) hbytes
  have hlen := congrArg List.length houts
  rw [counted_of_lt (ofOutputs_signable (by omega)).2,counted_of_lt (ofOutputs_signable hn).2,
    ofOutputs_outputs_length,ofOutputs_outputs_length] at hlen
  omega

/-- 2^32 outputs are counted as none. -/
theorem uncounted_outputs :
    (new (.ofOutputs 0) scriptCode 0 nHashType).serialize =
      (new (.ofOutputs (2^32)) scriptCode 0 nHashType).serialize := by
  apply (serialize_eq_iff (ofOutputs_valid 0) (ofOutputs_valid (2^32))).mpr
  have hnone : counted (Transaction.ofOutputs (2^32))._txOut = [] := by
    rw [counted,ofOutputs_outputs_length,Nat.mod_self,List.take_zero]
  rw [SignedPart.of,SignedPart.of,hnone]
  rfl

end Rules

/-- A hash type keeps the rules on all transactions whose inputs and outputs can be counted
exactly if its base is neither NONE nor SINGLE, which are taken for ALL. Beyond those
transactions ALL misses what is not counted. -/
theorem rules_obeyed_iff (nHashType : Flags SignatureHashType) :
    ((∀ (scriptCode : ByteVector) (nIn : UInt32) (tx tx' : Transaction), nIn.toNat < tx._txIn.length →
        nIn.toNat < tx'._txIn.length → tx.Signable → tx'.Signable →
          Obeys nHashType scriptCode nIn tx tx') ↔
      baseType nHashType ≠ Flags.cast .sighashNone ∧ baseType nHashType ≠ Flags.cast .sighashSingle) ∧
    ((∀ (scriptCode : ByteVector) (nIn : UInt32) (tx tx' : Transaction), nIn.toNat < tx._txIn.length →
        nIn.toNat < tx'._txIn.length → Obeys nHashType scriptCode nIn tx tx') ↔
      baseType nHashType ≠ Flags.cast .sighashNone ∧ baseType nHashType ≠ Flags.cast .sighashSingle ∧
        (baseType nHashType = Flags.cast .sighashAll → nHashType.isSet .sighashAnyoneCanPay = true)) := by
  have base_of_signable (h : ∀ tx tx' : Transaction, 0 < tx._txIn.length → 0 < tx'._txIn.length →
      tx.Signable → tx'.Signable → Obeys nHashType ByteVector.empty 0 tx tx') :
      baseType nHashType ≠ Flags.cast .sighashNone ∧ baseType nHashType ≠ Flags.cast .sighashSingle := by
    constructor
    · intro hbase
      have hobeys := h (.ofOutputs 0) (.ofOutputs 1) (by decide) (by decide) (by decide) (by decide)
      exact one_more_output 0 (by decide) (hobeys.none hbase (by decide))
    · intro hbase
      have hobeys := h (.ofOutputs 1) (.ofOutputs 2) (by decide) (by decide) (by decide) (by decide)
      exact one_more_output 1 (by decide) (hobeys.single hbase (by decide))
  constructor
  · constructor
    · exact fun h => base_of_signable fun tx tx' hin hin' hs hs' => h _ 0 tx tx' hin hin' hs hs'
    · rintro ⟨hnone,hsingle⟩ scriptCode nIn tx tx' h h' hs hs'
      exact obeys_of_base h h' hnone hsingle fun _ _ => ⟨hs,hs'⟩
  · constructor
    · intro h
      obtain ⟨hnone,hsingle⟩ := base_of_signable fun tx tx' hin hin' _ _ => h _ 0 tx tx' hin hin'
      refine ⟨hnone,hsingle,fun hbase => ?_⟩
      by_contra ha
      have hobeys := h ByteVector.empty 0 _ _ (ofOutputs_valid 0) (ofOutputs_valid (2^32))
      have hlen := congrArg List.length (hobeys.all hbase (by simpa using ha) uncounted_outputs).1
      rw [ofOutputs_outputs_length,ofOutputs_outputs_length] at hlen
      exact absurd hlen.symm (by norm_num)
    · rintro ⟨hnone,hsingle,hall⟩ scriptCode nIn tx tx' h h'
      refine obeys_of_base h h' hnone hsingle fun hbase ha => ?_
      rw [hall hbase] at ha
      contradiction

/-- Under NONE an output is signed. -/
theorem none_signs_outputs :
    ¬ ∀ (nHashType : Flags SignatureHashType) (scriptCode : ByteVector) (nIn : UInt32)
      (tx tx' : Transaction), nIn.toNat < tx._txIn.length → nIn.toNat < tx'._txIn.length →
        tx.Signable → tx'.Signable → Obeys nHashType scriptCode nIn tx tx' := by
  intro h
  have hobeys := h ⟨2⟩ ByteVector.empty 0 (.ofOutputs 0) (.ofOutputs 1) (ofOutputs_valid 0)
    (ofOutputs_valid 1) (by decide) (by decide)
  exact one_more_output 0 (by decide) (hobeys.none (by decide) (by decide))

end CTransactionSignatureSerializer
end Tkeycoin
