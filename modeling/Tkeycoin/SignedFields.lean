import Tkeycoin.SignatureSerializer

/-! Which fields of a transaction the signed bytes depend on, and what each hash
type makes of them. -/
namespace Tkeycoin

/-- What of a transaction is among the signed bytes. -/
structure SignedPart where
  version : Int32
  inputs : List (TxOutPoint × UInt32)
  outputs : List TxOut
  lockTime : UInt32
  deriving DecidableEq

/-- The elements an `unsigned int` counts. -/
def counted {α : Type} (l : List α) : List α := l.take (l.length % 2^32)

theorem counted_length {α : Type} (l : List α) : (counted l).length = l.length % 2^32 := by
  have := Nat.mod_le l.length (2^32)
  rw [counted,List.length_take]
  omega

theorem counted_of_lt {α : Type} {l : List α} (h : l.length < 2^32) : counted l = l := by
  rw [counted,Nat.mod_eq_of_lt h,List.take_length]

namespace SignedPart

/-- With ANYONECANPAY the input signed is the only one. -/
def of (fAnyoneCanPay : Bool) (nIn : UInt32) (tx : Transaction) : SignedPart where
  version := tx._version
  inputs := (if fAnyoneCanPay then (tx._txIn[nIn.toNat]?).toList else counted tx._txIn).map
    fun txIn => (txIn._prevOut,txIn._sequence)
  outputs := counted tx._txOut
  lockTime := tx._lockTime

/-- An input, with the script that stands at its index. -/
def inputBlock (script : ℕ → Bytes) (i : ℕ) (input : TxOutPoint × UInt32) : Bytes :=
  input.1.serialize ++ script i ++ Serialization.uint32 input.2

def serialize (script : ℕ → Bytes) (p : SignedPart) : Bytes :=
  Serialization.int32 p.version ++ (Serialization.uintV (UInt64.ofNat p.inputs.length) ++
    (blocks (inputBlock script) 0 p.inputs ++ (Serialization.uintV (UInt64.ofNat p.outputs.length) ++
      (blocks (fun _ => TxOut.serialize) 0 p.outputs ++ Serialization.uint32 p.lockTime))))

theorem inputBlock_prefixCode (script : ℕ → Bytes) (i : ℕ) : PrefixCode (inputBlock script i) := by
  rintro ⟨o,n⟩ ⟨o',n'⟩ x y h
  simp only [inputBlock,List.append_assoc] at h
  obtain ⟨rfl,hscript⟩ := TxOutPoint.serialize_prefixCode _ _ _ _ h
  obtain ⟨rfl,hxy⟩ := Serialization.uint32_prefixCode _ _ _ _ (List.append_cancel_left hscript)
  exact ⟨rfl,hxy⟩

/-- The signed bytes determine the signed part. -/
theorem serialize_inj {script : ℕ → Bytes} {p q : SignedPart} (hp : p.inputs.length < 2^64)
    (hq : q.inputs.length < 2^64) (hp' : p.outputs.length < 2^64) (hq' : q.outputs.length < 2^64)
    (h : p.serialize script = q.serialize script) : p = q := by
  obtain ⟨hversion,hinputs⟩ := Serialization.int32_prefixCode _ _ _ _ h
  obtain ⟨hin,houtputs⟩ := counted_blocks_inj Serialization.uintV_count (inputBlock_prefixCode script)
    0 hp hq hinputs
  obtain ⟨hout,hlock⟩ := counted_blocks_inj Serialization.uintV_count
    (fun _ => TxOut.serialize_prefixCode) 0 hp' hq' houtputs
  have hlockTime := Serialization.uint32_prefixCode.injective hlock
  cases p
  cases q
  simp_all

theorem of_inputs_length (fAnyoneCanPay : Bool) (nIn : UInt32) (tx : Transaction) :
    (of fAnyoneCanPay nIn tx).inputs.length < 2^32 := by
  cases fAnyoneCanPay with
  | false =>
    simp only [of,List.length_map,counted_length,Bool.false_eq_true,if_false]
    exact Nat.mod_lt _ (by decide)
  | true =>
    simp only [of,List.length_map,if_true]
    cases tx._txIn[nIn.toNat]? <;> simp

theorem of_outputs_length (fAnyoneCanPay : Bool) (nIn : UInt32) (tx : Transaction) :
    (of fAnyoneCanPay nIn tx).outputs.length < 2^32 := by
  simp only [of,counted_length]
  exact Nat.mod_lt _ (by decide)

end SignedPart

namespace CTransactionSignatureSerializer

/-- The script that stands at an index of the inputs written. -/
def scriptAt (scriptCode : ByteVector) (nIn : UInt32) (fAnyoneCanPay : Bool) (i : ℕ) : Bytes :=
  if fAnyoneCanPay ∨ i = nIn.toNat then serializeScriptCode scriptCode.1
  else Serialization.sizeAnd ByteVector.empty

theorem forEach_eq {α : Type} {write : UInt32 → Option Bytes} {enc : ℕ → α → Bytes} (start : ℕ) (l : List α)
    (h : ∀ j (hj : j < l.length), write (UInt32.ofNat (start + j)) = some (enc (start + j) l[j])) :
    forEach write start l.length = some (blocks enc start l) := by
  induction l generalizing start with
  | nil => rfl
  | cons a l ih =>
    have hhead := h 0 (by simp)
    have htail := ih (start+1) fun j hj => by
      have hj' := h (j+1) (by simpa using hj)
      rw [show start + 1 + j = start + (j+1) by omega]
      simpa using hj'
    simp only [Nat.add_zero,List.getElem_cons_zero] at hhead
    simp [forEach,blocks,hhead,htail]

variable (tx : Transaction) (scriptCode : ByteVector) (nIn : UInt32) (nHashType : Flags SignatureHashType)

theorem toUInt64_eq (n : UInt32) : n.toUInt64 = UInt64.ofNat n.toNat := by
  have h := n.toNat_lt
  rw [← UInt64.toNat_inj,UInt32.toNat_toUInt64,UInt64.toNat_ofNat',Nat.mod_eq_of_lt (by omega)]

theorem counted_getElem {α : Type} (l : List α) (j : ℕ) (hj : j < (counted l).length) :
    j < 2^32 ∧ l[j]? = some (counted l)[j] := by
  have hlt := Nat.mod_lt l.length (show 2^32 > 0 by decide)
  have hmod := Nat.mod_le l.length (2^32)
  rw [counted_length] at hj
  refine ⟨by omega,?_⟩
  simp only [counted,List.getElem_take]
  exact List.getElem?_eq_getElem (by omega)

/-- Without ANYONECANPAY the input of the index is written. -/
theorem serializeInput_counted (ha : nHashType.isSet .sighashAnyoneCanPay = false) (j : ℕ)
    (hj : j < (counted tx._txIn).length) :
    (new tx scriptCode nIn nHashType).serializeInput (UInt32.ofNat j) =
      some (SignedPart.inputBlock (scriptAt scriptCode nIn false) j
        ((counted tx._txIn)[j]._prevOut,(counted tx._txIn)[j]._sequence)) := by
  obtain ⟨hj32,hget⟩ := counted_getElem tx._txIn j hj
  have hnat : (UInt32.ofNat j).toNat = j := by rw [UInt32.toNat_ofNat',Nat.mod_eq_of_lt hj32]
  have heq : UInt32.ofNat j = nIn ↔ j = nIn.toNat := by rw [← UInt32.toNat_inj,hnat]
  simp only [serializeInput,new,ha,Transaction.txIn,Flags.mask_isSet,Bool.false_eq_true,if_false,hnat,hget,
    or_self,and_false,SignedPart.inputBlock,scriptAt,false_or,ne_eq,heq,ite_not]
  rfl

/-- With it the input signed is written. -/
theorem serializeInput_signed (ha : nHashType.isSet .sighashAnyoneCanPay = true) {txIn : TxIn}
    (hin : tx._txIn[nIn.toNat]? = some txIn) (n : UInt32) (j : ℕ) :
    (new tx scriptCode nIn nHashType).serializeInput n =
      some (SignedPart.inputBlock (scriptAt scriptCode nIn true) j (txIn._prevOut,txIn._sequence)) := by
  simp only [serializeInput,new,ha,Transaction.txIn,Flags.mask_isSet,if_true,hin,ne_eq,
    not_true_eq_false,if_false,false_and,SignedPart.inputBlock,scriptAt,true_or]
  rfl

theorem serializeOutput_counted (j : ℕ) (hj : j < (counted tx._txOut).length) :
    (new tx scriptCode nIn nHashType).serializeOutput (UInt32.ofNat j) =
      some (counted tx._txOut)[j].serialize := by
  obtain ⟨hj32,hget⟩ := counted_getElem tx._txOut j hj
  have hnat : (UInt32.ofNat j).toNat = j := by rw [UInt32.toNat_ofNat',Nat.mod_eq_of_lt hj32]
  simp only [serializeOutput,new,Flags.mask_isSet,Bool.false_eq_true,false_and,if_false,Transaction.txOut,hnat,hget]
  rfl

/-- The inputs written are those of the signed part. -/
theorem inputs_eq (h : nIn.toNat < tx._txIn.length) {fAnyoneCanPay : Bool}
    (ha : nHashType.isSet .sighashAnyoneCanPay = fAnyoneCanPay) :
    forEach (new tx scriptCode nIn nHashType).serializeInput 0
        (SignedPart.of fAnyoneCanPay nIn tx).inputs.length =
      some (blocks (SignedPart.inputBlock (scriptAt scriptCode nIn fAnyoneCanPay)) 0
        (SignedPart.of fAnyoneCanPay nIn tx).inputs) := by
  refine forEach_eq 0 _ fun j hj => ?_
  rw [Nat.zero_add]
  cases fAnyoneCanPay with
  | false =>
    have hj' : j < (counted tx._txIn).length := by simpa [SignedPart.of] using hj
    rw [serializeInput_counted tx scriptCode nIn nHashType ha j hj']
    simp [SignedPart.of]
  | true =>
    have hin := List.getElem?_eq_getElem h
    rw [serializeInput_signed tx scriptCode nIn nHashType ha hin _ j]
    simp [SignedPart.of,hin]

/-- The wrapper writes the signed part, whatever the base type: the mask has left
no bit of it. -/
theorem serialize_eq (h : nIn.toNat < tx._txIn.length) :
    (new tx scriptCode nIn nHashType).serialize =
      some ((SignedPart.of (nHashType.isSet .sighashAnyoneCanPay) nIn tx).serialize
        (scriptAt scriptCode nIn (nHashType.isSet .sighashAnyoneCanPay))) := by
  have hinputs := inputs_eq tx scriptCode nIn nHashType h rfl
  have houtputs : forEach (new tx scriptCode nIn nHashType).serializeOutput 0 (counted tx._txOut).length =
      some (blocks (fun _ => TxOut.serialize) 0 (counted tx._txOut)) := by
    refine forEach_eq 0 _ fun j hj => ?_
    rw [Nat.zero_add]
    exact serializeOutput_counted tx scriptCode nIn nHashType j hj
  have hout : (UInt32.ofNat tx._txOut.length).toNat = (counted tx._txOut).length := by
    rw [UInt32.toNat_ofNat',counted_length]
  have hin : (if nHashType.isSet .sighashAnyoneCanPay then 1 else UInt32.ofNat tx._txIn.length : UInt32).toNat =
      (SignedPart.of (nHashType.isSet .sighashAnyoneCanPay) nIn tx).inputs.length := by
    cases nHashType.isSet .sighashAnyoneCanPay with
    | false => simp [SignedPart.of,counted_length]
    | true => simp [SignedPart.of,List.getElem?_eq_getElem h]
  have hnew : (new tx scriptCode nIn nHashType).fAnyoneCanPay = nHashType.isSet .sighashAnyoneCanPay := rfl
  have hnone : (new tx scriptCode nIn nHashType).fHashNone = false := Flags.mask_isSet _ _ _
  have hsingle : (new tx scriptCode nIn nHashType).fHashSingle = false := Flags.mask_isSet _ _ _
  have htx : (new tx scriptCode nIn nHashType).txTo = tx := rfl
  simp only [serialize,hnew,hnone,hsingle,htx,Bool.false_eq_true,if_false,toUInt64_eq,hin,hout,hinputs,houtputs]
  simp [SignedPart.serialize,SignedPart.of]

variable {tx tx' : Transaction} {scriptCode nIn nHashType}

/-- Equal signed bytes are equal signed parts. -/
theorem serialize_eq_iff (h : nIn.toNat < tx._txIn.length) (h' : nIn.toNat < tx'._txIn.length) :
    (new tx scriptCode nIn nHashType).serialize = (new tx' scriptCode nIn nHashType).serialize ↔
      SignedPart.of (nHashType.isSet .sighashAnyoneCanPay) nIn tx =
        SignedPart.of (nHashType.isSet .sighashAnyoneCanPay) nIn tx' := by
  rw [serialize_eq tx scriptCode nIn nHashType h,serialize_eq tx' scriptCode nIn nHashType h',
    Option.some.injEq]
  refine ⟨SignedPart.serialize_inj ?_ ?_ ?_ ?_,congrArg _⟩
  · exact (SignedPart.of_inputs_length _ nIn tx).trans (by decide)
  · exact (SignedPart.of_inputs_length _ nIn tx').trans (by decide)
  · exact (SignedPart.of_outputs_length _ nIn tx).trans (by decide)
  · exact (SignedPart.of_outputs_length _ nIn tx').trans (by decide)

end CTransactionSignatureSerializer

namespace Transaction

/-- A transaction without its witness and signature scripts. -/
def bare (tx : Transaction) : Transaction :=
  { tx with
    _flag := none
    _txIn := tx._txIn.map fun txIn =>
      { txIn with _sigScript := ByteVector.empty, _scriptWitness := ⟨[]⟩ } }

theorem bare_eq_iff {tx tx' : Transaction} :
    tx.bare = tx'.bare ↔
      tx._version = tx'._version ∧
        tx._txIn.map (fun txIn => (txIn._prevOut,txIn._sequence)) =
          tx'._txIn.map (fun txIn => (txIn._prevOut,txIn._sequence)) ∧
        tx._txOut = tx'._txOut ∧ tx._srcChain = tx'._srcChain ∧ tx._dstChain = tx'._dstChain ∧
        tx._lockTime = tx'._lockTime := by
  have hinputs (l l' : List TxIn) :
      (l.map fun txIn => { txIn with _sigScript := ByteVector.empty, _scriptWitness := ⟨[]⟩ }) =
          (l'.map fun txIn => { txIn with _sigScript := ByteVector.empty, _scriptWitness := ⟨[]⟩ }) ↔
        l.map (fun txIn => (txIn._prevOut,txIn._sequence)) =
          l'.map (fun txIn => (txIn._prevOut,txIn._sequence)) := by
    induction l generalizing l' with
    | nil => simp
    | cons a l ih =>
      cases l' with
      | nil => simp
      | cons b l' => simp [ih]
  simp only [bare,Transaction.mk.injEq,true_and,hinputs]

/-- What is left of an input. -/
def bareInput (_ : ℕ) : TxOutPoint × UInt32 → Bytes :=
  SignedPart.inputBlock (fun _ => Serialization.sizeAnd ByteVector.empty) 0

theorem bare_inputs_serialize (i : ℕ) (l : List TxIn) :
    (l.map fun txIn => { txIn with _sigScript := ByteVector.empty, _scriptWitness := ⟨[]⟩ }).flatMap
        TxIn.serialize =
      blocks bareInput i (l.map fun txIn => (txIn._prevOut,txIn._sequence)) := by
  induction l generalizing i with
  | nil => rfl
  | cons a l ih =>
    rw [List.map_cons,List.flatMap_cons,ih (i+1)]
    rfl

theorem outputs_serialize (i : ℕ) (l : List TxOut) :
    l.flatMap TxOut.serialize = blocks (fun _ => TxOut.serialize) i l := by
  induction l generalizing i with
  | nil => rfl
  | cons a l ih => rw [List.flatMap_cons,ih (i+1),blocks]

/-- The wire bytes of such a transaction tell apart all that is left in it. -/
theorem bare_serialize_inj {tx tx' : Transaction} (hin : tx._txIn.length < 2^64)
    (hin' : tx'._txIn.length < 2^64) (hout : tx._txOut.length < 2^64) (hout' : tx'._txOut.length < 2^64)
    (h : tx.bare.serialize = tx'.bare.serialize) : tx.bare = tx'.bare := by
  simp only [serialize,bare,bare_inputs_serialize 0,outputs_serialize 0,List.append_nil,
    List.append_assoc] at h
  rw [← List.length_map (fun txIn : TxIn => (txIn._prevOut,txIn._sequence))] at hin hin'
  obtain ⟨hversion,hinputs⟩ := Serialization.int32_prefixCode _ _ _ _ h
  have hblock (i : ℕ) : PrefixCode (bareInput i) := SignedPart.inputBlock_prefixCode _ 0
  obtain ⟨hins,houtputs⟩ := counted_blocks_inj Serialization.uintV_count hblock 0 hin hin'
    (by simpa using hinputs)
  obtain ⟨houts,hsrc⟩ := counted_blocks_inj Serialization.uintV_count
    (fun _ => TxOut.serialize_prefixCode) 0 hout hout' houtputs
  obtain ⟨hsrcChain,hdst⟩ := Serialization.uint32_prefixCode _ _ _ _ hsrc
  obtain ⟨hdstChain,hlock⟩ := Serialization.uint32_prefixCode _ _ _ _ hdst
  have hlockTime := Serialization.uint32_prefixCode.injective hlock
  exact bare_eq_iff.mpr ⟨hversion,hins,houts,hsrcChain,hdstChain,hlockTime⟩

end Transaction

/-- The flags of the hash type ALL. -/
def SIGHASH_ALL : Flags SignatureHashType := ⟨1⟩

namespace CTransactionSignatureSerializer

/-- Two transactions without witness and signature scripts that differ are told apart by
the bytes signed under ALL exactly if they differ in version, lock time or among the
inputs and outputs an `unsigned int` counts: the chains are not signed. -/
theorem all_signed_iff (tx tx' : Transaction) (scriptCode : ByteVector) (nIn : UInt32)
    (h : nIn.toNat < tx._txIn.length) (h' : nIn.toNat < tx'._txIn.length) :
    (tx.bare ≠ tx'.bare →
        (new tx scriptCode nIn SIGHASH_ALL).serialize ≠ (new tx' scriptCode nIn SIGHASH_ALL).serialize) ↔
      tx.bare = tx'.bare ∨
        tx._version ≠ tx'._version ∨
        (counted tx._txIn).map (fun txIn => (txIn._prevOut,txIn._sequence)) ≠
          (counted tx'._txIn).map (fun txIn => (txIn._prevOut,txIn._sequence)) ∨
        counted tx._txOut ≠ counted tx'._txOut ∨ tx._lockTime ≠ tx'._lockTime := by
  have hall : SIGHASH_ALL.isSet .sighashAnyoneCanPay = false := by decide
  rw [ne_eq (new tx scriptCode nIn SIGHASH_ALL).serialize,serialize_eq_iff h h',hall]
  simp only [SignedPart.of,SignedPart.mk.injEq,Bool.false_eq_true,if_false]
  tauto

def txOnChain (_srcChain : UInt32) : Transaction where
  _version := 1
  _flag := none
  _txIn := [⟨⟨List.Vector.replicate 32 0,0⟩,ByteVector.empty,0xffffffff,⟨[]⟩⟩]
  _txOut := [⟨50,ByteVector.empty⟩]
  _srcChain := _srcChain
  _dstChain := 0
  _lockTime := 0

theorem all_signed_iff_version :
    (let tx := txOnChain 0
     let tx' := { tx with _version := 2 }
     tx.bare ≠ tx'.bare ∧
       (new tx ByteVector.empty 0 SIGHASH_ALL).serialize ≠
         (new tx' ByteVector.empty 0 SIGHASH_ALL).serialize) := by
  have hbare : (txOnChain 0).bare ≠ { txOnChain 0 with _version := 2 }.bare := by decide
  refine ⟨hbare,(all_signed_iff _ _ ByteVector.empty 0 (by decide) (by decide)).mpr ?_ hbare⟩
  exact .inr (.inl (by decide))

/-- The source chain can be changed without changing the signed bytes. -/
theorem chain_not_signed :
    ¬ ∀ (tx tx' : Transaction) (scriptCode : ByteVector) (nIn : UInt32),
      nIn.toNat < tx._txIn.length → nIn.toNat < tx'._txIn.length → tx.bare ≠ tx'.bare →
        (new tx scriptCode nIn SIGHASH_ALL).serialize ≠
          (new tx' scriptCode nIn SIGHASH_ALL).serialize := by
  intro h
  refine h (txOnChain 0) (txOnChain 1) ByteVector.empty 0 (by decide) (by decide) (by decide) ?_
  exact (serialize_eq_iff (by decide) (by decide)).mpr rfl

end CTransactionSignatureSerializer

end Tkeycoin
