import Tkeycoin.ReadBack
import Tkeycoin.Unserialize

/-! Which transactions are read back from what `::Serialize` wrote. -/
namespace Tkeycoin
namespace Unserialize

open Reader

theorem bytes_reads {l : Bytes} {count : ℕ} (h : l.length = count) : Reads (bytes count) l l := Reads.read h

theorem number_reads (width : ℕ) {n : ℕ} (h : n < 256 ^ width) : Reads (number width) (leBytes width n) n := by
  have hvalue := (bytes_reads (leBytes_length width n)).map leValue
  rwa [leValue_leBytes,Nat.mod_eq_of_lt h] at hvalue

theorem uint8_reads (n : UInt8) : Reads uint8 (Serialization.uint8 n) n := by
  have h := (number_reads 1 n.toNat_lt).map UInt8.ofNat
  rw [UInt8.ofNat_toNat,leBytes,leBytes,UInt8.ofNat_toNat] at h
  exact h

theorem uint16_reads (n : UInt16) : Reads uint16 (Serialization.uint16 n) n := by
  have h := (number_reads 2 n.toNat_lt).map UInt16.ofNat
  rwa [UInt16.ofNat_toNat] at h

theorem uint32_reads (n : UInt32) : Reads uint32 (Serialization.uint32 n) n := by
  have h := (number_reads 4 n.toNat_lt).map UInt32.ofNat
  rwa [UInt32.ofNat_toNat] at h

theorem uint64_reads (n : UInt64) : Reads uint64 (Serialization.uint64 n) n := by
  have h := (number_reads 8 n.toNat_lt).map UInt64.ofNat
  rwa [UInt64.ofNat_toNat] at h

theorem int32_reads (n : Int32) : Reads int32 (Serialization.int32 n) n :=
  (uint32_reads n.toUInt32).map UInt32.toInt32

theorem int64_reads (n : Int64) : Reads int64 (Serialization.int64 n) n :=
  (uint64_reads n.toUInt64).map UInt64.toInt64

theorem blob_reads {BITS : ℕ} (b : Blob BITS) : Reads (blob BITS) (Serialization.blob b) b := by
  have hlen : b.toList.length = (BITS + 7) / 8 := b.toList_length
  exact (bytes_reads hlen).last (dif_pos hlen)

/-- The first byte tells the form, and no form is longer than needed. -/
theorem uintV_reads (n : UInt64) : Reads uintV (Serialization.uintV n) n := by
  have hlt := n.toNat_lt
  have h253 : (253 : UInt64).toNat = 253 := rfl
  have hffff : (0xffff : UInt64).toNat = 0xffff := rfl
  have hffffffff : (0xffffffff : UInt64).toNat = 0xffffffff := rfl
  unfold Serialization.uintV
  split_ifs with h₁ h₂ h₃
  · rw [UInt64.lt_iff_toNat_lt,h253] at h₁
    have hback : n.toUInt8.toUInt64 = n := by
      rw [← UInt64.toNat_inj,UInt8.toNat_toUInt64,UInt64.toNat_toUInt8]
      omega
    have hsmall : n.toUInt8 < 253 := by
      rw [UInt8.lt_iff_toNat_lt,UInt64.toNat_toUInt8]
      change n.toNat % 2^8 < 253
      omega
    refine (uint8_reads n.toUInt8).last ?_
    rw [if_pos hsmall,hback]
  · rw [UInt64.lt_iff_toNat_lt,h253] at h₁
    rw [UInt64.le_iff_toNat_le,hffff] at h₂
    have hback : n.toUInt16.toUInt64 = n := by
      rw [← UInt64.toNat_inj,UInt16.toNat_toUInt64,UInt64.toNat_toUInt16]
      omega
    have hlarge : ¬ n.toUInt16 < 253 := by
      rw [UInt16.lt_iff_toNat_lt,UInt64.toNat_toUInt16]
      change ¬ n.toNat % 2^16 < 253
      omega
    refine (uint8_reads 253).bind ((uint16_reads n.toUInt16).last ?_)
    rw [if_neg hlarge,hback]
  · rw [UInt64.le_iff_toNat_le,hffff] at h₂
    rw [UInt64.le_iff_toNat_le,hffffffff] at h₃
    have hback : n.toUInt32.toUInt64 = n := by
      rw [← UInt64.toNat_inj,UInt32.toNat_toUInt64,UInt64.toNat_toUInt32]
      omega
    have hlarge : ¬ n.toUInt32 ≤ 0xffff := by
      rw [UInt32.le_iff_toNat_le,UInt64.toNat_toUInt32]
      change ¬ n.toNat % 2^32 ≤ 0xffff
      omega
    refine (uint8_reads 254).bind ((uint32_reads n.toUInt32).last ?_)
    rw [if_neg hlarge,hback]
  · refine (uint8_reads 255).bind ((uint64_reads n).last ?_)
    rw [if_neg h₃]

/-- A vector of so many elements can be made. -/
def Sized (fits : ℕ → Bool) (n : ℕ) : Prop := n < 2^64 ∧ fits n = true

section Vectors

variable {fits : ℕ → Bool}

/-- Behind the size of a vector its elements are read, if there is room for them. -/
theorem sized_run {α : Type} {f : ℕ → Reader α} {n : ℕ} (h : Sized fits n) (memory : ℕ → UInt8) (l : Bytes)
    (unset : ℕ) : run memory (do
      let size ← uintV
      let count ← allocate fits size
      f count) ⟨Serialization.uintV (UInt64.ofNat n) ++ l,false,unset⟩ =
        run memory (f n) ⟨l,false,unset⟩ := by
  have hn : (UInt64.ofNat n).toNat = n := UInt64.toNat_ofNat_of_lt' h.1
  rw [(uintV_reads (UInt64.ofNat n)).run_bind,allocate,hn,if_pos h.2]
  rfl

theorem sized_reads {α : Type} {f : ℕ → Reader α} {n : ℕ} (h : Sized fits n) {l : Bytes} {a : α}
    (hf : Reads (f n) l a) : Reads (do
      let size ← uintV
      let count ← allocate fits size
      f count) (Serialization.uintV (UInt64.ofNat n) ++ l) a := by
  intro memory rest unset
  rw [List.append_assoc,sized_run h,hf]

theorem sizeAndBytes_reads {b : ByteVector} (h : fits b.1.length = true) :
    Reads (sizeAndBytes fits) (Serialization.sizeAnd b) b :=
  sized_reads ⟨b.2,h⟩ ((bytes_reads rfl).last (dif_pos b.2))

section SizeAnd

variable {α β : Type} {p : Reader α} {code : β → Bytes} {value : β → α}

theorem sizeAnd_reads {l : List β} (hl : Sized fits l.length) (h : ∀ b ∈ l, Reads p (code b) (value b)) :
    Reads (sizeAnd fits p) (Serialization.uintV (UInt64.ofNat l.length) ++ l.flatMap code) (l.map value) :=
  sized_reads hl (times_reads h)

/-- What holds of each element that is read. -/
theorem forall_sizeAnd {P : α → Prop} {memory : ℕ → UInt8}
    (h : ∀ s a t, run memory p s = some (a,t) → P a) {s t : IStream} {l : List α}
    (hl : run memory (sizeAnd fits p) s = some (l,t)) : ∀ a ∈ l, P a := by
  rw [sizeAnd] at hl
  obtain ⟨size,s₁,-,hcount⟩ := run_bind_some.mp hl
  obtain ⟨count,s₂,-,htimes⟩ := run_bind_some.mp hcount
  exact (forall_times h htimes).2

end SizeAnd

theorem blockHeader_reads (h : BlockHeader) : Reads blockHeader h.serialize h :=
  (uint32_reads h._version).bind ((blob_reads h._prev).bind ((blob_reads h._merkle).bind
    ((uint32_reads h._timestamp).bind ((uint32_reads h._bits).bind ((uint32_reads h._nonce).bind
      ((uint32_reads h._chain).last rfl))))))

theorem txOutPoint_reads (o : TxOutPoint) : Reads txOutPoint o.serialize o :=
  (blob_reads o._hash).bind ((uint32_reads o._index).last rfl)

theorem txOut_reads {o : TxOut} (h : fits o._keyScript.1.length = true) :
    Reads (txOut fits) o.serialize o :=
  (int64_reads o._value).bind ((sizeAndBytes_reads h).last rfl)

/-- An input as it is read before its witness. -/
def bare (i : TxIn) : TxIn := { i with _scriptWitness := ⟨[]⟩ }

theorem txIn_reads {i : TxIn} (h : fits i._sigScript.1.length = true) :
    Reads (txIn fits) i.serialize (bare i) := by
  rw [TxIn.serialize,List.append_assoc]
  exact (txOutPoint_reads i._prevOut).bind ((sizeAndBytes_reads h).bind ((uint32_reads i._sequence).last rfl))

/-- A witness is read back if its elements have no bytes. -/
structure ReadableWitness (fits : ℕ → Bool) (w : TxWitness) : Prop where
  empty : ∀ e ∈ w._stack, e = ByteVector.empty
  sized : Sized fits w._stack.length

theorem txWitness_reads {w : TxWitness} (h : ReadableWitness fits w) :
    Reads (txWitness fits) w.serialize w := by
  have hcode : w._stack.flatMap Subtype.val = w._stack.flatMap fun _ => [] :=
    List.flatMap_congr fun e he => by rw [h.empty e he]; rfl
  have hstack : w._stack.map (fun _ => ByteVector.empty) = w._stack :=
    (List.map_congr_left fun e he => (h.empty e he).symm).trans (List.map_id' _)
  have hread := sizeAnd_reads (l := w._stack) (p := do let _ ← bytes 0; pure ByteVector.empty)
    h.sized fun e _ => (bytes_reads (l := []) rfl).last rfl
  rw [hstack] at hread
  rw [TxWitness.serialize,hcode]
  exact hread.last rfl

/-- All elements that are read are empty. -/
theorem txWitness_empty {memory : ℕ → UInt8} {s t : IStream} {w : TxWitness}
    (h : run memory (txWitness fits) s = some (w,t)) : ∀ e ∈ w._stack, e = ByteVector.empty := by
  rw [txWitness] at h
  obtain ⟨l,s₁,hl,hpure⟩ := run_bind_some.mp h
  obtain ⟨rfl,-⟩ := run_pure_some.mp hpure
  exact forall_sizeAnd (fun s a t ha => by
    obtain ⟨rfl,-⟩ := Prod.mk.inj (Option.some.inj ha)
    rfl) hl

/-- The witnesses of a transaction, into its inputs. -/
def witnesses (fits : ℕ → Bool) (_flag : Option UInt16) (_txIn : List TxIn) : Reader (List TxIn) :=
  match _flag with
  | some _ => Reader.forEach (fun txIn => do pure { txIn with _scriptWitness := (← txWitness fits) }) _txIn
  | none => pure _txIn

/-- `Transaction::Unserialize` behind the outputs. -/
def behindOutputs (fits : ℕ → Bool) (_version : Int32) (_flag : Option UInt16) (_txIn : List TxIn)
    (_txOut : List TxOut) : Reader Transaction := do
  let _txIn ← witnesses fits _flag _txIn
  let _srcChain ← uint32
  let _dstChain ← uint32
  let _lockTime ← uint32
  pure ⟨_version,_flag,_txIn,_txOut,_srcChain,_dstChain,_lockTime⟩

/-- `Transaction::Unserialize` behind the flag. -/
def behindFlag (fits : ℕ → Bool) (_version : Int32) (_flag : Option UInt16) : Reader Transaction := do
  let _txIn ← sizeAnd fits (txIn fits)
  let _txOut ← sizeAnd fits (txOut fits)
  behindOutputs fits _version _flag _txIn _txOut

/-- The flag, which stands where an input count of zero would. -/
def peekFlag : Reader (Option UInt16) :=
  .peek fun byte => if byte = some 0 then do pure (some (← uint16)) else pure none

theorem transaction_eq : transaction fits = (do
    let _version ← int32
    let _flag ← peekFlag
    behindFlag fits _version _flag) := by
  rw [transaction]
  refine bind_congr fun version => bind_congr fun flag => bind_congr fun ins => bind_congr fun outs => ?_
  cases flag <;> rfl

/-- What `Transaction::Serialize` writes behind the outputs. -/
def witnessBytes (tx : Transaction) : Bytes :=
  (match tx._flag with
    | some _ => tx._txIn.flatMap fun txIn => txIn._scriptWitness.serialize
    | none => []) ++
  (Serialization.uint32 tx._srcChain ++ (Serialization.uint32 tx._dstChain ++
    Serialization.uint32 tx._lockTime))

/-- What the witnesses of a transaction are if they are read back. -/
def ReadableWitnesses (fits : ℕ → Bool) (tx : Transaction) : Prop :=
  match tx._flag with
  | some _ => ∀ i ∈ tx._txIn, ReadableWitness fits i._scriptWitness
  | none => ∀ i ∈ tx._txIn, i._scriptWitness._stack = []

theorem witness_reads {tx : Transaction} (h : ReadableWitnesses fits tx) :
    Reads (behindOutputs fits tx._version tx._flag (tx._txIn.map bare) tx._txOut) (witnessBytes tx) tx := by
  obtain ⟨version,flag,ins,outs,src,dst,lock⟩ := tx
  have hend : Reads (do
      let _srcChain ← uint32
      let _dstChain ← uint32
      let _lockTime ← uint32
      pure (⟨version,flag,ins,outs,_srcChain,_dstChain,_lockTime⟩ : Transaction))
      (Serialization.uint32 src ++ (Serialization.uint32 dst ++ Serialization.uint32 lock))
      ⟨version,flag,ins,outs,src,dst,lock⟩ :=
    (uint32_reads src).bind ((uint32_reads dst).bind ((uint32_reads lock).last rfl))
  cases flag with
  | none =>
    have hbare : ins.map bare = ins := by
      refine (List.map_congr_left fun i hi => ?_).trans (List.map_id' _)
      have hstack : i._scriptWitness._stack = [] := h i hi
      obtain ⟨_,_,_,⟨_⟩⟩ := i
      subst hstack
      rfl
    rw [hbare]
    exact (Reads.pure ins).bind hend
  | some flag =>
    have hins : Reads (witnesses fits (some flag) (ins.map bare))
        (ins.flatMap fun txIn => txIn._scriptWitness.serialize) ins := by
      rw [witnesses,forEach_map]
      have heach : Reads (Reader.forEach (fun i => do
          pure { bare i with _scriptWitness := (← txWitness fits) }) ins)
          (ins.flatMap fun i => i._scriptWitness.serialize) (ins.map fun i => i) :=
        forEach_reads fun i hi => (txWitness_reads (h i hi)).last rfl
      rwa [List.map_id'] at heach
    exact hins.bind hend

/-- What the vectors of a transaction are if they are read back. -/
structure ReadableVectors (fits : ℕ → Bool) (tx : Transaction) : Prop where
  inputs : Sized fits tx._txIn.length
  sigScripts : ∀ i ∈ tx._txIn, fits i._sigScript.1.length = true
  outputs : Sized fits tx._txOut.length
  keyScripts : ∀ o ∈ tx._txOut, fits o._keyScript.1.length = true

/-- What `Transaction::Serialize` writes behind the flag. -/
def vectorBytes (tx : Transaction) : Bytes :=
  (Serialization.uintV (UInt64.ofNat tx._txIn.length) ++ tx._txIn.flatMap TxIn.serialize) ++
    ((Serialization.uintV (UInt64.ofNat tx._txOut.length) ++ tx._txOut.flatMap TxOut.serialize) ++
      witnessBytes tx)

theorem behindFlag_reads {tx : Transaction} (h : ReadableVectors fits tx) (hw : ReadableWitnesses fits tx) :
    Reads (behindFlag fits tx._version tx._flag) (vectorBytes tx) tx := by
  have hin := sizeAnd_reads h.inputs fun i hi => txIn_reads (h.sigScripts i hi)
  have hout := sizeAnd_reads h.outputs fun o ho => txOut_reads (h.keyScripts o ho)
  rw [List.map_id'] at hout
  exact hin.bind (hout.bind (witness_reads hw))

/-- The flag of a transaction stands where an input count of zero would, and no count stands
where a flag would. -/
def ReadableFlag (tx : Transaction) : Prop :=
  match tx._flag with
  | some flag => flag.toUInt8 = 0
  | none => tx._txIn ≠ []

/-- A transaction that is read back. -/
structure Readable (fits : ℕ → Bool) (tx : Transaction) : Prop where
  flag : ReadableFlag tx
  vectors : ReadableVectors fits tx
  witnesses : ReadableWitnesses fits tx

theorem serialize_eq (tx : Transaction) : tx.serialize = Serialization.int32 tx._version ++
    ((match tx._flag with
      | some flag => Serialization.uint16 flag
      | none => []) ++ vectorBytes tx) := by
  obtain ⟨version,flag,ins,outs,src,dst,lock⟩ := tx
  cases flag <;> simp only [Transaction.serialize,vectorBytes,witnessBytes,List.append_assoc]

/-- The first byte behind the version. -/
theorem peekFlag_run (memory : ℕ → UInt8) (byte : UInt8) (rest : Bytes) (unset : ℕ) :
    run memory peekFlag ⟨byte :: rest,false,unset⟩ =
      if byte = 0 then run memory (do pure (some (← uint16))) ⟨byte :: rest,false,unset⟩
      else some (none,⟨byte :: rest,false,unset⟩) := by
  have hpeek : IStream.peek ⟨byte :: rest,false,unset⟩ = some byte := rfl
  rw [peekFlag,run,hpeek]
  by_cases hbyte : byte = 0
  · rw [if_pos hbyte,if_pos (congrArg some hbyte)]
  · rw [if_neg hbyte,if_neg (fun h => hbyte (Option.some.inj h))]
    rfl

theorem uint16_eq (n : UInt16) :
    Serialization.uint16 n = [n.toUInt8,UInt8.ofNat (n.toNat / 256)] := by
  rw [Serialization.uint16,leBytes,leBytes,leBytes]
  rfl

theorem uintVTag_eq_zero (n : UInt64) : Serialization.uintVTag n = 0 ↔ n = 0 := by
  have hzero : (0 : UInt64).toNat = 0 := rfl
  have hbyte : (0 : UInt8).toNat = 0 := rfl
  rw [← UInt8.toNat_inj,← UInt64.toNat_inj,hzero,hbyte]
  rcases Serialization.uintV_cases n with ⟨hn,htag,-⟩ | ⟨hn,htag,-⟩ | ⟨hn,htag,-⟩ | ⟨hn,htag,-⟩ <;> omega

/-- Behind a version without a flag stands the number of inputs. -/
theorem vectorBytes_eq (tx : Transaction) : ∃ rest, vectorBytes tx =
    Serialization.uintVTag (UInt64.ofNat tx._txIn.length) :: rest := by
  rw [vectorBytes,Serialization.uintV_eq]
  exact ⟨_,rfl⟩

theorem peekFlag_reads {flag : UInt16} (h : flag.toUInt8 = 0) :
    Reads peekFlag (Serialization.uint16 flag) (some flag) := by
  intro memory rest unset
  have hread := (uint16_reads flag).map some memory rest unset
  rw [uint16_eq] at hread ⊢
  rw [List.cons_append,peekFlag_run,if_pos h]
  exact hread

/-- An input count is no flag, unless it is zero. -/
theorem peekFlag_vectorBytes (tx : Transaction) (memory : ℕ → UInt8) (rest : Bytes) (unset : ℕ) :
    run memory peekFlag ⟨vectorBytes tx ++ rest,false,unset⟩ =
      if UInt64.ofNat tx._txIn.length = 0 then
        run memory (do pure (some (← uint16))) ⟨vectorBytes tx ++ rest,false,unset⟩
      else some (none,⟨vectorBytes tx ++ rest,false,unset⟩) := by
  obtain ⟨tail,htail⟩ := vectorBytes_eq tx
  rw [htail,List.cons_append,peekFlag_run]
  exact if_congr (uintVTag_eq_zero _) rfl rfl

/-- A readable transaction is read back, whatever stands behind it. -/
theorem transaction_reads {tx : Transaction} (h : Readable fits tx) :
    Reads (transaction fits) tx.serialize tx := by
  have hrest := behindFlag_reads h.vectors h.witnesses
  have hflag := h.flag
  rw [transaction_eq,serialize_eq]
  refine (int32_reads tx._version).bind ?_
  rw [ReadableFlag] at hflag
  cases heq : tx._flag with
  | some flag =>
    rw [heq] at hflag hrest
    exact (peekFlag_reads hflag).bind hrest
  | none =>
    rw [heq] at hflag hrest
    have hcount : ¬ UInt64.ofNat tx._txIn.length = 0 := by
      rw [← UInt64.toNat_inj,UInt64.toNat_ofNat_of_lt' h.vectors.inputs.1]
      exact fun hzero => hflag (List.length_eq_zero_iff.mp hzero)
    intro memory rest unset
    have hpeek := peekFlag_vectorBytes tx memory rest unset
    rw [if_neg hcount] at hpeek
    change run memory _ ⟨vectorBytes tx ++ rest,false,unset⟩ = _
    rw [run_bind,hpeek,Option.bind_some]
    exact hrest memory rest unset

end Vectors

end Unserialize
end Tkeycoin
