import Tkeycoin.Filling
import Tkeycoin.TransactionReading

/-! What `Unserialize` does to an object that is there: to a new one, what reads the value. -/
namespace Tkeycoin

open Reader Filler

namespace BlockHeader

open Unserialize in
/-- `BlockHeader::Unserialize`. -/
def filler : Filler BlockHeader := all [
  field uint32 fun _version h => { h with _version },
  field (blob 256) fun _prev h => { h with _prev },
  field (blob 256) fun _merkle h => { h with _merkle },
  field uint32 fun _timestamp h => { h with _timestamp },
  field uint32 fun _bits h => { h with _bits },
  field uint32 fun _nonce h => { h with _nonce },
  field uint32 fun _chain h => { h with _chain }]

/-- All fields are read, whatever they were. -/
theorem filler_agrees (h : BlockHeader) : filler.Agrees h Unserialize.blockHeader :=
  all_field fun _ => all_field fun _ => all_field fun _ => all_field fun _ => all_field fun _ =>
    all_field fun _ => all_field fun _ => all_nil _

end BlockHeader

namespace TxOutPoint

open Unserialize in
def filler : Filler TxOutPoint := all [
  field (blob 256) fun _hash o => { o with _hash },
  field uint32 fun _index o => { o with _index }]

theorem filler_agrees (o : TxOutPoint) : filler.Agrees o Unserialize.txOutPoint :=
  all_field fun _ => all_field fun _ => all_nil _

end TxOutPoint

section Vectors

variable (fits : ℕ → Bool)

open Unserialize in
/-- The size a vector is given by `resize`. -/
def Unserialize.vectorSize : Reader ℕ := do allocate fits (← uintV)

theorem sizeAnd_agrees {α : Type} {p : Filler α} {a : α} {r : Reader α} (h : p.Agrees a r) :
    (vector (Unserialize.vectorSize fits) a p).Agrees [] (Unserialize.sizeAnd fits r) := by
  have hvector := vector_agrees (Unserialize.vectorSize fits) h
  rwa [Unserialize.vectorSize,bind_assoc] at hvector

theorem sizeAnd_yields {α : Type} {r : Reader α} {Q : α → Prop} (h : r.Yields Q) :
    (Unserialize.sizeAnd fits r).Yields fun l => ∀ a ∈ l, Q a :=
  (yields_true _).bind fun _ _ => (yields_true _).bind fun count _ => h.times count

namespace TxOut

open Unserialize in
def filler : Filler TxOut := all [
  field int64 fun _value o => { o with _value },
  field (sizeAndBytes fits) fun _keyScript o => { o with _keyScript }]

theorem filler_agrees (o : TxOut) : (filler fits).Agrees o (Unserialize.txOut fits) :=
  all_field fun _ => all_field fun _ => all_nil _

end TxOut

namespace TxWitness

open Unserialize in
/-- An element is not resized: as many bytes are read as it has. -/
def element : Filler ByteVector := fun v =>
  field (bytes v.1.length) (fun b v => ⟨b.take v.1.length,by have := v.2; simp; omega⟩) v

def filler : Filler TxWitness :=
  part TxWitness._stack (fun _stack w => { w with _stack })
    (vector (Unserialize.vectorSize fits) ByteVector.empty element)

theorem filler_agrees : (filler fits).Agrees ⟨[]⟩ (Unserialize.txWitness fits) :=
  part_agrees (sizeAnd_agrees fits (field_agrees _ _ _))

end TxWitness

namespace TxIn

/-- The default constructor. -/
def default : TxIn where
  _prevOut := ⟨.replicate 32 0,0xffffffff⟩
  _sigScript := ByteVector.empty
  _sequence := 0xffffffff
  _scriptWitness := ⟨[]⟩

open Unserialize in
/-- The witness stays as it is. -/
def filler : Filler TxIn := all [
  part TxIn._prevOut (fun _prevOut i => { i with _prevOut }) TxOutPoint.filler,
  field (sizeAndBytes fits) fun _sigScript i => { i with _sigScript },
  field uint32 fun _sequence i => { i with _sequence }]

theorem filler_agrees : (filler fits).Agrees default (Unserialize.txIn fits) :=
  all_part (TxOutPoint.filler_agrees _) (yields_true _) fun _ _ => all_field fun _ => all_field fun _ =>
    all_nil _

theorem read_yields : (Unserialize.txIn fits).Yields fun i => i._scriptWitness = ⟨[]⟩ :=
  (yields_true _).bind fun _ _ => (yields_true _).bind fun _ _ => (yields_true _).bind fun _ _ => rfl

end TxIn

namespace Transaction

def default : Transaction where
  _version := 0
  _flag := none
  _txIn := []
  _txOut := []
  _srcChain := 0xffffffff
  _dstChain := 0xffffffff
  _lockTime := 0

open Unserialize in
/-- The flag is there if the next byte is zero. -/
def flagFiller : Filler Transaction := fun tx =>
  let tx := { tx with _flag := none }
  .peek fun byte =>
    if byte = some 0 then field uint16 (fun flag tx => { tx with _flag := some flag }) tx
    else pure (.all tx)

/-- With a flag the inputs have witnesses. -/
def witnessFiller : Filler Transaction := fun tx =>
  match tx._flag with
  | some _ =>
    part Transaction._txIn (fun _txIn tx => { tx with _txIn })
      (elements (part TxIn._scriptWitness (fun _scriptWitness i => { i with _scriptWitness })
        (TxWitness.filler fits))) tx
  | none => pure (.all tx)

open Unserialize in
/-- `Transaction::Unserialize`. -/
def filler : Filler Transaction := all [
  field int32 fun _version tx => { tx with _version },
  flagFiller,
  part Transaction._txIn (fun _txIn tx => { tx with _txIn })
    (vector (vectorSize fits) TxIn.default (TxIn.filler fits)),
  part Transaction._txOut (fun _txOut tx => { tx with _txOut })
    (vector (vectorSize fits) TxOut.null (TxOut.filler fits)),
  witnessFiller fits,
  field uint32 fun _srcChain tx => { tx with _srcChain },
  field uint32 fun _dstChain tx => { tx with _dstChain },
  field uint32 fun _lockTime tx => { tx with _lockTime }]

theorem flagFiller_agrees (tx : Transaction) :
    flagFiller.Agrees tx (do pure { tx with _flag := (← Unserialize.peekFlag) }) := by
  refine congrArg Reader.peek (funext fun byte => ?_)
  by_cases hbyte : byte = some 0
  · have hfield := field_agrees Unserialize.uint16 (fun flag tx => { tx with _flag := some flag })
      { tx with _flag := none }
    simp only [if_pos hbyte]
    exact hfield
  · simp only [if_neg hbyte]
    rfl

/-- Of inputs without witnesses. -/
theorem witnessFiller_agrees (tx : Transaction) (h : ∀ i ∈ tx._txIn, i._scriptWitness = ⟨[]⟩) :
    (witnessFiller fits).Agrees tx
      (do pure { tx with _txIn := (← Unserialize.witnesses fits tx._flag tx._txIn) }) := by
  have hfilled : (elements (part TxIn._scriptWitness (fun _scriptWitness i => { i with _scriptWitness })
      (TxWitness.filler fits))).Agrees tx._txIn (Unserialize.witnesses fits (some 0) tx._txIn) := by
    refine elements_agrees fun i hi => part_agrees ?_
    rw [h i hi]
    exact TxWitness.filler_agrees fits
  obtain ⟨version,flag,txIn,txOut,srcChain,dstChain,lockTime⟩ := tx
  cases flag with
  | none => rfl
  | some flag => exact @part_agrees _ _ Transaction._txIn (fun _txIn tx => { tx with _txIn }) _ _ _ hfilled

/-- A new transaction is filled in as a transaction is read. -/
theorem filler_agrees : (filler fits).Agrees default (Unserialize.transaction fits) := by
  rw [Unserialize.transaction_eq]
  refine all_field fun version => ?_
  refine all_cons (flagFiller_agrees _) (yields_true _) fun flag _ => ?_
  refine all_part (sizeAnd_agrees fits (TxIn.filler_agrees fits))
    (sizeAnd_yields fits (TxIn.read_yields fits)) fun txIn htxIn => ?_
  refine all_part (sizeAnd_agrees fits (TxOut.filler_agrees fits _)) (yields_true _) fun txOut _ => ?_
  refine all_cons (witnessFiller_agrees fits _ htxIn) (yields_true _) fun txIn _ => ?_
  exact all_field fun _ => all_field fun _ => all_field fun _ => all_nil _

/-- A transaction that can be read back is read into a new one. -/
theorem filler_apply {tx : Transaction} (h : Unserialize.Readable fits tx) (memory : ℕ → UInt8) :
    (filler fits).apply memory (.ofBytes tx.serialize) default = tx := by
  have hrun := Unserialize.transaction_reads h memory [] 0
  rw [List.append_nil] at hrun
  exact (filler_agrees fits).apply hrun

end Transaction

end Vectors

end Tkeycoin
