import Tkeycoin.HashStream
import Tkeycoin.ObjectReading
import Tkeycoin.Stepping

/-! The hashes that block headers and transactions keep, and when they are those of the fields. -/
namespace Tkeycoin

/-- An object with the hash it keeps once it was asked for it. -/
structure Hashed (α : Type) where
  fields : α
  _hash : uint256
  _validHash : Bool

namespace Hashed

variable {α : Type} (serialize : α → Bytes)

/-- `hash()`, with the object it leaves. The stream hashes the same however the fields are cut
into writes. -/
def hash (o : Hashed α) : uint256 × Hashed α :=
  if ¬ o._validHash then
    let hs := HashStreamBuffer.run [.write (serialize o.fields)]
    let o := { o with _hash := hs.digest.1, _validHash := true }
    (o._hash,o)
  else (o._hash,o)

/-- A kept hash is that of the fields. -/
def Current (o : Hashed α) : Prop := o._validHash = true → o._hash = hash256 (serialize o.fields)

/-- What `hash()` returns is the double hash of what the object serialises to. -/
def Right (o : Hashed α) : Prop := (o.hash serialize).1 = hash256 (serialize o.fields)

variable {serialize} {o : Hashed α}

theorem hash_eq (o : Hashed α) : o.hash serialize =
    if ¬ o._validHash then (hash256 (serialize o.fields),⟨o.fields,hash256 (serialize o.fields),true⟩)
    else (o._hash,o) := by
  have hstream := (HashStreamBuffer.run_writes [serialize o.fields]).1
  simp only [List.map_cons,List.map_nil,List.flatten_cons,List.flatten_nil,List.append_nil] at hstream
  simp only [hash,hstream]

theorem right_iff : o.Right serialize ↔ o.Current serialize := by
  unfold Right Current
  rw [hash_eq]
  cases o._validHash with
  | false => simp
  | true => simp

theorem hash_current (h : o.Current serialize) : (o.hash serialize).2.Current serialize := by
  rw [hash_eq]
  cases hv : o._validHash with
  | false => simp [Current]
  | true => simpa using h

/-- Fields are changed without harm where no hash is kept, or where the hash is the same. -/
theorem setFields_current_iff (h : o.Current serialize) (fields : α) :
    Current serialize { o with fields := fields } ↔
      (o._validHash = false ∨ hash256 (serialize fields) = hash256 (serialize o.fields)) := by
  unfold Current at *
  cases hv : o._validHash with
  | false => simp
  | true => simp [h hv,eq_comm]

/-- Fields that are not serialised are of no account. -/
theorem setFields_right (h : o.Right serialize) {fields : α} (hsame : serialize fields = serialize o.fields) :
    Right serialize { o with fields := fields } :=
  right_iff.mpr ((setFields_current_iff (right_iff.mp h) fields).mpr (.inr (congrArg hash256 hsame)))

end Hashed

/-- A block header with what the node adds to it. -/
structure NodeHeader extends BlockHeader where
  _id : UInt64
  _height : UInt64

namespace NodeHeader

/-- What `Serialize` writes: not what the node adds. -/
def serialize (h : NodeHeader) : Bytes := h.toBlockHeader.serialize

/-- The default member initialisers. -/
def default : NodeHeader where
  _version := 0
  _prev := .replicate 32 0
  _merkle := .replicate 32 0
  _timestamp := 0
  _bits := 0
  _nonce := 0
  _chain := 0xffffffff
  _id := 0xffffffffffffffff
  _height := 0xffffffffffffffff

/-- `Unserialize`, which leaves what the node adds. -/
def filler : Filler NodeHeader :=
  .part NodeHeader.toBlockHeader (fun toBlockHeader h => { h with toBlockHeader }) BlockHeader.filler

/-- The header that was written is read into any header. -/
theorem filler_apply (b : BlockHeader) (memory : ℕ → UInt8) (h : NodeHeader) :
    filler.apply memory (.ofBytes b.serialize) h = { h with toBlockHeader := b } := by
  have hreads := (Unserialize.blockHeader_reads b).map fun b => { h with toBlockHeader := b }
  have hrun := hreads memory [] 0
  rw [List.append_nil] at hrun
  exact (Filler.part_agrees (BlockHeader.filler_agrees h.toBlockHeader)).apply hrun

/-- Of a header that is copied or assigned the copy goes on as the header would. -/
inductive Op
  | setId (id : UInt64)
  | setHeight (height : UInt64)
  | hash
  | unserialize (memory : ℕ → UInt8) (is : IStream)
  | reset

def new : Hashed NodeHeader := ⟨default,.replicate 32 0,false⟩

/-- `reset`, which assigns -1 to `_validHash`. -/
def reset (_ : Hashed NodeHeader) : Hashed NodeHeader := ⟨default,.replicate 32 0,true⟩

/-- The setters assert that nothing was set. -/
def step (o : Hashed NodeHeader) : Op → Option (Hashed NodeHeader)
  | .setId id =>
    if o.fields._id = 0xffffffffffffffff then some { o with fields := { o.fields with _id := id } } else none
  | .setHeight height =>
    if o.fields._height = 0xffffffffffffffff then some { o with fields := { o.fields with _height := height } }
    else none
  | .hash => some (o.hash serialize).2
  | .unserialize memory is => some { o with fields := filler.apply memory is o.fields }
  | .reset => some (reset o)

/-- The step keeps the hash right: not a reset, and fields are read where no hash is kept, or to
the same bytes. -/
def Keeps (o : Hashed NodeHeader) : Op → Prop
  | .unserialize memory is =>
    o._validHash = false ∨ serialize (filler.apply memory is o.fields) = serialize o.fields
  | .reset => False
  | _ => True

/-- The same up to collisions. -/
def KeepsHash (o : Hashed NodeHeader) : Op → Prop
  | .unserialize memory is =>
    o._validHash = false ∨
      hash256 (serialize (filler.apply memory is o.fields)) = hash256 (serialize o.fields)
  | .reset => False
  | _ => True

theorem new_right : new.Right serialize := Hashed.right_iff.mpr nofun

theorem reset_not_right (o : Hashed NodeHeader) : ¬ (reset o).Right serialize := by
  rw [Hashed.right_iff]
  intro h
  have hnull : List.Vector.replicate 32 0 ≠ hash256 (serialize default) := by decide +kernel
  exact hnull (h rfl)

theorem step_right_iff (o : Hashed NodeHeader) (op : Op) (o' : Hashed NodeHeader) (h : o.Right serialize)
    (hstep : step o op = some o') : o'.Right serialize ↔ KeepsHash o op := by
  have hcurrent := Hashed.right_iff.mp h
  cases op with
  | setId id =>
    simp only [step] at hstep
    split_ifs at hstep
    cases hstep
    exact iff_of_true (Hashed.setFields_right h rfl) trivial
  | setHeight height =>
    simp only [step] at hstep
    split_ifs at hstep
    cases hstep
    exact iff_of_true (Hashed.setFields_right h rfl) trivial
  | hash =>
    cases hstep
    exact iff_of_true (Hashed.right_iff.mpr (Hashed.hash_current hcurrent)) trivial
  | unserialize memory is =>
    cases hstep
    exact Hashed.right_iff.trans (Hashed.setFields_current_iff hcurrent _)
  | reset =>
    cases hstep
    exact iff_of_false (reset_not_right o) id

theorem Keeps.keepsHash (o : Hashed NodeHeader) (op : Op) (h : Keeps o op) : KeepsHash o op := by
  cases op with
  | unserialize memory is => exact h.imp_right (congrArg hash256)
  | reset => exact h
  | _ => trivial

/-- The hash is right in every state of a run exactly if every step keeps it. -/
theorem run_right_iff {ops : List Op} :
    (∀ before, before <+: ops → ∀ o, Stepping.run step new before = some o → o.Right serialize) ↔
      Stepping.Along step KeepsHash new ops :=
  Stepping.run_iff (fun o op o' h => step_right_iff o op o' h) new_right

end NodeHeader

namespace Transaction

/-- A transaction has no setters, and is neither copied nor reset. -/
inductive Op
  | hash
  | unserialize (fits : ℕ → Bool) (memory : ℕ → UInt8) (is : IStream)

def new : Hashed Transaction := ⟨default,.replicate 32 0,false⟩

def step (o : Hashed Transaction) : Op → Option (Hashed Transaction)
  | .hash => some (o.hash serialize).2
  | .unserialize fits memory is => some { o with fields := (filler fits).apply memory is o.fields }

/-- Fields are read where no hash is kept, or to the same bytes. -/
def Keeps (o : Hashed Transaction) : Op → Prop
  | .unserialize fits memory is =>
    o._validHash = false ∨ serialize ((filler fits).apply memory is o.fields) = serialize o.fields
  | .hash => True

/-- The same up to collisions. -/
def KeepsHash (o : Hashed Transaction) : Op → Prop
  | .unserialize fits memory is =>
    o._validHash = false ∨
      hash256 (serialize ((filler fits).apply memory is o.fields)) = hash256 (serialize o.fields)
  | .hash => True

theorem new_right : new.Right serialize := Hashed.right_iff.mpr nofun

theorem step_right_iff (o : Hashed Transaction) (op : Op) (o' : Hashed Transaction)
    (h : o.Right serialize) (hstep : step o op = some o') : o'.Right serialize ↔ KeepsHash o op := by
  have hcurrent := Hashed.right_iff.mp h
  cases op with
  | hash =>
    cases hstep
    exact iff_of_true (Hashed.right_iff.mpr (Hashed.hash_current hcurrent)) trivial
  | unserialize fits memory is =>
    cases hstep
    exact Hashed.right_iff.trans (Hashed.setFields_current_iff hcurrent _)

theorem run_right_iff {ops : List Op} :
    (∀ before, before <+: ops → ∀ o, Stepping.run step new before = some o → o.Right serialize) ↔
      Stepping.Along step KeepsHash new ops :=
  Stepping.run_iff (fun o op o' h => step_right_iff o op o' h) new_right

theorem Keeps.keepsHash (o : Hashed Transaction) (op : Op) (h : Keeps o op) : KeepsHash o op := by
  cases op with
  | hash => trivial
  | unserialize fits memory is => exact h.imp_right (congrArg hash256)

end Transaction

/-- In every state of a run, `hash()` of a header and of a transaction is the double hash of
what it serialises to, if headers are not reset and fields are read only where no hash is kept
or where they are read to the same bytes. -/
theorem Hashed.never_stale (headerOps : List NodeHeader.Op) (txOps : List Transaction.Op)
    (hheader : Stepping.Along NodeHeader.step NodeHeader.Keeps NodeHeader.new headerOps)
    (htx : Stepping.Along Transaction.step Transaction.Keeps Transaction.new txOps) :
    (∀ before, before <+: headerOps → ∀ o,
      Stepping.run NodeHeader.step NodeHeader.new before = some o → o.Right NodeHeader.serialize) ∧
    ∀ before, before <+: txOps → ∀ o,
      Stepping.run Transaction.step Transaction.new before = some o → o.Right Transaction.serialize :=
  ⟨NodeHeader.run_right_iff.mpr (hheader.mono NodeHeader.Keeps.keepsHash),
    Transaction.run_right_iff.mpr (htx.mono Transaction.Keeps.keepsHash)⟩

theorem Hashed.never_stale_once :
    (∀ before, before <+: [.setId 5,.unserialize (fun _ => 0) (.ofBytes NodeHeader.default.serialize),.hash] →
      ∀ o, Stepping.run NodeHeader.step NodeHeader.new before = some o → o.Right NodeHeader.serialize) ∧
    ∀ before, before <+: [.unserialize (fun _ => true) (fun _ => 0)
        (.ofBytes { Transaction.default with _flag := some 0x100 }.serialize),.hash] →
      ∀ o, Stepping.run Transaction.step Transaction.new before = some o → o.Right Transaction.serialize := by
  refine Hashed.never_stale _ _ ?_ ?_
  · exact .cons rfl trivial (.cons rfl (.inl rfl) (.cons rfl trivial trivial))
  · exact .cons rfl (.inl rfl) (.cons rfl trivial trivial)

/-- A hash that is kept when other fields are read, and the hash that `reset` leaves. -/
theorem Hashed.stale :
    (∃ o, Stepping.run NodeHeader.step NodeHeader.new
        [.hash,.unserialize (fun _ => 0) (.ofBytes { NodeHeader.default with _version := 1 }.serialize)] = some o ∧
      ¬ o.Right NodeHeader.serialize) ∧
    (∃ o, Stepping.run NodeHeader.step NodeHeader.new [.reset] = some o ∧ ¬ o.Right NodeHeader.serialize) ∧
    ∃ o, Stepping.run Transaction.step Transaction.new
        [.hash,.unserialize (fun _ => true) (fun _ => 0)
          (.ofBytes { Transaction.default with _flag := some 0x100 }.serialize)] = some o ∧
      ¬ o.Right Transaction.serialize := by
  refine ⟨⟨_,rfl,?_⟩,⟨_,rfl,NodeHeader.reset_not_right _⟩,⟨_,rfl,?_⟩⟩
  · unfold Hashed.Right
    decide +kernel
  · unfold Hashed.Right
    decide +kernel

end Tkeycoin
