import Tkeycoin.Message
import Tkeycoin.TransactionReading

/-! Requests for transactions of a block: the indexes are written as differences and added up again. -/
namespace Tkeycoin
namespace BlockTransactionsRequest

open Reader

/-- The loop in `Serialize`. The operators change the index that they are applied to, so that the difference
takes the place of the index before it. -/
def differences : UInt32 → List UInt64 → List UInt64
  | _, [] => []
  | prev, index :: rest =>
    let index := if prev = 0xffffffff then index else index - prev.toUInt64 - 1
    index :: differences index.toUInt32 rest

/-- `BlockTransactionsRequest::Serialize`. -/
def serialize (r : BlockTransactionsRequest) : Bytes :=
  Serialization.blob r._hash ++ (Serialization.uintV (UInt64.ofNat r._indexes.length) ++
    (differences 0xffffffff r._indexes).flatMap Serialization.uintV)

theorem differences_length (prev : UInt32) (l : List UInt64) : (differences prev l).length = l.length := by
  induction l generalizing prev with
  | nil => rfl
  | cons index l ih => exact congrArg (· + 1) (ih _)

/-- What is read is what was written, whatever it adds up to. -/
theorem serialize_reads {fits : ℕ → Bool} {r : BlockTransactionsRequest}
    (hsized : Unserialize.Sized fits r._indexes.length) :
    Reads (Unserialize.blockTransactionsRequest fits) r.serialize
      ⟨r._hash,Unserialize.indexes 0xffffffff (differences 0xffffffff r._indexes)⟩ := by
  have hlength := differences_length 0xffffffff r._indexes
  rw [← hlength] at hsized
  have hindexes := Unserialize.sizeAnd_reads hsized fun d _ => Unserialize.uintV_reads d
  rw [List.map_id',hlength] at hindexes
  exact (Unserialize.blob_reads r._hash).bind (hindexes.last rfl)

/-- What is taken off behind an index, and added again: nothing behind one that looks like none. -/
def offset (prev : UInt32) : UInt64 := if prev = 0xffffffff then 0 else prev.toUInt64 + 1

theorem offset_injective {p q : UInt32} (h : offset p = offset q) : p = q := by
  have hpos (n : UInt32) : n.toUInt64 + 1 ≠ 0 := by
    intro hzero
    have hlt := n.toNat_lt
    have hnat := congrArg UInt64.toNat hzero
    rw [UInt64.toNat_add,UInt32.toNat_toUInt64] at hnat
    change (n.toNat + 1) % 2^64 = 0 at hnat
    omega
  unfold offset at h
  split_ifs at h with hp hq hq
  · rw [hp,hq]
  · exact absurd h.symm (hpos q)
  · exact absurd h (hpos p)
  · exact UInt32.toUInt64_inj.mp ((UInt64.add_left_inj 1).mp h)

theorem offset_toUInt32 (prev : UInt32) : (offset prev).toUInt32 = prev + 1 := by
  unfold offset
  split_ifs with h
  · rw [h]
    rfl
  · simp

theorem differences_cons (prev : UInt32) (index : UInt64) (l : List UInt64) :
    differences prev (index :: l) = (index - offset prev) :: differences (index - offset prev).toUInt32 l := by
  have hoffset : (if prev = 0xffffffff then index else index - prev.toUInt64 - 1) = index - offset prev := by
    unfold offset
    split_ifs
    · exact (UInt64.sub_zero index).symm
    · grind
  rw [← hoffset,differences]

theorem indexes_cons (prev : UInt32) (index : UInt64) (l : List UInt64) :
    Unserialize.indexes prev (index :: l) =
      (index + offset prev) :: Unserialize.indexes (index + offset prev).toUInt32 l := by
  have hoffset : (if prev = 0xffffffff then index else index + prev.toUInt64 + 1) = index + offset prev := by
    unfold offset
    split_ifs
    · exact (UInt64.add_zero index).symm
    · exact UInt64.add_assoc _ _ _
  rw [← hoffset,Unserialize.indexes]

/-- From these indexes before them, the differences add up to the indexes. -/
def Back (written read : UInt32) (l : List UInt64) : Prop := Unserialize.indexes read (differences written l) = l

/-- The index before must be the same on both sides, for the first of the others to be added up. -/
theorem back_cons (p q : UInt32) (index : UInt64) (l : List UInt64) :
    Back p q (index :: l) ↔ p = q ∧ Back (index - offset p).toUInt32 index.toUInt32 l := by
  unfold Back
  rw [differences_cons,indexes_cons,List.cons.injEq]
  constructor
  · rintro ⟨hindex,hl⟩
    have hpq : p = q := by
      apply offset_injective
      have hback := UInt64.sub_add_cancel index (offset p)
      exact (UInt64.add_right_inj _).mp (hback.trans hindex.symm)
    rw [hindex] at hl
    exact ⟨hpq,hl⟩
  · rintro ⟨rfl,hl⟩
    rw [UInt64.sub_add_cancel]
    exact ⟨rfl,hl⟩

/-- Behind two indexes it is the same on both sides only if there was none before them. -/
theorem back_cons_cons (p : UInt32) (index next : UInt64) (l : List UInt64) :
    Back p p (index :: next :: l) ↔ p = 0xffffffff ∧ Back index.toUInt32 index.toUInt32 (next :: l) := by
  have hsame : (index - offset p).toUInt32 = index.toUInt32 ↔ p = 0xffffffff := by
    rw [UInt64.toUInt32_sub,offset_toUInt32]
    grind
  rw [back_cons]
  constructor
  · rintro ⟨-,hback⟩
    have hfirst := ((back_cons _ _ _ _).mp hback).1
    rw [hfirst] at hback
    exact ⟨hsame.mp hfirst,hback⟩
  · rintro ⟨hp,hback⟩
    rw [hsame.mpr hp]
    exact ⟨rfl,hback⟩

theorem back_nil (p q : UInt32) : Back p q [] := rfl

/-- All but the last two indexes must look like none. -/
theorem back_iff : ∀ l : List UInt64,
    Back 0xffffffff 0xffffffff l ↔ ∀ index ∈ l.take (l.length - 2), index.toUInt32 = 0xffffffff
  | [] => by simp [back_nil]
  | [index] => by simp [back_cons,back_nil]
  | [index,next] => by
    rw [back_cons_cons,back_cons]
    simp [back_nil]
  | index :: next :: third :: l => by
    have hrest := back_iff (next :: third :: l)
    have htake : (index :: next :: third :: l).take ((index :: next :: third :: l).length - 2) =
        index :: (next :: third :: l).take ((next :: third :: l).length - 2) := rfl
    rw [htake,List.forall_mem_cons,← hrest,back_cons_cons,back_cons_cons,back_cons_cons]
    tauto

/-- The round trip of a request. -/
theorem differential_iff (fits : ℕ → Bool) (memory : ℕ → UInt8) (r : BlockTransactionsRequest)
    (hsized : Unserialize.Sized fits r._indexes.length) :
    (∃ t, run memory (Unserialize.blockTransactionsRequest fits) (.ofBytes r.serialize) = some (r,t) ∧
        t.rest = [] ∧ t.fail = false) ↔
      ∀ index ∈ r._indexes.take (r._indexes.length - 2), index.toUInt32 = 0xffffffff := by
  have hrun := serialize_reads hsized memory [] 0
  rw [List.append_nil] at hrun
  rw [← back_iff]
  constructor
  · rintro ⟨t,hback,-⟩
    obtain ⟨hr,-⟩ := Prod.mk.inj (Option.some.inj (hrun.symm.trans hback))
    exact congrArg _indexes hr
  · intro hback
    obtain ⟨hash,l⟩ := r
    have hl : Unserialize.indexes 0xffffffff (differences 0xffffffff l) = l := hback
    rw [hl] at hrun
    exact ⟨_,hrun,rfl,rfl⟩

/-- Two indexes come back. -/
theorem differential_pair : ∃ t, run (fun _ => 0) (Unserialize.blockTransactionsRequest fun _ => true)
    (.ofBytes (serialize ⟨.replicate 32 0,[1,5]⟩)) = some (⟨.replicate 32 0,[1,5]⟩,t) ∧
      t.rest = [] ∧ t.fail = false :=
  (differential_iff (fun _ => true) (fun _ => 0) ⟨.replicate 32 0,[1,5]⟩ ⟨by decide,rfl⟩).mpr (by simp)

/-- Of 0, 1 and 2 the last comes back as 3. -/
theorem third_index_wrong : ¬∀ r : BlockTransactionsRequest, r._indexes.Pairwise (· < ·) → ∀ memory, ∃ t,
    run memory (Unserialize.blockTransactionsRequest fun _ => true) (.ofBytes r.serialize) = some (r,t) ∧
      t.rest = [] ∧ t.fail = false := by
  intro h
  obtain ⟨t,hrun,-⟩ := h ⟨.replicate 32 0,[0,1,2]⟩ (by decide) fun _ => 0
  have hindexes : (run (fun _ => 0) (Unserialize.blockTransactionsRequest fun _ => true)
      (.ofBytes (serialize ⟨.replicate 32 0,[0,1,2]⟩))).map (fun r => r.1._indexes) = some [0,1,2] := by
    rw [hrun]
    rfl
  exact absurd hindexes (by decide +kernel)

end BlockTransactionsRequest
end Tkeycoin
