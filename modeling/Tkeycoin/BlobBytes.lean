import Tkeycoin.BlobOrder

/-! The constructor of `Blob` from bytes that come with the highest first. -/
namespace Tkeycoin

theorem leValue_replicate_zero (n : ℕ) : leValue (List.replicate n 0) = 0 := by
  induction n with
  | zero => rfl
  | succ n ih => simp [List.replicate_succ,leValue,ih]

theorem beValue_eq_zero_iff (b : Bytes) : beValue b = 0 ↔ ∀ x ∈ b, x = 0 := by
  induction b with
  | nil => simp [beValue,leValue]
  | cons byte b ih =>
    have hpow : 256 ^ b.length ≠ 0 := pow_ne_zero _ (by decide)
    rw [beValue_cons,Nat.add_eq_zero_iff,ih,mul_eq_zero,or_iff_right hpow,List.forall_mem_cons,and_comm]
    exact and_congr_left' ⟨fun h => UInt8.toNat_inj.mp h,fun h => congrArg UInt8.toNat h⟩

namespace Blob

/-- `std::overflow_error`. -/
inductive Overflow
  | innerDataOverflowsDestination
  deriving DecidableEq

/-- `bytes`. -/
abbrev width (BITS : ℕ) : ℕ := (BITS + 7) / 8

/-- `Blob(const T& data)` of a vector or an array of bytes. -/
def ofBytes (BITS : ℕ) (data : Bytes) : Except Overflow (Blob BITS) :=
  let size := min data.length (width BITS)
  let copied : Bytes := data.reverse.take size
  let blob : Blob BITS := ⟨copied ++ List.replicate (width BITS - size) 0,by
    simp only [copied,size,width,List.length_append,List.length_take,List.length_reverse,List.length_replicate]
    omega⟩
  if (data.drop size).any (· ≠ 0) then .error .innerDataOverflowsDestination
  else .ok blob

/-- The bytes that are not copied: those in front of the last ones. -/
def dropped (BITS : ℕ) (data : Bytes) : Bytes := data.take (data.length - width BITS)

def kept (BITS : ℕ) (data : Bytes) : Bytes := data.drop (data.length - width BITS)

/-- The bytes that are looked at: those behind the first ones. -/
def examined (BITS : ℕ) (data : Bytes) : Bytes := data.drop (width BITS)

/-- The blob of a number below the limit, and an exception for any other. -/
def Constructs (BITS limit : ℕ) (data : Bytes) : Prop :=
  (beValue data < limit → ∃ blob, ofBytes BITS data = .ok blob ∧ blob.value = beValue data) ∧
    (ofBytes BITS data = .error .innerDataOverflowsDestination ↔ limit ≤ beValue data)

variable {BITS : ℕ} (data : Bytes)

theorem kept_length_le : (kept BITS data).length ≤ width BITS := by
  rw [kept,List.length_drop]
  omega

theorem beValue_dropped_kept :
    beValue data = beValue (kept BITS data) + 256 ^ (kept BITS data).length * beValue (dropped BITS data) := by
  rw [← beValue_append,dropped,kept,List.take_append_drop]

theorem reverse_take_width : data.reverse.take (width BITS) = (kept BITS data).reverse := by
  rw [kept,List.take_reverse]

/-- The blob is that of the bytes kept, and there is one exactly if the bytes looked at are all zero. -/
theorem ofBytes_spec : (∃ x ∈ examined BITS data, x ≠ 0) ∧
      ofBytes BITS data = .error .innerDataOverflowsDestination ∨
    (∀ x ∈ examined BITS data, x = 0) ∧
      ∃ blob, ofBytes BITS data = .ok blob ∧ blob.value = beValue (kept BITS data) := by
  have hexamined : data.drop (min data.length (width BITS)) = examined BITS data := by
    rw [examined]
    rcases Nat.le_total data.length (width BITS) with hle | hle
    · rw [Nat.min_eq_left hle,List.drop_length,List.drop_of_length_le hle]
    · rw [Nat.min_eq_right hle]
  have hcopied : data.reverse.take (min data.length (width BITS)) = (kept BITS data).reverse := by
    rw [← reverse_take_width,← List.length_reverse,List.take_eq_take_iff]
    omega
  unfold ofBytes
  simp only [hexamined]
  by_cases hzero : ∀ x ∈ examined BITS data, x = 0
  · refine .inr ⟨hzero,_,if_neg ?_,?_⟩
    · simpa using hzero
    · change leValue (data.reverse.take (min data.length (width BITS)) ++ List.replicate _ 0) = _
      rw [leValue_append,leValue_replicate_zero,hcopied]
      rfl
  · refine .inl ⟨by simpa using hzero,if_pos ?_⟩
    simpa using hzero

/-- A number has more digits than there is room for exactly if one of the bytes dropped is not zero. -/
theorem width_le_iff : 256 ^ width BITS ≤ beValue data ↔ ∃ x ∈ dropped BITS data, x ≠ 0 := by
  have hkept := beValue_lt (kept BITS data)
  have hsplit := @beValue_dropped_kept BITS data
  constructor
  · intro hle
    by_contra hnone
    have hzero : beValue (dropped BITS data) = 0 := (beValue_eq_zero_iff _).mpr (by simpa using hnone)
    have hpow := Nat.pow_le_pow_right (n := 256) (by decide) (@kept_length_le BITS data)
    rw [hzero,Nat.mul_zero] at hsplit
    omega
  · rintro ⟨x,hx,hne⟩
    have hpos : 0 < beValue (dropped BITS data) :=
      Nat.pos_of_ne_zero fun hzero => hne ((beValue_eq_zero_iff _).mp hzero x hx)
    -- bytes are dropped only where as many are kept as there is room for
    have hlen : (kept BITS data).length = width BITS := by
      have hdropped := List.length_pos_of_mem hx
      rw [dropped,List.length_take] at hdropped
      rw [kept,List.length_drop]
      omega
    rw [hlen] at hsplit
    have hmul := Nat.le_mul_of_pos_right (256 ^ width BITS) hpos
    omega

theorem beValue_eq_kept (h : ¬ ∃ x ∈ dropped BITS data, x ≠ 0) : beValue data = beValue (kept BITS data) := by
  have hzero : beValue (dropped BITS data) = 0 := (beValue_eq_zero_iff _).mpr (by simpa using h)
  rw [@beValue_dropped_kept BITS data,hzero,Nat.mul_zero,Nat.add_zero]

/-- What is constructed with a limit within the width is right exactly if the bytes looked at tell
whether the number is below the limit. -/
theorem constructs_limit {limit : ℕ} (hlimit : limit ≤ 256 ^ width BITS) :
    Constructs BITS limit data ↔ ((∃ x ∈ examined BITS data, x ≠ 0) ↔ limit ≤ beValue data) := by
  rcases @ofBytes_spec BITS data with ⟨hnonzero,herror⟩ | ⟨hzero,blob,hok,hvalue⟩
  · rw [Constructs,herror]
    constructor
    · rintro ⟨-,hlimit⟩
      exact iff_of_true hnonzero (hlimit.mp rfl)
    · intro h
      have hle := h.mp hnonzero
      exact ⟨fun hlt => absurd hle (Nat.not_le.mpr hlt),iff_of_true rfl hle⟩
  · have hnone : ¬ ∃ x ∈ examined BITS data, x ≠ 0 := by simpa using hzero
    rw [Constructs,hok]
    constructor
    · rintro ⟨-,hlimit⟩
      exact iff_of_false hnone fun hle => by simpa using hlimit.mpr hle
    · intro h
      have hnot : ¬ limit ≤ beValue data := fun hle => hnone (h.mpr hle)
      refine ⟨fun hlt => ⟨blob,rfl,?_⟩,iff_of_false (by simp) hnot⟩
      rw [hvalue,@beValue_eq_kept BITS data]
      rw [← width_le_iff]
      omega

theorem limit_le_iff {limit : ℕ} (hlimit : limit ≤ 256 ^ width BITS) : limit ≤ beValue data ↔
    (∃ x ∈ dropped BITS data, x ≠ 0) ∨ limit ≤ beValue (kept BITS data) := by
  by_cases hdropped : ∃ x ∈ dropped BITS data, x ≠ 0
  · exact iff_of_true (Nat.le_trans hlimit ((width_le_iff data).mpr hdropped)) (.inl hdropped)
  · rw [beValue_eq_kept data hdropped,or_iff_right hdropped]

theorem two_pow_le_width (BITS : ℕ) : 2 ^ BITS ≤ 256 ^ width BITS := by
  have h256 : (256 : ℕ) ^ width BITS = 2 ^ (8 * width BITS) := by
    rw [pow_mul]
    rfl
  have hbits : BITS ≤ 8 * width BITS := by
    rw [width]
    omega
  rw [h256]
  exact Nat.pow_le_pow_right (by decide) hbits

/-- Bytes make the blob of their number, and an exception if it does not fit into the bytes of the blob,
exactly if one of the bytes behind the first ones is not zero where one of those in front of the last
ones is not; and the same with the bits of the blob for its bytes, if a number kept that has too many
bits counts as well. -/
theorem constructs_iff (BITS : ℕ) (data : Bytes) :
    (Constructs BITS (256 ^ width BITS) data ↔
      ((∃ x ∈ examined BITS data, x ≠ 0) ↔ ∃ x ∈ dropped BITS data, x ≠ 0)) ∧
    (Constructs BITS (2 ^ BITS) data ↔ ((∃ x ∈ examined BITS data, x ≠ 0) ↔
      (∃ x ∈ dropped BITS data, x ≠ 0) ∨ 2 ^ BITS ≤ beValue (kept BITS data))) := by
  have hbits := two_pow_le_width BITS
  refine ⟨?_,?_⟩
  · rw [constructs_limit data (Nat.le_refl _),width_le_iff]
  · rw [constructs_limit data hbits,limit_le_iff data hbits]

/-- A leading zero byte in front of three bytes is refused, and a leading one byte is left out. -/
theorem leading_byte_mistaken : ¬ Constructs 24 (2 ^ 24) [0,1,2,3] ∧ ¬ Constructs 24 (2 ^ 24) [1,2,3,0] := by
  refine ⟨fun h => ?_,fun h => ?_⟩
  · have hrefused : ofBytes 24 [0,1,2,3] = .error .innerDataOverflowsDestination := rfl
    exact absurd (h.2.mp hrefused) (by decide)
  · have hmade : ofBytes 24 [1,2,3,0] = .ok ⟨[0,3,2],rfl⟩ := rfl
    exact absurd (hmade.symm.trans (h.2.mpr (by decide))) (by simp)

end Blob
end Tkeycoin
