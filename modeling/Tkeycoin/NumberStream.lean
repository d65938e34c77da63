import Tkeycoin.NumberEncoding
import Tkeycoin.TransactionReading

/-! Script numbers on a stream, which takes them as 32-bit numbers. -/
namespace Tkeycoin
namespace ScriptNum

open Reader

namespace Stream

/-- Operations that have no result. -/
inductive Undefined
  | emptyBack
  | overflow
  deriving DecidableEq

/-- `std::max<inner_type>(min,std::min<inner_type>(max,_value))`. -/
def outer (n : ScriptNum) : Int32 := Int32.ofInt (max (-2^31) (min (2^31-1) n._value.toInt))

/-- `negative ? -value : value`. -/
def absValue (value : Int32) : Except Undefined ℕ :=
  if value = Int32.minValue then .error .overflow else .ok value.toInt.natAbs

/-- The sign goes into `tmp.back()` or behind it. -/
def signed (negative : Bool) (tmp : Bytes) : Except Undefined Bytes :=
  if tmp = [] then .error .emptyBack else .ok (putSign negative tmp)

def serialize (n : ScriptNum) : Except Undefined Bytes := do
  let value := outer n
  let absValue ← absValue value
  let tmp ← signed (value < 0) (absBytes 4 absValue)
  pure (Serialization.uintV (UInt64.ofNat tmp.length) ++ tmp)

/-- `vch.back() &= ~0x80u`. -/
def clearSign : Bytes → Bytes
  | [] => []
  | [back] => [back &&& 0x7f]
  | byte :: rest => byte :: clearSign rest

/-- `_value <<= 8u; _value |= *i` from the last byte to the first. -/
def shiftIn (vch : Bytes) : ℕ := vch.reverse.foldl (fun _value byte => _value * 256 + byte.toNat) 0

/-- `max_size()` of a vector of bytes. -/
def maxSize (count : ℕ) : Bool := count < 2^63

def unserialize : Reader ScriptNum := do
  let vch ← Unserialize.sizeAndBytes maxSize
  if vch.1 = [] then pure ⟨0⟩
  else if vch.1.length > 4 then .throw
  -- `negative` is set and not used
  else pure ⟨Int64.ofInt (-(shiftIn (clearSign vch.1) : ℤ))⟩

/-- What is written for a number is read back as the number, and nothing behind it is read. -/
def RoundTrips (n : ScriptNum) : Prop := ∃ code, serialize n = .ok code ∧ Reads unserialize code n

theorem outer_toInt (n : ScriptNum) : (outer n).toInt = max (-2^31) (min (2^31-1) n._value.toInt) := by
  rw [outer,Int32.toInt_ofInt_of_le (by omega) (by omega)]

theorem outer_eq_minValue_iff (n : ScriptNum) : outer n = Int32.minValue ↔ n._value.toInt ≤ -2^31 := by
  have hmin : Int32.minValue.toInt = -2^31 := rfl
  rw [← Int32.toInt_inj,outer_toInt,hmin]
  omega

section Written

theorem absBytes_fuel (fuel extra a : ℕ) (ha : a < 256 ^ fuel) :
    absBytes (fuel + extra) a = absBytes fuel a := by
  induction fuel generalizing a with
  | zero =>
    have hz : a = 0 := by simpa using ha
    rw [hz,absBytes_zero,absBytes_zero]
  | succ fuel ih =>
    have hdiv : a / 256 < 256 ^ fuel := by
      rw [pow_succ] at ha
      omega
    rw [Nat.add_right_comm,absBytes,absBytes,ih _ hdiv]

theorem serialize_zero {n : ScriptNum} (h : n._value.toInt = 0) : serialize n = .error .emptyBack := by
  have hout : outer n = 0 := by
    rw [← Int32.toInt_inj,outer_toInt,h]
    rfl
  rw [serialize,hout]
  rfl

theorem serialize_low {n : ScriptNum} (h : n._value.toInt ≤ -2^31) : serialize n = .error .overflow := by
  rw [serialize,(outer_eq_minValue_iff n).mpr h]
  rfl

/-- Every other number is written as the bytes of the nearest 32-bit number behind their count. -/
theorem serialize_eq {n : ScriptNum} (hlow : -2^31 < n._value.toInt) (hzero : n._value.toInt ≠ 0) :
    serialize n = .ok (Serialization.uintV
        (UInt64.ofNat (ScriptNum.serialize (Int64.ofInt (outer n).toInt)).length) ++
      ScriptNum.serialize (Int64.ofInt (outer n).toInt)) := by
  have hout := outer_toInt n
  have hne : ¬ outer n = Int32.minValue := by
    rw [outer_eq_minValue_iff]
    omega
  have ha : (outer n).toInt.natAbs ≠ 0 := by omega
  have hsmall : (outer n).toInt.natAbs < 256 ^ 4 := by omega
  have hvalue : (Int64.ofInt (outer n).toInt).toInt = (outer n).toInt :=
    Int64.toInt_ofInt_of_le (by omega) (by omega)
  have hinner : Int64.ofInt (outer n).toInt ≠ 0 := by
    rw [ne_eq,← Int64.toInt_inj,hvalue,Int64.toInt_zero]
    omega
  have hneg : decide (Int64.ofInt (outer n).toInt < 0) = decide (outer n < 0) := by
    rw [decide_eq_decide,Int64.lt_iff_toInt_lt,Int32.lt_iff_toInt_lt,hvalue]
    rfl
  have htmp : absBytes 8 (outer n).toInt.natAbs = absBytes 4 (outer n).toInt.natAbs :=
    absBytes_fuel 4 4 _ hsmall
  rw [serialize,absValue,if_neg hne,ScriptNum.serialize,if_neg hinner,hvalue,hneg,htmp]
  change (signed _ (absBytes 4 _) >>= _) = _
  rw [signed,if_neg (absBytes_ne_nil 3 _ ha)]
  rfl

end Written

section Read

theorem leValue_clearSign (vch : Bytes) : leValue (clearSign vch) = unsignedMagnitude vch := by
  induction vch using clearSign.induct with
  | case1 => rfl
  | case2 back =>
    have hlow : (back &&& 0x7f).toNat = back.toNat % 128 := by
      revert back
      exact forall_byte (by decide)
    simp only [clearSign,leValue,unsignedMagnitude,hlow,Nat.mul_zero,Nat.add_zero]
  | case3 byte rest hne ih =>
    rw [clearSign,leValue,ih,unsignedMagnitude]
    · exact hne
    · exact hne

theorem shiftIn_eq (vch : Bytes) : shiftIn vch = leValue vch := by
  rw [shiftIn,List.foldl_reverse]
  induction vch with
  | nil => rfl
  | cons byte rest ih =>
    rw [List.foldr_cons,ih,leValue]
    omega

/-- Whatever its sign bit, a number is read as a negative one. -/
theorem unserialize_reads {vch : Bytes} (hne : vch ≠ []) (hlen : vch.length ≤ 4) :
    Reads unserialize (Serialization.uintV (UInt64.ofNat vch.length) ++ vch)
      ⟨Int64.ofInt (-(unsignedMagnitude vch : ℤ))⟩ := by
  have hsize : vch.length < 2^64 := by omega
  have hfits : maxSize vch.length = true := by
    rw [maxSize,decide_eq_true_eq]
    omega
  have hvch : Reads (Unserialize.sizeAndBytes maxSize) (Serialization.sizeAnd ⟨vch,hsize⟩) ⟨vch,hsize⟩ :=
    Unserialize.sizeAndBytes_reads hfits
  apply hvch.last
  simp only [if_neg hne,if_neg (Nat.not_lt.mpr hlen),shiftIn_eq,leValue_clearSign]

theorem reads_unique {α : Type} {p : Reader α} {l : Bytes} {a b : α} (ha : Reads p l a) (hb : Reads p l b) :
    a = b := by
  have h := (ha (fun _ => 0) [] 0).symm.trans (hb (fun _ => 0) [] 0)
  exact (Prod.mk.inj (Option.some.inj h)).1

end Read

/-- The number that is read where a number was written. -/
theorem serialize_unserialize {n : ScriptNum} (hlow : -2^31 < n._value.toInt) (hzero : n._value.toInt ≠ 0) :
    ∃ code, serialize n = .ok code ∧
      Reads unserialize code ⟨Int64.ofInt (-((outer n).toInt.natAbs : ℤ))⟩ := by
  have hout := outer_toInt n
  have hsize : 2 * (outer n).toInt.natAbs < 256 ^ 4 := by omega
  have hden := denoted_serialize (by decide) hsize
  have hmag := congrArg Int.natAbs hden
  rw [denoted_natAbs] at hmag
  have hne : ScriptNum.serialize (Int64.ofInt (outer n).toInt) ≠ [] := by
    intro hnil
    rw [hnil] at hmag
    simp only [unsignedMagnitude] at hmag
    omega
  refine ⟨_,serialize_eq hlow hzero,?_⟩
  rw [← hmag]
  exact unserialize_reads hne (serialize_length_le (by decide) hsize)

/-- The numbers that come back are the negative ones of 32 bits above the least one. -/
theorem roundTrip_exact_iff (n : ScriptNum) :
    RoundTrips n ↔ -2^31 < n._value.toInt ∧ n._value.toInt < 0 := by
  have hout := outer_toInt n
  constructor
  · rintro ⟨code,hcode,hread⟩
    have hlow : -2^31 < n._value.toInt := by
      by_contra hle
      rw [serialize_low (by omega)] at hcode
      cases hcode
    have hzero : n._value.toInt ≠ 0 := by
      intro h0
      rw [serialize_zero h0] at hcode
      cases hcode
    obtain ⟨code',hcode',hread'⟩ := serialize_unserialize hlow hzero
    have hsame : code' = code := Except.ok.inj (hcode'.symm.trans hcode)
    have hvalue := congrArg (fun m : ScriptNum => m._value.toInt) (reads_unique hread (hsame ▸ hread'))
    simp only [] at hvalue
    rw [Int64.toInt_ofInt_of_le (by omega) (by omega)] at hvalue
    omega
  · rintro ⟨hlow,hneg⟩
    obtain ⟨code,hcode,hread⟩ := serialize_unserialize hlow (by omega)
    have hvalue : -((outer n).toInt.natAbs : ℤ) = n._value.toInt := by omega
    rw [hvalue,Int64.ofInt_toInt] at hread
    exact ⟨code,hcode,hread⟩

/-- A number above 32 bits is written as the largest one of 32 bits. -/
theorem serialize_high {n : ScriptNum} (h : 2^31 - 1 ≤ n._value.toInt) :
    serialize n = .ok [4,0xff,0xff,0xff,0x7f] := by
  have hout : outer n = Int32.maxValue := by
    have hmax : Int32.maxValue.toInt = 2^31 - 1 := rfl
    rw [← Int32.toInt_inj,outer_toInt,hmax]
    omega
  rw [serialize,hout]
  rfl

/-- More than four bytes are refused. -/
theorem unserialize_long {vch : Bytes} (hlen : 4 < vch.length) (hsize : vch.length < 2^63)
    (memory : ℕ → UInt8) (rest : Bytes) (unset : ℕ) :
    run memory unserialize
      ⟨Serialization.uintV (UInt64.ofNat vch.length) ++ vch ++ rest,false,unset⟩ = none := by
  have hbytes : vch.length < 2^64 := by omega
  have hfits : maxSize vch.length = true := by
    rw [maxSize,decide_eq_true_eq]
    exact hsize
  have hne : vch ≠ [] := by
    rintro rfl
    simp at hlen
  have hvch : Reads (Unserialize.sizeAndBytes maxSize) (Serialization.sizeAnd ⟨vch,hbytes⟩) ⟨vch,hbytes⟩ :=
    Unserialize.sizeAndBytes_reads hfits
  change run memory unserialize ⟨Serialization.sizeAnd ⟨vch,hbytes⟩ ++ rest,false,unset⟩ = none
  rw [unserialize,hvch.run_bind]
  simp only [if_neg hne,if_pos hlen]
  rfl

/-- On a stream numbers have 32 bits: the negative ones above the least one come back, a larger number
is written as the largest one, and longer encodings are refused. -/
theorem stream_codec :
    (∀ n : ScriptNum, -2^31 < n._value.toInt → n._value.toInt < 0 → RoundTrips n) ∧
      (∀ n : ScriptNum, 2^31 ≤ n._value.toInt → serialize n = .ok [4,0xff,0xff,0xff,0x7f]) ∧
      ∀ vch : Bytes, 4 < vch.length → vch.length < 2^63 → ∀ memory rest unset,
        run memory unserialize
          ⟨Serialization.uintV (UInt64.ofNat vch.length) ++ vch ++ rest,false,unset⟩ = none :=
  ⟨fun n hlow hneg => (roundTrip_exact_iff n).mpr ⟨hlow,hneg⟩,fun _ hhigh => serialize_high (by omega),
    fun _ hlen hsize => unserialize_long hlen hsize⟩

/-- The number minus seven, the first number above 32 bits, and five bytes. -/
theorem stream_codec_seven :
    RoundTrips ⟨-7⟩ ∧ serialize ⟨2147483648⟩ = .ok [4,0xff,0xff,0xff,0x7f] ∧
      ∀ memory, run memory unserialize ⟨[5,1,2,3,4,5],false,0⟩ = none :=
  ⟨stream_codec.1 ⟨-7⟩ (by decide) (by decide),stream_codec.2.1 ⟨2147483648⟩ (by decide),
    fun memory => stream_codec.2.2 [1,2,3,4,5] (by decide) (by decide) memory [] 0⟩

/-- A number above 32 bits cannot come back: what is written for it is what the largest 32-bit number
is written as. -/
theorem stream_saturates :
    serialize ⟨2147483648⟩ = serialize ⟨2147483647⟩ ∧ ¬ RoundTrips ⟨2147483648⟩ ∧
      ¬ ∀ n : ScriptNum, RoundTrips n := by
  have hnot : ¬ RoundTrips ⟨2147483648⟩ := by
    rw [roundTrip_exact_iff]
    decide
  exact ⟨(serialize_high (by decide)).trans (serialize_high (by decide)).symm,hnot,fun h => hnot (h _)⟩

end Stream
end ScriptNum
end Tkeycoin
