import Tkeycoin.LittleEndian
import Mathlib.Data.Int.Basic
import Mathlib.Tactic.NormNum

/-! Script numbers: 64-bit values with a sign-and-magnitude byte form. -/
namespace Tkeycoin

inductive ScriptError
  | ok | evalFalse | opReturn
  | scriptSize | pushSize | opCount | stackSize | sigCount | pubKeyCount
  | convertionToNumber | convertionToData
  | verify | equalVerify | checkMultiSigVerify | checkSigVerify | numEqualVerify
  | badOpCode | disabledOpCode | invalidStackOperation | invalidAltStackOperation
  | unbalancedConditional
  | negativeLockTime | unsatisfiedLockTime
  | sigHashType | sigDer | minimalData | sigPushOnly | sigHighS | sigNullDummy | pubKeyType
  | cleanStack | minimalIf | sigNullFail | numericOperation
  | discourageUpgradableNops | discourageUpgradableWitnessProgram
  | witnessProgramWrongLength | witnessProgramWitnessEmpty | witnessProgramMismatch
  | witnessMalleated | witnessMalleatedP2sh | witnessUnexpected | witnessPubKeyType
  | opCodeSeparator | sigFindAndDelete
  | errorCount | notExecuted | unknownError
  deriving DecidableEq

structure ScriptNum where
  _value : Int64
  deriving DecidableEq

namespace ScriptNum

/-- `while (absvalue) { push_back(absvalue & 0xff); absvalue >>= 8; }`. -/
def absBytes : ℕ → ℕ → Bytes
  | 0, _ => []
  | fuel+1, absvalue =>
    if absvalue = 0 then [] else UInt8.ofNat absvalue :: absBytes fuel (absvalue / 256)

/-- Put the sign into the most significant bit of the last byte, or into a byte
of its own when that bit is taken. -/
def putSign (neg : Bool) : Bytes → Bytes
  | [] => []
  | [back] =>
    if back &&& 0x80 ≠ 0 then [back,if neg then 0x80 else 0]
    else if neg then [back ||| 0x80] else [back]
  | byte :: rest => byte :: putSign neg rest

/-- A 64-bit magnitude has at most eight bytes. -/
def serialize (value : Int64) : Bytes :=
  if value = 0 then []
  else putSign (value < 0) (absBytes 8 value.toInt.natAbs)

/-- The bytes are a little-endian number, `result |= vch[i] << 8 * i`. A set bit
at the very top is removed from the result and taken as the sign. -/
def setVch (vch : Bytes) : Int64 :=
  match vch.getLast? with
  | none => 0
  | some back =>
    if back &&& 0x80 ≠ 0 then
      Int64.ofInt (-((leValue vch : ℤ) - 0x80 * 256 ^ (vch.length - 1)))
    else Int64.ofInt (leValue vch)

def nDefaultMaxNumSize : ℕ := 4

/-- The last byte carries no magnitude, and no sign that the byte before could not carry. -/
def nonMinimal (vch : Bytes) : Bool :=
  match vch.reverse with
  | [] => false
  | [back] => back &&& 0x7f == 0
  | back :: before :: _ => back &&& 0x7f == 0 && before &&& 0x80 == 0

/-- The constructor from bytes. -/
def ofData (vch : Bytes) (fRequireMinimal : Bool) (nMaxNumSize : ℕ) : Except ScriptError ScriptNum :=
  if vch.length > nMaxNumSize then .error .convertionToNumber
  else if fRequireMinimal && nonMinimal vch then .error .convertionToNumber
  else .ok ⟨setVch vch⟩

def ofBool (b : Bool) : ScriptNum := ⟨if b then 1 else 0⟩

def ofNat (n : ℕ) : ScriptNum := ⟨Int64.ofNat n⟩

/-- `operator-()`. -/
def neg (n : ScriptNum) : Except ScriptError ScriptNum :=
  if n._value = Int64.minValue then .error .numericOperation else .ok ⟨-n._value⟩

/-- `getint()` saturates at the ends of `int32_t`. -/
def getint (n : ScriptNum) : Int32 :=
  if n._value.toInt ≥ 2^31-1 then Int32.maxValue
  else if n._value.toInt ≤ -2^31 then Int32.minValue
  else Int32.ofInt n._value.toInt

def getvch (n : ScriptNum) : Bytes := serialize n._value

/-- The magnitude with the top bit of the last byte left out. -/
def unsignedMagnitude : Bytes → ℕ
  | [] => 0
  | [back] => back.toNat % 128
  | byte :: rest => byte.toNat + 256 * unsignedMagnitude rest

def signBit (vch : Bytes) : Prop := ∃ back, vch.getLast? = some back ∧ back &&& 0x80 ≠ 0

/-- A property of bytes checked at every byte. -/
theorem forall_byte {p : UInt8 → Prop} (h : ∀ i j : Fin 16, p (UInt8.ofNat (16 * i + j))) (b : UInt8) : p b := by
  have hb : b.toNat < 256 := b.toNat_lt
  have hp := h ⟨b.toNat / 16,by omega⟩ ⟨b.toNat % 16,by omega⟩
  rwa [show 16 * (b.toNat / 16) + b.toNat % 16 = b.toNat from Nat.div_add_mod _ _,UInt8.ofNat_toNat] at hp

theorem and_0x80_eq_zero_iff (b : UInt8) : b &&& 0x80 = 0 ↔ b.toNat < 128 := by
  revert b
  exact forall_byte (by decide)

theorem or_0x80 (b : UInt8) : (b ||| 0x80).toNat % 128 = b.toNat % 128 ∧ (b ||| 0x80) &&& 0x80 ≠ 0 := by
  revert b
  exact forall_byte (by decide)

theorem unsignedMagnitude_cons (byte back : UInt8) (rest : Bytes) :
    unsignedMagnitude (byte :: back :: rest) = byte.toNat + 256 * unsignedMagnitude (back :: rest) :=
  rfl

theorem signBit_cons (byte back : UInt8) (rest : Bytes) :
    signBit (byte :: back :: rest) ↔ signBit (back :: rest) := by
  simp [signBit,List.getLast?_cons_cons]

theorem leValue_of_signBit (vch : Bytes) (h : signBit vch) :
    leValue vch = unsignedMagnitude vch + 0x80 * 256 ^ (vch.length - 1) := by
  induction vch using unsignedMagnitude.induct with
  | case1 => simp [signBit] at h
  | case2 back =>
    have hb : ¬ back.toNat < 128 := by
      rw [← and_0x80_eq_zero_iff]
      simpa [signBit] using h
    have := back.toNat_lt
    simp [leValue,unsignedMagnitude]
    omega
  | case3 byte rest hne ih =>
    cases rest with
    | nil => exact absurd rfl hne
    | cons back rest =>
      have hr := ih ((signBit_cons _ _ _).mp h)
      rw [leValue,hr,unsignedMagnitude_cons]
      simp only [List.length_cons,Nat.add_sub_cancel,pow_succ]
      ring

theorem leValue_of_not_signBit (vch : Bytes) (h : ¬ signBit vch) :
    leValue vch = unsignedMagnitude vch := by
  induction vch using unsignedMagnitude.induct with
  | case1 => rfl
  | case2 back =>
    have hb : back.toNat < 128 := by
      rw [← and_0x80_eq_zero_iff]
      simpa [signBit] using h
    simp [leValue,unsignedMagnitude]
    omega
  | case3 byte rest hne ih =>
    cases rest with
    | nil => exact absurd rfl hne
    | cons back rest =>
      have hr := ih (fun hs => h ((signBit_cons _ _ _).mpr hs))
      rw [leValue,hr,unsignedMagnitude_cons]

/-- Decoding is sign and magnitude. -/
theorem setVch_eq (vch : Bytes) :
    (signBit vch → setVch vch = Int64.ofInt (-(unsignedMagnitude vch : ℤ))) ∧
      (¬ signBit vch → setVch vch = Int64.ofInt (unsignedMagnitude vch)) := by
  constructor
  · intro h
    obtain ⟨back,hb,h80⟩ := h
    have hm := leValue_of_signBit vch ⟨back,hb,h80⟩
    simp only [setVch,hb,h80,hm,ne_eq,not_false_eq_true,if_true]
    congr 1
    push_cast
    ring
  · intro h
    rw [← leValue_of_not_signBit vch h]
    cases hb : vch.getLast? with
    | none =>
      have hv : vch = [] := by simpa using hb
      simp [setVch,hv,leValue]
    | some back =>
      have h80 : ¬ back &&& 0x80 ≠ 0 := fun hc => h ⟨back,hb,hc⟩
      simp only [setVch,hb,h80,if_false]

theorem absBytes_ne_nil (fuel a : ℕ) (ha : a ≠ 0) : absBytes (fuel+1) a ≠ [] := by
  simp [absBytes,ha]

/-- With fuel for all its bytes the loop writes the magnitude in base 256. -/
theorem leValue_absBytes (fuel a : ℕ) (ha : a < 256 ^ fuel) : leValue (absBytes fuel a) = a := by
  induction fuel generalizing a with
  | zero => simp [absBytes,leValue] at ha ⊢; omega
  | succ fuel ih =>
    by_cases h : a = 0
    · simp [absBytes,h,leValue]
    · have hd : a / 256 < 256 ^ fuel := by
        rw [pow_succ] at ha
        omega
      simp [absBytes,h,leValue,ih _ hd]
      omega

/-- Signing bytes keeps their magnitude and records the sign. -/
theorem putSign_spec (neg : Bool) (bytes : Bytes) (h : bytes ≠ []) :
    unsignedMagnitude (putSign neg bytes) = leValue bytes ∧
      (signBit (putSign neg bytes) ↔ neg = true) ∧ putSign neg bytes ≠ [] := by
  induction bytes using putSign.induct neg with
  | case1 => exact absurd rfl h
  | case2 back h80 =>
    cases neg <;> simp [putSign,h80,unsignedMagnitude,leValue,signBit]
  | case3 back h80 hneg =>
    subst hneg
    have hb : back.toNat < 128 := by
      rw [← and_0x80_eq_zero_iff]
      simpa using h80
    have ho := or_0x80 back
    simp only [putSign,h80,if_false,if_true,unsignedMagnitude,leValue,signBit]
    refine ⟨by omega,by simp [ho.2],by simp⟩
  | case4 back h80 hneg =>
    have hb : back.toNat < 128 := by
      rw [← and_0x80_eq_zero_iff]
      simpa using h80
    have hz : back &&& 0x80 = 0 := by simpa using h80
    have hn : neg = false := by simpa using hneg
    subst hn
    simp [putSign,hz,unsignedMagnitude,leValue,signBit]
    omega
  | case5 byte rest hne ih =>
    have hr : rest ≠ [] := hne
    obtain ⟨hm,hs,hnil⟩ := ih hr
    cases hp : putSign neg rest with
    | nil => exact absurd hp hnil
    | cons back tail =>
      rw [hp] at hm hs
      rw [putSign,hp]
      · refine ⟨?_,?_,by simp⟩
        · rw [unsignedMagnitude,hm,leValue]
          simp
        · rw [signBit_cons,hs]
      · exact hne

theorem natAbs_toInt_lt (v : Int64) : v.toInt.natAbs < 256 ^ 8 := by
  have h₁ := v.toInt_lt
  have h₂ := v.le_toInt
  norm_num at *
  omega

/-- The bytes written for a number decode back as that number. -/
theorem setVch_serialize (v : Int64) : setVch (serialize v) = v := by
  by_cases hv : v = 0
  · subst hv
    decide
  have ha : v.toInt.natAbs ≠ 0 := by
    intro h
    apply hv
    rw [← Int64.toInt_inj]
    simpa using h
  obtain ⟨hm,hs,-⟩ := putSign_spec (v < 0) (absBytes 8 v.toInt.natAbs) (absBytes_ne_nil 7 _ ha)
  rw [leValue_absBytes 8 _ (natAbs_toInt_lt v)] at hm
  rw [serialize,if_neg hv]
  by_cases hneg : v < 0
  · have hlt : v.toInt < 0 := by simpa [Int64.lt_iff_toInt_lt] using hneg
    rw [(setVch_eq _).1 (hs.mpr (by simpa using hneg)),hm]
    have he : -(v.toInt.natAbs : ℤ) = v.toInt := by omega
    rw [he,Int64.ofInt_toInt]
  · have hge : ¬ v.toInt < 0 := by simpa [Int64.lt_iff_toInt_lt] using hneg
    rw [(setVch_eq _).2 (fun hc => hneg (by simpa using hs.mp hc)),hm]
    have he : (v.toInt.natAbs : ℤ) = v.toInt := by omega
    rw [he,Int64.ofInt_toInt]

/-- Only zero is written without a nonzero byte. -/
theorem serialize_any_ne_zero (v : Int64) : (serialize v).any (· != 0) = (v != 0) := by
  have hall : ∀ bytes : Bytes, bytes.any (· != 0) = false → unsignedMagnitude bytes = 0 := by
    intro bytes
    induction bytes using unsignedMagnitude.induct with
    | case1 => simp [unsignedMagnitude]
    | case2 back => simp_all [unsignedMagnitude]
    | case3 byte rest hne ih =>
      intro hb
      simp only [List.any_cons,Bool.or_eq_false_iff,bne_eq_false_iff_eq] at hb
      rw [unsignedMagnitude,ih hb.2,hb.1]
      · rfl
      · exact hne
  by_cases hv : v = 0
  · subst hv
    decide
  cases h : (serialize v).any (· != 0) with
  | true => simp [hv]
  | false =>
    exfalso
    have h0 := hall _ h
    have hd := setVch_serialize v
    have hz : setVch (serialize v) = 0 := by
      by_cases hs : signBit (serialize v)
      · rw [(setVch_eq _).1 hs,h0]
        rfl
      · rw [(setVch_eq _).2 hs,h0]
        rfl
    exact hv (hd.symm.trans hz)

/-- `getint()` is the nearest 32-bit number. -/
theorem getint_toInt (n : ScriptNum) :
    n.getint.toInt = max (-2^31) (min (2^31-1) n._value.toInt) := by
  unfold getint
  split_ifs with h₁ h₂
  · have hmax : Int32.maxValue.toInt = 2^31-1 := rfl
    omega
  · have hmin : Int32.minValue.toInt = -2^31 := rfl
    omega
  · rw [Int32.toInt_ofInt_of_le (by omega) (by omega)]
    omega

theorem setVch_singleton_lt (back : UInt8) : (setVch [back]).toInt < 128 := by
  revert back
  exact forall_byte (by decide)

/-- A number above 255 does not fit a byte. -/
theorem two_le_length_getvch {n : ScriptNum} (h : n.getint > 0xff) : 2 ≤ n.getvch.length := by
  by_contra hl
  have hround := setVch_serialize n._value
  have hint := getint_toInt n
  have hgt : n.getint.toInt > 255 := by simpa [Int32.lt_iff_toInt_lt] using h
  have hsmall : n._value.toInt < 128 := by
    rw [← hround]
    rcases hv : serialize n._value with _ | ⟨back,_ | ⟨b,rest⟩⟩
    · decide
    · exact setVch_singleton_lt back
    · simp [getvch,hv] at hl
  omega

end ScriptNum
end Tkeycoin
