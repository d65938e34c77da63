import Mathlib.Data.BitVec
import Mathlib.Tactic.Common

/-! `Flags<E>`: sets of enumeration constants, kept in the word the class
template picks from `sizeof(E)`. -/
namespace Tkeycoin

/-- Width in bits of `helper<BITS>::type`. Past 64 the template falls back to
`sizeof(uintmax_t) / CHAR_BIT` bytes, which is one. -/
def helper (BITS : ℕ) : ℕ :=
  if BITS ≤ 8 then 8 else if BITS ≤ 16 then 16 else if BITS ≤ 32 then 32
  else if BITS ≤ 64 then 64 else 8

/-- An enumeration: its size in bytes and the integers behind its constants. -/
class FlagType (E : Type) where
  sizeof : ℕ
  toInt : E → ℕ

/-- The template hands `sizeof(FlagType)`, a number of bytes, to `helper`. -/
abbrev Flags.width (E : Type) [FlagType E] : ℕ := helper (FlagType.sizeof E)

structure Flags (E : Type) [FlagType E] where
  _flags : BitVec (Flags.width E)
  deriving DecidableEq

namespace Flags

variable {E : Type} [FlagType E]

/-- `static_cast<type>(flag)`. -/
def cast (flag : E) : BitVec (width E) := BitVec.ofNat _ (FlagType.toInt flag)

/-- The default constructor. -/
def empty : Flags E := ⟨0⟩

def isSet (flags : Flags E) (flag : E) : Bool := (flags._flags &&& cast flag) != 0

/-- The masked copy is taken of a fresh object, not of `flags`. -/
def mask (_flags : Flags E) (mask : BitVec (width E)) : Flags E :=
  let res : Flags E := empty
  ⟨res._flags &&& mask⟩

/-- `operator|(const Flags&, const FlagType&)`. -/
def or (flags : Flags E) (flag : E) : Flags E := ⟨flags._flags ||| cast flag⟩

/-- A set written as its constants joined by `operator|`. -/
def ofList (constants : List E) : Flags E := constants.foldl or empty

@[simp] theorem empty_isSet (flag : E) : (empty : Flags E).isSet flag = false := by
  simp [isSet,empty]

@[simp] theorem mask_isSet (flags : Flags E) (m : BitVec (width E)) (flag : E) :
    (flags.mask m).isSet flag = false := by
  simp [isSet,mask,empty]

theorem isSet_iff (flags : Flags E) (flag : E) :
    flags.isSet flag = true ↔
      ∃ i, flags._flags.getLsbD i = true ∧ (cast flag : BitVec (width E)).getLsbD i = true := by
  rw [isSet,bne_iff_ne,ne_eq,← not_iff_not,not_not]
  constructor
  · rintro h ⟨i,hi⟩
    have h₁ := congrArg (fun b => b.getLsbD i) h
    simp [hi] at h₁
  · intro h
    apply BitVec.eq_of_getLsbD_eq
    intro i _
    rw [BitVec.getLsbD_and]
    cases hf : flags._flags.getLsbD i with
    | false => simp
    | true =>
      cases hc : (cast flag : BitVec (width E)).getLsbD i with
      | false => simp
      | true => exact absurd ⟨i,hf,hc⟩ h

end Flags

/-- Script verification flags. -/
inductive ScriptVerifyFlags
  | none | p2sh | strictEnc | verifyDerSig | lowS | nullDummy | sigPushOnly | minimalData
  | discourageUpgradableNops | cleanStack | checkLockTimeVerify | checkSequenceVerify
  | witness | discourageUpgradableWitnessProgram | minimalIf | nullFail
  | witnessPubKeyType | constScriptCode
  deriving DecidableEq

namespace ScriptVerifyFlags

def toInt : ScriptVerifyFlags → ℕ
  | none => 0
  | p2sh => 1 <<< 0
  | strictEnc => 1 <<< 1
  | verifyDerSig => 1 <<< 2
  | lowS => 1 <<< 3
  | nullDummy => 1 <<< 4
  | sigPushOnly => 1 <<< 5
  | minimalData => 1 <<< 6
  | discourageUpgradableNops => 1 <<< 7
  | cleanStack => 1 <<< 8
  | checkLockTimeVerify => 1 <<< 9
  | checkSequenceVerify => 1 <<< 10
  | witness => 1 <<< 11
  | discourageUpgradableWitnessProgram => 1 <<< 12
  | minimalIf => 1 <<< 13
  | nullFail => 1 <<< 14
  | witnessPubKeyType => 1 <<< 15
  | constScriptCode => 1 <<< 16

/-- A scoped enumeration without a fixed type is an `int`. -/
instance : FlagType ScriptVerifyFlags := ⟨4,toInt⟩

end ScriptVerifyFlags

/-- Signature hash types. -/
inductive SignatureHashType
  | sighashAll | sighashNone | sighashSingle | sighashAnyoneCanPay
  deriving DecidableEq

namespace SignatureHashType

def toInt : SignatureHashType → ℕ
  | sighashAll => 1
  | sighashNone => 2
  | sighashSingle => 3
  | sighashAnyoneCanPay => 0x80

instance : FlagType SignatureHashType := ⟨4,toInt⟩

end SignatureHashType
end Tkeycoin
