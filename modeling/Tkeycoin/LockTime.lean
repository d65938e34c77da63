import Tkeycoin.NumberEncoding
import Tkeycoin.SignatureHash
import Tkeycoin.StackEffects
import Mathlib.Data.Nat.Bitwise

/-! CHECKLOCKTIMEVERIFY and CHECKSEQUENCEVERIFY against the transaction that spends. -/
namespace Tkeycoin

open ActionLogic

def Script.LOCKTIME_THRESHOLD : Int64 := 500000000

namespace TxIn

def SEQUENCE_FINAL : UInt32 := 0xffffffff

/-- Bit 22. -/
def SEQUENCE_LOCKTIME_TYPE_FLAG : Int64 := 0x400000

def SEQUENCE_LOCKTIME_MASK : Int64 := 0xffff

end TxIn

namespace GenericTransactionSignatureChecker

open TxIn Interpreter

variable (c : GenericTransactionSignatureChecker)

/-- `txTo->txIn(nIn)`, which throws beyond the inputs. -/
def input : Except CheckerStop TxIn :=
  match c.txTo.txIn c.nIn.toNat with
  | some txIn => .ok txIn
  | none => .error .exception

/-- A `uint32_t` in an `int64_t`. -/
def widen (n : UInt32) : Int64 := Int64.ofInt n.toNat

def CheckLockTime (lockTime : ScriptNum) : Except CheckerStop Bool := do
  let txLockTime := widen c.txTo._lockTime
  if ¬ ((txLockTime < Script.LOCKTIME_THRESHOLD ∧ lockTime._value < Script.LOCKTIME_THRESHOLD) ∨
      (txLockTime ≥ Script.LOCKTIME_THRESHOLD ∧ lockTime._value ≥ Script.LOCKTIME_THRESHOLD)) then
    return false
  if lockTime._value > txLockTime then return false
  let txIn ← c.input
  if SEQUENCE_FINAL = txIn._sequence then return false
  return true

def CheckSequence (nSequence : ScriptNum) : Except CheckerStop Bool := do
  let txIn ← c.input
  let txToSequence := widen txIn._sequence
  if c.txTo._version.toUInt32 < 2 then return false
  if txToSequence &&& SEQUENCE_LOCKTIME_DISABLE_FLAG ≠ 0 then return false
  let nLockTimeMask := SEQUENCE_LOCKTIME_TYPE_FLAG ||| SEQUENCE_LOCKTIME_MASK
  let txToSequenceMasked := txToSequence &&& nLockTimeMask
  let nSequenceMasked := nSequence._value &&& nLockTimeMask
  if ¬ ((txToSequenceMasked < SEQUENCE_LOCKTIME_TYPE_FLAG ∧
        nSequenceMasked < SEQUENCE_LOCKTIME_TYPE_FLAG) ∨
      (txToSequenceMasked ≥ SEQUENCE_LOCKTIME_TYPE_FLAG ∧
        nSequenceMasked ≥ SEQUENCE_LOCKTIME_TYPE_FLAG)) then
    return false
  if nSequenceMasked > txToSequenceMasked then return false
  return true

/-- Both lock times are heights or both are times, the transaction's is not before `n`, and the input is
not final. -/
def FinalFrom (n : ℕ) : Prop :=
  (n < 500000000 ↔ c.txTo._lockTime.toNat < 500000000) ∧ n ≤ c.txTo._lockTime.toNat ∧
    ∃ txIn, c.txTo.txIn c.nIn.toNat = some txIn ∧ txIn._sequence ≠ 0xffffffff

/-- The low 16 bits of a sequence. -/
def masked (n : ℕ) : ℕ := n % 2^16

/-- The version, as a number without a sign, is two or more, and the sequence of the input is in force,
of the same type as `n` and not before it. -/
def SequenceFrom (n : ℕ) : Prop :=
  2 ≤ c.txTo._version.toUInt32.toNat ∧
    ∃ txIn, c.txTo.txIn c.nIn.toNat = some txIn ∧ txIn._sequence.toNat.testBit 31 = false ∧
      n.testBit 22 = txIn._sequence.toNat.testBit 22 ∧ masked n ≤ masked txIn._sequence.toNat

section Bits

theorem widen_toInt (n : UInt32) : (widen n).toInt = n.toNat := by
  have hn := n.toNat_lt
  exact Int64.toInt_ofInt_of_le (by omega) (by omega)

theorem toInt_eq_toNat {a : Int64} (h : 0 ≤ a.toInt) : a.toInt = a.toBitVec.toNat := by
  have hcond : a.toInt = if 2 * a.toBitVec.toNat < 2^64 then (a.toBitVec.toNat : ℤ)
      else (a.toBitVec.toNat : ℤ) - (2^64 : ℕ) := BitVec.toInt_eq_toNat_cond a.toBitVec
  have hlt := a.toBitVec.isLt
  split_ifs at hcond with hsmall
  · exact hcond
  · omega

/-- On numbers that are not negative the bits are those of the natural number. -/
theorem and_toInt {a b : Int64} (ha : 0 ≤ a.toInt) (hb : 0 ≤ b.toInt) :
    (a &&& b).toInt = (a.toInt.toNat &&& b.toInt.toNat : ℕ) := by
  have hnat : (a &&& b).toBitVec.toNat = a.toBitVec.toNat &&& b.toBitVec.toNat := BitVec.toNat_and _ _
  have hle := Nat.and_le_left (n := a.toBitVec.toNat) (m := b.toBitVec.toNat)
  have hcond : (a &&& b).toInt = if 2 * (a &&& b).toBitVec.toNat < 2^64 then ((a &&& b).toBitVec.toNat : ℤ)
      else ((a &&& b).toBitVec.toNat : ℤ) - (2^64 : ℕ) := BitVec.toInt_eq_toNat_cond (a &&& b).toBitVec
  have ha' := toInt_eq_toNat ha
  have hb' := toInt_eq_toNat hb
  have hsmall := a.toInt_lt
  rw [if_pos (by omega),hnat] at hcond
  rw [hcond,ha',hb',Int.toNat_natCast,Int.toNat_natCast]

/-- The disable flag is bit 31. -/
theorem disable_iff {a : Int64} (h : 0 ≤ a.toInt) :
    a &&& SEQUENCE_LOCKTIME_DISABLE_FLAG ≠ 0 ↔ a.toInt.toNat.testBit 31 = true := by
  have hflag : SEQUENCE_LOCKTIME_DISABLE_FLAG.toInt = (2^31 : ℕ) := rfl
  have hand := and_toInt h (b := SEQUENCE_LOCKTIME_DISABLE_FLAG) (by decide)
  rw [hflag,Int.toNat_natCast,Nat.and_two_pow] at hand
  rw [ne_eq,← Int64.toInt_inj,hand,Int64.toInt_zero]
  cases a.toInt.toNat.testBit 31 <;> simp

/-- The mask keeps the type bit and the low bits. -/
theorem mask_bits (n : ℕ) : n &&& (2^22 ||| (2^16 - 1)) = (n.testBit 22).toNat * 2^22 + masked n := by
  have hlow : masked n < 2^22 := (Nat.mod_lt n (Nat.two_pow_pos 16)).trans (by decide)
  rw [Nat.and_or_distrib_left,Nat.and_two_pow,Nat.and_two_pow_sub_one_eq_mod]
  rw [Nat.mul_comm,← masked,← Nat.two_pow_add_eq_or_of_lt hlow]

theorem mask_toInt {a : Int64} (h : 0 ≤ a.toInt) :
    (a &&& (SEQUENCE_LOCKTIME_TYPE_FLAG ||| SEQUENCE_LOCKTIME_MASK)).toInt =
      ((a.toInt.toNat.testBit 22).toNat * 2^22 + masked a.toInt.toNat : ℕ) := by
  have hmask : (SEQUENCE_LOCKTIME_TYPE_FLAG ||| SEQUENCE_LOCKTIME_MASK).toInt.toNat = 2^22 ||| (2^16 - 1) := rfl
  have hand := and_toInt h (b := SEQUENCE_LOCKTIME_TYPE_FLAG ||| SEQUENCE_LOCKTIME_MASK) (by decide)
  rw [hand,hmask,mask_bits]

theorem masked_lt (n : ℕ) : masked n < 2^16 := Nat.mod_lt n (by decide)

/-- The comparisons with the type flag compare the type bits. -/
theorem same_type (x y : Bool) {m k : ℕ} (hm : m < 2^16) (hk : k < 2^16) :
    (((y.toNat * 2^22 + k : ℕ) : ℤ) < 2^22 ∧ ((x.toNat * 2^22 + m : ℕ) : ℤ) < 2^22) ∨
        ((2^22 : ℤ) ≤ (y.toNat * 2^22 + k : ℕ) ∧ (2^22 : ℤ) ≤ (x.toNat * 2^22 + m : ℕ)) ↔ x = y := by
  cases x <;> cases y <;> simp only [Bool.toNat_false,Bool.toNat_true] <;>
    simp only [reduceCtorEq,iff_true,iff_false] <;> omega

end Bits

/-- The input is looked up behind the comparisons. -/
theorem CheckLockTime_eq (lockTime : ScriptNum) :
    c.CheckLockTime lockTime =
      if ¬ (((c.txTo._lockTime.toNat : ℤ) < 500000000 ∧ lockTime._value.toInt < 500000000) ∨
          (500000000 ≤ (c.txTo._lockTime.toNat : ℤ) ∧ 500000000 ≤ lockTime._value.toInt)) then .ok false
      else if (c.txTo._lockTime.toNat : ℤ) < lockTime._value.toInt then .ok false
      else c.input.map fun txIn => decide (SEQUENCE_FINAL ≠ txIn._sequence) := by
  have hthreshold : Script.LOCKTIME_THRESHOLD.toInt = 500000000 := rfl
  simp only [CheckLockTime,Int64.lt_iff_toInt_lt,ge_iff_le,gt_iff_lt,Int64.le_iff_toInt_le,hthreshold,
    widen_toInt]
  split_ifs
  · rfl
  · rcases c.input with stop | txIn
    · rfl
    · change (if SEQUENCE_FINAL = txIn._sequence then _ else _) = Except.ok _
      by_cases hfinal : SEQUENCE_FINAL = txIn._sequence
      · rw [if_pos hfinal]
        exact congrArg Except.ok (decide_eq_false (not_not.mpr hfinal)).symm
      · rw [if_neg hfinal]
        exact congrArg Except.ok (decide_eq_true hfinal).symm
  · rfl

theorem map_input_iff (f : TxIn → Bool) :
    c.input.map f = .ok true ↔ ∃ txIn, c.txTo.txIn c.nIn.toNat = some txIn ∧ f txIn = true := by
  rw [input]
  rcases c.txTo.txIn c.nIn.toNat with _ | txIn
  · simp [Except.map]
  · simp [Except.map]

theorem CheckLockTime_iff (lockTime : ScriptNum) (h : 0 ≤ lockTime._value.toInt) :
    c.CheckLockTime lockTime = .ok true ↔ c.FinalFrom lockTime._value.toInt.toNat := by
  have hfalse : (Except.ok false : Except CheckerStop Bool) ≠ .ok true := by decide
  rw [CheckLockTime_eq,FinalFrom]
  split_ifs with htype hlate
  · apply iff_of_false hfalse
    rintro ⟨-,hle,-⟩
    omega
  · have hsame : lockTime._value.toInt.toNat < 500000000 ↔ c.txTo._lockTime.toNat < 500000000 := by omega
    have hle : lockTime._value.toInt.toNat ≤ c.txTo._lockTime.toNat := by omega
    rw [and_iff_right hsame,and_iff_right hle,map_input_iff]
    simp only [decide_eq_true_eq,SEQUENCE_FINAL,ne_comm]
  · apply iff_of_false hfalse
    rintro ⟨hsame,-,-⟩
    omega

/-- The input is looked up first. -/
theorem CheckSequence_eq (nSequence : ScriptNum) (h : 0 ≤ nSequence._value.toInt) :
    c.CheckSequence nSequence = c.input.map fun txIn =>
      decide (2 ≤ c.txTo._version.toUInt32.toNat ∧ txIn._sequence.toNat.testBit 31 = false ∧
        nSequence._value.toInt.toNat.testBit 22 = txIn._sequence.toNat.testBit 22 ∧
        masked nSequence._value.toInt.toNat ≤ masked txIn._sequence.toNat) := by
  have hwiden (n : UInt32) : (widen n).toInt.toNat = n.toNat := by rw [widen_toInt,Int.toNat_natCast]
  have hnonneg (n : UInt32) : 0 ≤ (widen n).toInt := by
    rw [widen_toInt]
    exact Int.natCast_nonneg _
  have htype : SEQUENCE_LOCKTIME_TYPE_FLAG.toInt = 2^22 := rfl
  have htwo : (2 : UInt32).toNat = 2 := rfl
  rw [CheckSequence]
  rcases c.input with stop | txIn
  · rfl
  · simp only [Int64.lt_iff_toInt_lt,ge_iff_le,gt_iff_lt,Int64.le_iff_toInt_le,mask_toInt h,
      mask_toInt (hnonneg _),disable_iff (hnonneg _),hwiden,htype,UInt32.lt_iff_toNat_lt,htwo]
    change (if c.txTo._version.toUInt32.toNat < 2 then Except.ok false else _) = Except.ok _
    have htypes := same_type (nSequence._value.toInt.toNat.testBit 22) (txIn._sequence.toNat.testBit 22)
      (masked_lt nSequence._value.toInt.toNat) (masked_lt txIn._sequence.toNat)
    split_ifs with hversion hdisabled hsame hlate
    · exact congrArg Except.ok (decide_eq_false fun hc => by omega).symm
    · exact congrArg Except.ok (decide_eq_false fun hc => by simp [hdisabled] at hc).symm
    · rw [htypes.mp hsame] at hlate
      exact congrArg Except.ok (decide_eq_false fun hc => by omega).symm
    · have heq := htypes.mp hsame
      rw [heq] at hlate
      exact congrArg Except.ok (decide_eq_true ⟨by omega,by simpa using hdisabled,heq,by omega⟩).symm
    · exact congrArg Except.ok (decide_eq_false fun hc => hsame (htypes.mpr hc.2.2.1)).symm

theorem CheckSequence_iff (nSequence : ScriptNum) (h : 0 ≤ nSequence._value.toInt) :
    c.CheckSequence nSequence = .ok true ↔ c.SequenceFrom nSequence._value.toInt.toNat := by
  rw [CheckSequence_eq c nSequence h,map_input_iff,SequenceFrom]
  simp only [decide_eq_true_eq]
  constructor
  · rintro ⟨txIn,hin,hversion,hmet⟩
    exact ⟨hversion,txIn,hin,hmet⟩
  · rintro ⟨hversion,txIn,hin,hmet⟩
    exact ⟨txIn,hin,hversion,hmet⟩

end GenericTransactionSignatureChecker

/-- An interpreter whose checker looks at a transaction. -/
def Env.over (env : Env) (c : GenericTransactionSignatureChecker) : Env :=
  { env with checker :=
      { env.checker with checkLockTime := c.CheckLockTime, checkSequence := c.CheckSequence } }

namespace Interpreter

open GenericTransactionSignatureChecker

/-- The bytes on top are a number of at most five bytes, in its minimal form where this is required. -/
def Operand (env : Env) (s : Interpreter) (n : ℤ) : Prop :=
  ∃ frame rest, s._stack = frame :: rest ∧ frame.asData.length ≤ 5 ∧
    (env.isSet .minimalData = true →
      frame.asData = ScriptNum.serialize (Int64.ofInt (ScriptNum.denoted frame.asData))) ∧
    n = ScriptNum.denoted frame.asData

/-- The bytes of the frames on both stacks. -/
def contents (s : Interpreter) : List ScriptData × List ScriptData :=
  (s._stack.map StackFrame.asData,s._altStack.map StackFrame.asData)

theorem operand_cons {env : Env} {frame : StackFrame} {count : ℕ} {rest alt : Stack}
    {flags : List Bool} {cur sep : Bytes} {n : ℤ} :
    Operand env ⟨count,frame :: rest,alt,flags,cur,sep⟩ n ↔
      frame.asData.length ≤ 5 ∧
        (env.isSet .minimalData = true →
          frame.asData = ScriptNum.serialize (Int64.ofInt (ScriptNum.denoted frame.asData))) ∧
        n = ScriptNum.denoted frame.asData := by
  constructor
  · rintro ⟨frame',rest',hstack,h⟩
    obtain ⟨rfl,-⟩ := List.cons.inj hstack
    exact h
  · intro h
    exact ⟨frame,rest,rfl,h⟩

theorem ofData_five_iff (vch : Bytes) (minimal : Bool) (n : ScriptNum) :
    ScriptNum.ofData vch minimal 5 = .ok n ↔
      vch.length ≤ 5 ∧
        (minimal = true → vch = ScriptNum.serialize (Int64.ofInt (ScriptNum.denoted vch))) ∧
        (⟨Int64.ofInt (ScriptNum.denoted vch)⟩ : ScriptNum) = n := by
  rw [ScriptNum.ofData,ScriptNum.setVch_denoted]
  by_cases hlen : vch.length ≤ 5
  · rw [if_neg (by omega),and_iff_right hlen,← ScriptNum.nonMinimal_eq_false_iff (by omega)]
    by_cases hform : (minimal && ScriptNum.nonMinimal vch) = true
    · rw [if_pos hform]
      obtain ⟨hmin,hlong⟩ := Bool.and_eq_true_iff.mp hform
      simp [hmin,hlong]
    · rw [if_neg hform]
      have hmin : minimal = true → ScriptNum.nonMinimal vch = false := by
        intro hm
        simpa [hm] using hform
      rw [and_iff_right hmin,Except.ok.injEq]
  · rw [if_pos (by omega)]
    simp [hlen]

section Runs

variable {env : Env} {c : GenericTransactionSignatureChecker} {s t : Interpreter}

/-- The top frame as bytes. -/
def converted (s : Interpreter) : Interpreter :=
  match s._stack with
  | [] => s
  | frame :: rest => { s with _stack := .data frame.asData :: rest }

theorem contents_converted (s : Interpreter) : contents (converted s) = contents s := by
  obtain ⟨n,stack,alt,flags,cur,sep⟩ := s
  cases stack with
  | nil => rfl
  | cons frame rest => rfl

theorem checked_run (x : Except CheckerStop Bool) (code : ScriptError) (s t : Interpreter) :
    (do let ok ← liftChecker x; if !ok then throwScript code else pure () : Action Unit).run s = .ok () t ↔
      x = .ok true ∧ s = t := by
  rcases x with stop | ok
  · constructor
    · intro h
      cases h
    · rintro ⟨h,-⟩
      cases h
  · cases ok with
    | true =>
      change EStateM.Result.ok () s = EStateM.Result.ok () t ↔ _
      simp
    | false =>
      change (EStateM.Result.error (Stop.script code) s : EStateM.Result Stop Interpreter Unit) = _ ↔ _
      simp

/-- What both opcodes do with the operand before they look at the transaction. -/
theorem operand_run (env : Env) (f : ScriptNum → Action Unit) (s t : Interpreter) :
    (do
      ensureStackHasEnoughFrames 1
      let data ← topData
      let n ← liftScript (ScriptNum.ofData data (env.isSet .minimalData) 5)
      if n._value < 0 then throwScript .negativeLockTime else f n : Action Unit).run s = .ok () t ↔
      ∃ n, Operand env s n ∧ 0 ≤ n ∧ (f ⟨Int64.ofInt n⟩).run (converted s) = .ok () t := by
  obtain ⟨count,stack,alt,flags,cur,sep⟩ := s
  cases stack with
  | nil =>
    apply iff_of_false
    · intro h
      cases h
    · rintro ⟨n,⟨frame,rest,hnil,-⟩,-⟩
      cases hnil
  | cons frame rest =>
    rw [run_bind_ok (ensure_enough (by simp)),run_bind_ok (topData_run_cons frame rest alt count flags cur sep)]
    simp only [operand_cons]
    have hdecode := ofData_five_iff frame.asData (env.isSet .minimalData)
    rcases hdata : ScriptNum.ofData frame.asData (env.isSet .minimalData) 5 with error | n
    · apply iff_of_false
      · intro h
        cases h
      · rintro ⟨n,⟨hlen,hmin,-⟩,-⟩
        have hok := (hdecode _).mpr ⟨hlen,hmin,rfl⟩
        rw [hdata] at hok
        cases hok
    · obtain ⟨hlen,hmin,rfl⟩ := (hdecode n).mp hdata
      have hneg : Int64.ofInt (ScriptNum.denoted frame.asData) < 0 ↔ ScriptNum.denoted frame.asData < 0 := by
        rw [Int64.lt_iff_toInt_lt,ScriptNum.denoted_toInt (by omega)]
        rfl
      change (if Int64.ofInt (ScriptNum.denoted frame.asData) < 0 then throwScript .negativeLockTime
        else f ⟨Int64.ofInt (ScriptNum.denoted frame.asData)⟩ : Action Unit).run _ = _ ↔ _
      by_cases hlow : ScriptNum.denoted frame.asData < 0
      · rw [if_pos (hneg.mpr hlow)]
        apply iff_of_false
        · intro h
          cases h
        · rintro ⟨n,⟨-,-,rfl⟩,h0,-⟩
          omega
      · rw [if_neg fun hc => hlow (hneg.mp hc)]
        constructor
        · intro h
          exact ⟨_,⟨hlen,hmin,rfl⟩,by omega,h⟩
        · rintro ⟨n,⟨-,-,rfl⟩,-,h⟩
          exact h

theorem operand_toInt {n : ℤ} (h : Operand env s n) : (Int64.ofInt n).toInt = n := by
  obtain ⟨frame,rest,-,hlen,-,rfl⟩ := h
  exact ScriptNum.denoted_toInt (by omega)

/-- The two opcodes succeed where the operand is a number that meets a condition, and only convert the
top frame. -/
theorem operand_met_run {f : ScriptNum → Action Unit} {P : ℕ → Prop}
    (hf : ∀ n : ScriptNum, 0 ≤ n._value.toInt → ∀ s t,
      (f n).run s = .ok () t ↔ P n._value.toInt.toNat ∧ s = t) :
    (do
      ensureStackHasEnoughFrames 1
      let data ← topData
      let n ← liftScript (ScriptNum.ofData data (env.isSet .minimalData) 5)
      if n._value < 0 then throwScript .negativeLockTime else f n : Action Unit).run s = .ok () t ↔
      (∃ n, Operand env s n ∧ 0 ≤ n ∧ P n.toNat) ∧ converted s = t := by
  rw [operand_run]
  constructor
  · rintro ⟨n,hn,h0,hrun⟩
    have hvalue := operand_toInt hn
    rw [hf _ (by rw [hvalue]; exact h0),hvalue] at hrun
    exact ⟨⟨n,hn,h0,hrun.1⟩,hrun.2⟩
  · rintro ⟨⟨n,hn,h0,hmet⟩,ht⟩
    have hvalue := operand_toInt hn
    refine ⟨n,hn,h0,?_⟩
    rw [hf _ (by rw [hvalue]; exact h0),hvalue]
    exact ⟨hmet,ht⟩

theorem opCheckLockTimeVerify_run (hset : env.isSet .checkLockTimeVerify = true) :
    (opCheckLockTimeVerify (env.over c)).run s = .ok () t ↔
      (∃ n, Operand env s n ∧ 0 ≤ n ∧ c.FinalFrom n.toNat) ∧ converted s = t := by
  have hflag : (!(env.over c).isSet .checkLockTimeVerify) = false := by simp [Env.over,hset]
  rw [opCheckLockTimeVerify,hflag]
  apply operand_met_run
  intro n h0 s t
  rw [← c.CheckLockTime_iff n h0]
  exact checked_run (c.CheckLockTime n) .unsatisfiedLockTime s t

theorem opCheckSequenceVerify_run (hset : env.isSet .checkSequenceVerify = true) :
    (opCheckSequenceVerify (env.over c)).run s = .ok () t ↔
      (∃ n, Operand env s n ∧ 0 ≤ n ∧ (n.toNat.testBit 31 = true ∨ c.SequenceFrom n.toNat)) ∧
        converted s = t := by
  have hflag : (!(env.over c).isSet .checkSequenceVerify) = false := by simp [Env.over,hset]
  rw [opCheckSequenceVerify,hflag]
  apply operand_met_run (P := fun n => n.testBit 31 = true ∨ c.SequenceFrom n)
  intro n h0 s t
  by_cases hbit : n._value.toInt.toNat.testBit 31 = true
  · rw [if_pos ((disable_iff h0).mpr hbit)]
    constructor
    · intro h
      cases h
      exact ⟨.inl hbit,rfl⟩
    · rintro ⟨-,rfl⟩
      rfl
  · rw [if_neg fun hc => hbit ((disable_iff h0).mp hc),or_iff_right hbit,← c.CheckSequence_iff n h0]
    exact checked_run (c.CheckSequence n) .unsatisfiedLockTime s t

end Runs

/-- With their flags set the opcodes succeed exactly on operands from which the transaction, or its
input, is in force, and leave the bytes on the stacks. -/
theorem lock_time_opcodes (env : Env) (c : GenericTransactionSignatureChecker) (s : Interpreter) :
    (env.isSet .checkLockTimeVerify = true →
      ((∃ t, (opCheckLockTimeVerify (env.over c)).run s = .ok () t) ↔
        ∃ n, Operand env s n ∧ 0 ≤ n ∧ c.FinalFrom n.toNat) ∧
      ∀ t, (opCheckLockTimeVerify (env.over c)).run s = .ok () t → contents t = contents s) ∧
    (env.isSet .checkSequenceVerify = true →
      ((∃ t, (opCheckSequenceVerify (env.over c)).run s = .ok () t) ↔
        ∃ n, Operand env s n ∧ 0 ≤ n ∧ (n.toNat.testBit 31 = true ∨ c.SequenceFrom n.toNat)) ∧
      ∀ t, (opCheckSequenceVerify (env.over c)).run s = .ok () t → contents t = contents s) := by
  refine ⟨fun hset => ?_,fun hset => ?_⟩
  · simp only [opCheckLockTimeVerify_run hset]
    refine ⟨by simp,?_⟩
    rintro t ⟨-,rfl⟩
    exact contents_converted s
  · simp only [opCheckSequenceVerify_run hset]
    refine ⟨by simp,?_⟩
    rintro t ⟨-,rfl⟩
    exact contents_converted s

/-- A transaction of this version with one input of sequence zero. -/
def versioned (version : Int32) : GenericTransactionSignatureChecker :=
  ⟨⟨version,none,[⟨⟨SignatureHash.one,0⟩,ByteVector.empty,0,⟨[]⟩⟩],[],0,0,100⟩,0,0⟩

/-- The number on top of an empty stack. -/
def onTop (n : Int64) : Interpreter := ⟨0,[.number ⟨n⟩],[],[],[],[]⟩

/-- All flags set. -/
def strictEnv : Env := ⟨fun _ => true,refusing,.base,⟨id,id,id⟩⟩

/-- Height 100 is reached by a lock time of 100, and sequence zero by a sequence of zero. -/
theorem lock_time_opcodes_hundred :
    (∃ t, (opCheckLockTimeVerify (strictEnv.over (versioned 2))).run (onTop 100) = .ok () t) ∧
      ∃ t, (opCheckSequenceVerify (strictEnv.over (versioned 2))).run (onTop 0) = .ok () t :=
  ⟨((lock_time_opcodes strictEnv (versioned 2) (onTop 100)).1 rfl).1.mpr
      ⟨100,⟨_,_,rfl,by decide,fun _ => by decide,by decide⟩,by decide,by decide,by decide,_,rfl,by decide⟩,
    ((lock_time_opcodes strictEnv (versioned 2) (onTop 0)).2 rfl).1.mpr
      ⟨0,⟨_,_,rfl,by decide,fun _ => by decide,by decide⟩,by decide,
        .inr ⟨by decide,_,rfl,by decide,by decide,by decide⟩⟩⟩

/-- The transaction of version minus one passes, whose version is below two. -/
theorem negative_version_passes :
    (∃ t, (opCheckSequenceVerify (strictEnv.over (versioned (-1)))).run (onTop 0) = .ok () t) ∧
      ¬ ∃ n, Operand strictEnv (onTop 0) n ∧ 0 ≤ n ∧ (n.toNat.testBit 31 = true ∨
        (2 ≤ (versioned (-1)).txTo._version.toInt ∧ (versioned (-1)).SequenceFrom n.toNat)) := by
  refine ⟨⟨_,rfl⟩,?_⟩
  rintro ⟨n,⟨frame,rest,hstack,-,-,rfl⟩,-,hmet⟩
  obtain ⟨rfl,-⟩ := List.cons.inj hstack
  rcases hmet with hbit | ⟨hversion,-⟩
  · exact absurd hbit (by decide)
  · exact absurd hversion (by decide)

end Interpreter
end Tkeycoin
