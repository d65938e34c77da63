import Mathlib.Data.Bool.AllAny
import Tkeycoin.PushEncoding
import Tkeycoin.Arithmetic

/-! MINIMALDATA: which of the encodings of a push an execution takes. -/
namespace Tkeycoin

open ActionLogic

namespace ScriptNum

theorem and_0x7f_eq_zero_iff (b : UInt8) : b &&& 0x7f = 0 ↔ b.toNat % 128 = 0 := by
  revert b
  exact forall_byte (by decide)

theorem nonMinimal_cons (a b c : UInt8) (rest : Bytes) :
    nonMinimal (a :: b :: c :: rest) = nonMinimal (b :: c :: rest) := by
  have hrev : (a :: b :: c :: rest).reverse = (b :: c :: rest).reverse ++ [a] := List.reverse_cons
  simp only [nonMinimal,hrev]
  rcases hlist : (b :: c :: rest).reverse with _ | ⟨x,_ | ⟨y,l⟩⟩
  · simp at hlist
  · have hlen := congrArg List.length hlist
    simp at hlen
  · rfl

/-- The bytes of a number in minimal form have a magnitude. -/
theorem unsignedMagnitude_ne_zero (vch : Bytes) (hne : vch ≠ []) (h : nonMinimal vch = false) :
    unsignedMagnitude vch ≠ 0 := by
  induction vch with
  | nil => exact absurd rfl hne
  | cons byte rest ih =>
    rcases rest with _ | ⟨back,_ | ⟨c,rest⟩⟩
    · have hback : ¬ (byte &&& 0x7f = 0) := by simpa [nonMinimal] using h
      rw [and_0x7f_eq_zero_iff] at hback
      exact hback
    · have hlast : ¬ (back &&& 0x7f = 0) ∨ ¬ (byte &&& 0x80 = 0) := by
        simpa [nonMinimal,Classical.or_iff_not_imp_left] using h
      rw [and_0x7f_eq_zero_iff,and_0x80_eq_zero_iff] at hlast
      simp only [unsignedMagnitude]
      omega
    · rw [nonMinimal_cons] at h
      have hrest := ih (by simp) h
      rw [unsignedMagnitude_cons]
      omega

theorem absBytes_zero (fuel : ℕ) : absBytes fuel 0 = [] := by
  cases fuel <;> simp [absBytes]

theorem absBytes_cons (fuel m : ℕ) (byte : UInt8) (h : byte.toNat + 256 * m ≠ 0) :
    absBytes (fuel+1) (byte.toNat + 256 * m) = byte :: absBytes fuel m := by
  have hbyte := byte.toNat_lt
  have hlow : UInt8.ofNat (byte.toNat + 256 * m) = byte := by
    apply UInt8.toNat_inj.mp
    rw [UInt8.toNat_ofNat']
    omega
  have hhigh : (byte.toNat + 256 * m) / 256 = m := by omega
  rw [absBytes,if_neg h,hlow,hhigh]

theorem putSign_cons (neg : Bool) (byte : UInt8) {bytes : Bytes} (h : bytes ≠ []) :
    putSign neg (byte :: bytes) = byte :: putSign neg bytes := by
  cases bytes with
  | nil => exact absurd rfl h
  | cons back rest => rfl

/-- A last byte and its sign. -/
theorem putSign_last (byte : UInt8) :
    putSign (byte &&& 0x80 ≠ 0) [UInt8.ofNat (byte.toNat % 128)] = [byte] ∧
      (byte.toNat % 128 = 0 → (if byte &&& 0x80 ≠ 0 then 0x80 else 0) = byte) := by
  revert byte
  exact forall_byte (by decide)

/-- Writing sign and magnitude gives a minimal form back. -/
theorem putSign_absBytes (neg : Bool) (vch : Bytes) (fuel : ℕ) (hlen : vch.length ≤ fuel) (hne : vch ≠ [])
    (hsign : signBit vch ↔ neg = true) (h : nonMinimal vch = false) :
    putSign neg (absBytes fuel (unsignedMagnitude vch)) = vch := by
  induction vch generalizing fuel with
  | nil => exact absurd rfl hne
  | cons byte rest ih =>
    have hmag := unsignedMagnitude_ne_zero _ hne h
    obtain ⟨fuel,rfl⟩ : ∃ n, fuel = n + 1 := ⟨fuel - 1,by simp only [List.length_cons] at hlen; omega⟩
    rcases rest with _ | ⟨back,rest⟩
    · have hneg : neg = decide (byte &&& 0x80 ≠ 0) := by
        apply Bool.eq_iff_iff.mpr
        rw [← hsign]
        simp [signBit]
      have hzero : byte.toNat % 128 / 256 = 0 := by omega
      rw [unsignedMagnitude] at hmag ⊢
      rw [absBytes,if_neg hmag,hzero,absBytes_zero,hneg]
      exact (putSign_last byte).1
    · rw [unsignedMagnitude_cons] at hmag ⊢
      rw [absBytes_cons fuel _ byte hmag]
      rw [signBit_cons] at hsign
      by_cases hrest : nonMinimal (back :: rest) = false
      · have hhigh := unsignedMagnitude_ne_zero (back :: rest) (by simp) hrest
        obtain ⟨fuel,rfl⟩ : ∃ n, fuel = n + 1 := ⟨fuel - 1,by simp only [List.length_cons] at hlen; omega⟩
        rw [putSign_cons neg byte (absBytes_ne_nil fuel _ hhigh)]
        rw [ih (fuel+1) (by simp only [List.length_cons] at hlen ⊢; omega) (by simp) hsign hrest]
      · -- only the byte below keeps an empty last byte
        rcases rest with _ | ⟨c,rest⟩
        · have hback : back.toNat % 128 = 0 := by
            rw [← and_0x7f_eq_zero_iff]
            simpa [nonMinimal] using hrest
          have hbyte : byte &&& 0x80 ≠ 0 := by
            have hlow : back &&& 0x7f = 0 := (and_0x7f_eq_zero_iff back).mpr hback
            simpa [nonMinimal,hlow] using h
          have hneg : neg = decide (back &&& 0x80 ≠ 0) := by
            apply Bool.eq_iff_iff.mpr
            rw [← hsign]
            simp [signBit]
          have hlast := (putSign_last back).2 hback
          rw [unsignedMagnitude,hback,absBytes_zero,putSign,if_pos hbyte,hneg]
          simpa using hlast
        · rw [nonMinimal_cons] at h
          exact absurd h hrest

/-- A minimal form is what its number is written as. -/
theorem serialize_setVch {vch : Bytes} (hlen : vch.length ≤ 8) (h : nonMinimal vch = false) :
    serialize (setVch vch) = vch := by
  by_cases hne : vch = []
  · rw [hne]
    rfl
  have hmag := unsignedMagnitude_ne_zero vch hne h
  have hlt : unsignedMagnitude vch < 2^63 := by
    have hpow : 2 ^ (8 * vch.length - 1) ≤ 2^63 := Nat.pow_le_pow_right (by omega) (by omega)
    exact (unsignedMagnitude_lt vch hne).trans_le hpow
  obtain ⟨neg,hsign,hvalue⟩ : ∃ neg : Bool, (signBit vch ↔ neg = true) ∧
      (setVch vch).toInt = if neg then -(unsignedMagnitude vch : ℤ) else unsignedMagnitude vch := by
    by_cases hs : signBit vch
    · refine ⟨true,by simp [hs],?_⟩
      rw [(setVch_eq vch).1 hs,Int64.toInt_ofInt_of_le (by omega) (by omega),if_pos rfl]
    · refine ⟨false,by simp [hs],?_⟩
      rw [(setVch_eq vch).2 hs,Int64.toInt_ofInt_of_le (by omega) (by omega)]
      simp
  have hzero : setVch vch ≠ 0 := by
    intro hz
    rw [hz] at hvalue
    simp only [Int64.toInt_zero] at hvalue
    split_ifs at hvalue <;> omega
  have hneg : decide (setVch vch < 0) = neg := by
    apply Bool.eq_iff_iff.mpr
    rw [decide_eq_true_eq,Int64.lt_iff_toInt_lt,Int64.toInt_zero,hvalue]
    cases neg <;> simp
    omega
  have habs : (setVch vch).toInt.natAbs = unsignedMagnitude vch := by
    rw [hvalue]
    cases neg <;> simp
  rw [serialize,if_neg hzero,hneg,habs]
  exact putSign_absBytes neg vch 8 hlen hne hsign h

end ScriptNum

namespace Script

/-- `push_int64` on an empty script. -/
def pushInt64 (n : Int64) : Bytes :=
  if n = 0 then [OpCode.op0]
  else if n = -1 then [OpCode.op1Negate]
  else if 1 ≤ n ∧ n ≤ 16 then [UInt8.ofNat (n.toInt + (OpCode.op1.toNat - 1)).toNat]
  else push (ScriptNum.serialize n)

/-- The numbers that have opcodes of their own. -/
def constants : List Int64 := [-1,0,1,2,3,4,5,6,7,8,9,10,11,12,13,14,15,16]

/-- The scripts that push a byte string and do nothing else. -/
inductive IsPush (d : ScriptData) : Bytes → Prop
  | constant (n : Int64) : n ∈ constants → ScriptNum.serialize n = d → IsPush d (pushInt64 n)
  | sized (k : PushKind) : k.Fits d → IsPush d (k.encode d)

/-- What `operator<<` makes of a byte string, as a number where it is one with an opcode. -/
def shortest (d : ScriptData) : Bytes :=
  if d = [] ∨ Interpreter.smallNumberByte d = true then pushInt64 (ScriptNum.setVch d) else push d

end Script

namespace Interpreter

open Script PushEncoding

/-- Wherever it stands in a script, execution takes this code and has pushed these bytes. -/
def Takes (env : Env) (d : ScriptData) (code : Bytes) : Prop :=
  ∀ post s, (code ++ post).length ≤ MAX_SCRIPT_SIZE → s._curScriptPosition = code ++ post →
    mustExecuted s = true → depth s < MAX_STACK_SIZE →
    ∃ frame, frame.asData = d ∧
      (step env).run s = .ok () { s with _curScriptPosition := post, _stack := frame :: s._stack }

/-- Wherever it stands in a script, execution fails there. -/
def Rejects (env : Env) (code : Bytes) : Prop :=
  ∀ post s, (code ++ post).length ≤ MAX_SCRIPT_SIZE → s._curScriptPosition = code ++ post →
    mustExecuted s = true → depth s < MAX_STACK_SIZE →
    ∃ error t, (step env).run s = .error (.script error) t

/-- Of all encodings the shortest one is taken, and no other. -/
def TakesShortest (env : Env) (d : ScriptData) : Prop :=
  ∀ code, IsPush d code → (code = shortest d → Takes env d code) ∧ (code ≠ shortest d → Rejects env code)

/-- Short data is in the form of a number, and one byte is a number with an opcode. -/
def PushableAsNumber (d : ScriptData) : Prop :=
  (d.length ≤ 4 → ScriptNum.nonMinimal d = false) ∧ (d.length = 1 → smallNumberByte d = true)

instance (d : ScriptData) : Decidable (PushableAsNumber d) :=
  inferInstanceAs (Decidable ((_ → _) ∧ (_ → _)))

section Constants

/-- The opcodes of the numbers from minus one on, without zero. -/
def constantOpCodes : List OpCode :=
  [OpCode.op1Negate,OpCode.op1,OpCode.op2,OpCode.op3,OpCode.op4,OpCode.op5,OpCode.op6,OpCode.op7,
    OpCode.op8,OpCode.op9,OpCode.op10,OpCode.op11,OpCode.op12,OpCode.op13,OpCode.op14,OpCode.op15,
    OpCode.op16]

theorem constantOpCodes_between :
    ∀ opCode ∈ constantOpCodes, OpCode.opPushData4 < opCode ∧ opCode ≤ OpCode.op16 :=
  List.all_iff_forall_prop.mp (by decide)

theorem dispatch_opN (env : Env) (d : ScriptData) :
    ∀ opCode ∈ constantOpCodes, dispatch env opCode d = opN opCode := by
  simp only [constantOpCodes,List.forall_mem_cons]
  exact ⟨rfl,rfl,rfl,rfl,rfl,rfl,rfl,rfl,rfl,rfl,rfl,rfl,rfl,rfl,rfl,rfl,rfl,by simp⟩

/-- A number other than zero is one opcode, and the handler computes the number back. -/
theorem pushInt64_constant : ∀ n ∈ constants, n = 0 ∨ ∃ opCode ∈ constantOpCodes,
    pushInt64 n = [opCode] ∧ Int64.ofInt ((opCode.toNat : ℤ) - OpCode.op1.toNat + 1) = n :=
  List.all_iff_forall_prop.mp (by decide +kernel)

/-- The bytes of such a number have no shorter encoding. -/
theorem shortest_constant : ∀ n ∈ constants, shortest (ScriptNum.serialize n) = pushInt64 n :=
  List.all_iff_forall_prop.mp (by decide +kernel)

variable {env : Env}

/-- An opcode of a number is taken whatever the flags. -/
theorem constant_takes {n : Int64} (hn : n ∈ constants) (hzero : n ≠ 0) :
    Takes env (ScriptNum.serialize n) (pushInt64 n) := by
  intro post s hlen hcur hm hroom
  obtain ⟨opCode,hmem,hcode,hvalue⟩ := (pushInt64_constant n hn).resolve_left hzero
  obtain ⟨hlow,hhigh⟩ := constantOpCodes_between opCode hmem
  have hread : getScriptOp s._curScriptPosition = (some (opCode,[]),post) := by
    rw [hcur,hcode]
    simp [getScriptOp,UInt8.not_le.mpr hlow]
  have hcond : ¬ (OpCode.opIf ≤ opCode ∧ opCode ≤ OpCode.opEndIf) := fun hc =>
    absurd (UInt8.le_trans hc.1 hhigh) (by decide)
  have hdirect : ¬ opCode < OpCode.opPushData1 := fun hc =>
    absurd (UInt8.lt_trans hlow hc) (by decide)
  have hfetch : fetch.run s = .ok (opCode,[]) { s with _curScriptPosition := post } := by
    rw [fetch_run,hread]
    simp [fetched,UInt8.not_lt.mpr hhigh]
  have hm' : mustExecuted { s with _curScriptPosition := post } = true := hm
  refine ⟨.number ⟨n⟩,rfl,?_⟩
  rw [step,run_bind_ok hfetch,carryOut_run,if_neg hcond,if_pos hm',if_neg hdirect,
    dispatch_opN env [] opCode hmem]
  have hpush : (opN opCode).run { s with _curScriptPosition := post } =
      .ok () { s with _curScriptPosition := post, _stack := .number ⟨n⟩ :: s._stack } := by
    rw [opN,hvalue]
    rfl
  have hfits : ¬ (StackFrame.number ⟨n⟩ :: s._stack).length + s._altStack.length > MAX_STACK_SIZE := by
    simp only [depth] at hroom
    simp only [List.length_cons]
    omega
  rw [run_bind_ok hpush,sizeLimits_run,if_neg hfits]

end Constants

section Sized

variable {env : Env} {d : ScriptData} {k : PushKind}

/-- What the handler of an encoding turns down under MINIMALDATA. -/
def TurnedDown (d : ScriptData) : PushKind → Prop
  | .direct => smallNumberByte d = true ∨ (d.length ≤ 4 ∧ ScriptNum.nonMinimal d = true)
  | .pushData1 => d = [] ∨ smallNumberByte d = true ∨ (d.length ≠ 1 ∧ d.length < 76) ∨
      (d.length ≤ 4 ∧ ScriptNum.nonMinimal d = true)
  | .pushData2 => d.length ≤ 0xff
  | .pushData4 => d.length ≤ 0xffff

/-- The case of the switch for an encoding. -/
def handler (env : Env) (d : ScriptData) : PushKind → Action Unit
  | .direct => opPushData env (PushKind.direct.opCode d) d
  | .pushData1 => opPushData1 env d
  | .pushData2 => opPushData2 env d
  | .pushData4 => opPushData4 env d

theorem smallNumberByte_length (h : smallNumberByte d = true) : d.length = 1 := by
  rcases d with _ | ⟨byte,_ | ⟨b,rest⟩⟩
  · simp [smallNumberByte] at h
  · rfl
  · simp [smallNumberByte] at h

theorem smallNumberByte_minimal (h : smallNumberByte d = true) : ScriptNum.nonMinimal d = false := by
  obtain ⟨byte,rfl⟩ := List.length_eq_one_iff.mp (smallNumberByte_length h)
  revert h
  revert byte
  exact ScriptNum.forall_byte (by decide)

/-- A handler leaves a frame, unless it turns the push down. -/
theorem handler_run (hmin : env.isSet .minimalData = true) (h : k.Fits d) (s : Interpreter) :
    (TurnedDown d k → ∃ error, (handler env d k).run s = .error (.script error) s) ∧
      (¬ TurnedDown d k →
        (handler env d k).run s = .ok () { s with _stack := frameOf d k :: s._stack }) := by
  cases k with
  | direct =>
    have hzero : ¬ (d = [] ∧ PushKind.direct.opCode d ≠ OpCode.op0) := by
      rintro ⟨rfl,hne⟩
      exact hne rfl
    have href : refused env (PushKind.direct.opCode d) d ↔ TurnedDown d .direct := by
      rw [refused,TurnedDown,or_iff_right hzero,and_iff_right hmin]
    rw [← href]
    exact opPushData_run env _ d s
  | pushData1 =>
    rw [handler,opPushData1]
    by_cases hbyte : d = [] ∨ smallNumberByte d = true ∨
        (d.length ≠ 1 ∧ d.length < OpCode.opPushData1.toNat)
    · rw [if_pos ⟨hmin,hbyte⟩]
      refine ⟨fun _ => ⟨_,rfl⟩,fun hnot => absurd ?_ hnot⟩
      exact hbyte.imp id (Or.imp id .inl)
    · rw [if_neg fun hc => hbyte hc.2,pushNumberOrData_run]
      by_cases hnum : d.length ≤ 4 ∧ ScriptNum.nonMinimal d = true
      · rw [if_pos ⟨hnum.1,hmin,hnum.2⟩]
        exact ⟨fun _ => ⟨_,rfl⟩,fun hnot => absurd (.inr (.inr (.inr hnum))) hnot⟩
      · rw [if_neg fun hc => hnum ⟨hc.1,hc.2.2⟩]
        refine ⟨fun hdown => ?_,fun _ => rfl⟩
        rcases hdown with hc | hc | hc | hc
        · exact absurd (.inl hc) hbyte
        · exact absurd (.inr (.inl hc)) hbyte
        · exact absurd (.inr (.inr hc)) hbyte
        · exact absurd hc hnum
  | pushData2 =>
    rw [handler,opPushData2]
    by_cases hsize : d.length ≤ 0xff
    · rw [if_pos ⟨hmin,hsize⟩]
      exact ⟨fun _ => ⟨_,rfl⟩,fun hnot => absurd hsize hnot⟩
    · rw [if_neg fun hc => hsize hc.2]
      exact ⟨fun hdown => absurd hdown hsize,fun _ => rfl⟩
  | pushData4 =>
    rw [handler,opPushData4]
    by_cases hsize : d.length ≤ 0xffff
    · rw [if_pos ⟨hmin,hsize⟩]
      exact ⟨fun _ => ⟨_,rfl⟩,fun hnot => absurd hsize hnot⟩
    · rw [if_neg fun hc => hsize hc.2]
      exact ⟨fun hdown => absurd hdown hsize,fun _ => rfl⟩

/-- The frame of a push that is taken holds its bytes. -/
theorem frameOf_asData (h : ¬ TurnedDown d k) : (frameOf d k).asData = d := by
  have hnumber (hminimal : ¬ (d.length ≤ 4 ∧ ScriptNum.nonMinimal d = true)) :
      (numberOrData d).asData = d := by
    unfold numberOrData
    split_ifs with hlen
    · have hform : ScriptNum.nonMinimal d = false := by simpa [hlen] using hminimal
      exact ScriptNum.serialize_setVch (by omega) hform
    · rfl
  cases k with
  | direct => exact hnumber fun hc => h (.inr hc)
  | pushData1 => exact hnumber fun hc => h (.inr (.inr (.inr hc)))
  | pushData2 => rfl
  | pushData4 => rfl

/-- An executed push with room for its frame. -/
theorem step_sized (hmin : env.isSet .minimalData = true) (h : k.Fits d)
    (hd : d.length ≤ MAX_SCRIPT_ELEMENT_SIZE) {post : Bytes} {s : Interpreter}
    (hlen : (k.encode d ++ post).length ≤ MAX_SCRIPT_SIZE)
    (hcur : s._curScriptPosition = k.encode d ++ post) (hm : mustExecuted s = true)
    (hroom : depth s < MAX_STACK_SIZE) :
    (TurnedDown d k → ∃ error t, (step env).run s = .error (.script error) t) ∧
      (¬ TurnedDown d k → (step env).run s =
        .ok () { s with _curScriptPosition := post, _stack := frameOf d k :: s._stack }) := by
  have hcond : ¬ (OpCode.opIf ≤ k.opCode d ∧ k.opCode d ≤ OpCode.opEndIf) := fun hc =>
    absurd (UInt8.le_trans hc.1 (PushKind.opCode_le h)) (by decide)
  have hm' : mustExecuted { s with _curScriptPosition := post } = true := hm
  have hrun := handler_run hmin h { s with _curScriptPosition := post }
  have hfits : ¬ (frameOf d k :: s._stack).length + s._altStack.length > MAX_STACK_SIZE := by
    simp only [depth] at hroom
    simp only [List.length_cons]
    omega
  rw [step_push h post hcur hlen,if_neg (not_lt.mpr hd),carryOut_run,if_neg hcond,if_pos hm']
  by_cases hk : k = .direct
  · rw [if_pos ((PushKind.opCode_lt_iff h).mpr hk)]
    subst hk
    exact ⟨fun hdown => (hrun.1 hdown).imp fun _ he => ⟨_,he⟩,hrun.2⟩
  · have hcase : dispatch env (k.opCode d) d = handler env d k := by
      cases k with
      | direct => exact absurd rfl hk
      | pushData1 => rfl
      | pushData2 => rfl
      | pushData4 => rfl
    rw [if_neg (fun hlt => hk ((PushKind.opCode_lt_iff h).mp hlt)),hcase]
    constructor
    · intro hdown
      obtain ⟨error,he⟩ := hrun.1 hdown
      exact ⟨error,_,run_bind_error he⟩
    · intro hnot
      rw [run_bind_ok (hrun.2 hnot),sizeLimits_run,if_neg hfits]

theorem sized_takes (hmin : env.isSet .minimalData = true) (h : k.Fits d)
    (hd : d.length ≤ MAX_SCRIPT_ELEMENT_SIZE) (hnot : ¬ TurnedDown d k) : Takes env d (k.encode d) :=
  fun _ _ hlen hcur hm hroom =>
    ⟨frameOf d k,frameOf_asData hnot,(step_sized hmin h hd hlen hcur hm hroom).2 hnot⟩

theorem sized_rejects (hmin : env.isSet .minimalData = true) (h : k.Fits d)
    (hd : d.length ≤ MAX_SCRIPT_ELEMENT_SIZE) (hdown : TurnedDown d k) : Rejects env (k.encode d) :=
  fun _ _ hlen hcur hm hroom => (step_sized hmin h hd hlen hcur hm hroom).1 hdown

/-- A script of one push is either taken or refused. -/
theorem not_takes_and_rejects {code : Bytes} (hlen : code.length ≤ MAX_SCRIPT_SIZE) (h : Takes env d code) :
    ¬ Rejects env code := by
  intro hrejects
  have hlen' : (code ++ []).length ≤ MAX_SCRIPT_SIZE := by simpa using hlen
  have hcur : (⟨0,[],[],[],code,[]⟩ : Interpreter)._curScriptPosition = code ++ [] := by simp
  have hroom : depth ⟨0,[],[],[],code,[]⟩ < MAX_STACK_SIZE := Nat.succ_pos 999
  obtain ⟨frame,-,hok⟩ := h [] _ hlen' hcur rfl hroom
  obtain ⟨error,t,herror⟩ := hrejects [] _ hlen' hcur rfl hroom
  rw [hok] at herror
  cases herror

end Sized

section Shortest

variable {d : ScriptData} {k : PushKind}

/-- The encoding that `operator<<` chooses for bytes. -/
def kindOf (d : ScriptData) : PushKind :=
  if d.length < OpCode.opPushData1.toNat then .direct
  else if d.length ≤ 0xff then .pushData1
  else if d.length ≤ 0xffff then .pushData2
  else .pushData4

theorem push_eq (d : ScriptData) : Script.push d = (kindOf d).encode d := by
  unfold Script.push kindOf
  split_ifs <;> simp [PushKind.encode,PushKind.opCode,PushKind.width,leBytes]

theorem encode_injective {k' : PushKind} (h : k.encode d = k'.encode d) : k = k' := by
  have hlen := congrArg List.length h
  rw [encode_length,encode_length] at hlen
  have hwidth : k.width = k'.width := by omega
  cases k <;> cases k' <;> first | rfl | cases hwidth

/-- The encodings that are the shortest one. -/
def IsShortest (d : ScriptData) (k : PushKind) : Prop :=
  if d = [] ∨ smallNumberByte d = true then d = [] ∧ k = .direct else k = kindOf d

/-- One byte is the shortest encoding of nothing and of the numbers with an opcode. -/
theorem shortest_length_one (h : d = [] ∨ smallNumberByte d = true) : (shortest d).length = 1 := by
  rw [shortest,if_pos h]
  rcases h with rfl | hsmall
  · rfl
  · obtain ⟨byte,rfl⟩ := List.length_eq_one_iff.mp (smallNumberByte_length hsmall)
    revert hsmall
    revert byte
    exact ScriptNum.forall_byte (by decide)

theorem encode_eq_shortest_iff (d : ScriptData) (k : PushKind) :
    k.encode d = shortest d ↔ IsShortest d k := by
  unfold IsShortest
  split_ifs with hconstant
  · constructor
    · intro heq
      have hlen := congrArg List.length heq
      rw [encode_length,shortest_length_one hconstant] at hlen
      have hnil : d = [] := List.eq_nil_of_length_eq_zero (by omega)
      have hwidth : k.width = 0 := by omega
      refine ⟨hnil,?_⟩
      cases k <;> first | rfl | cases hwidth
    · rintro ⟨rfl,rfl⟩
      rfl
  · rw [shortest,if_neg hconstant,push_eq]
    exact ⟨encode_injective,congrArg (PushKind.encode · d)⟩

theorem kindOf_width_le (h : k.Fits d) : (kindOf d).width ≤ k.width := by
  unfold kindOf
  cases k with
  | direct =>
    have hlt : d.length < OpCode.opPushData1.toNat := h
    rw [if_pos hlt]
  | pushData1 =>
    have hlt : d.length < 256 ^ 1 := h
    split_ifs <;> first | decide | omega
  | pushData2 =>
    have hlt : d.length < 256 ^ 2 := h
    split_ifs <;> first | decide | omega
  | pushData4 => split_ifs <;> decide

/-- Every other encoding is longer. -/
theorem shortest_lt {code : Bytes} (h : IsPush d code) (hne : code ≠ shortest d) :
    (shortest d).length < code.length := by
  cases h with
  | constant n hn hd =>
    subst hd
    exact absurd (shortest_constant n hn).symm hne
  | sized k hfits =>
    rw [encode_length]
    by_cases hconstant : d = [] ∨ smallNumberByte d = true
    · rw [shortest_length_one hconstant]
      by_contra hle
      have hnil : d = [] := List.eq_nil_of_length_eq_zero (by omega)
      have hwidth : k.width = 0 := by omega
      have hk : k = .direct := by cases k <;> first | rfl | cases hwidth
      exact hne ((encode_eq_shortest_iff d k).mpr (by rw [IsShortest,if_pos hconstant]; exact ⟨hnil,hk⟩))
    · have hwidth := kindOf_width_le hfits
      rw [shortest,if_neg hconstant,push_eq] at hne ⊢
      rw [encode_length]
      by_contra hle
      have hsame : k.width = (kindOf d).width := by omega
      have hk : k = kindOf d := by
        revert hsame
        cases k <;> cases kindOf d <;> simp [PushKind.width]
      exact hne (by rw [hk])

/-- For data of these forms the handlers turn down all encodings but the shortest. -/
theorem turnedDown_iff (hd : d.length ≤ MAX_SCRIPT_ELEMENT_SIZE) (hp : PushableAsNumber d) (h : k.Fits d) :
    TurnedDown d k ↔ ¬ IsShortest d k := by
  have hform : ¬ (d.length ≤ 4 ∧ ScriptNum.nonMinimal d = true) := by
    intro hc
    simp [hp.1 hc.1] at hc
  unfold IsShortest
  split_ifs with hconstant
  · rcases hconstant with rfl | hsmall
    · cases k with
      | direct => simp [TurnedDown,smallNumberByte,ScriptNum.nonMinimal]
      | pushData1 => simp [TurnedDown]
      | pushData2 => simp [TurnedDown]
      | pushData4 => simp [TurnedDown]
    · have hone := smallNumberByte_length hsmall
      have hne : d ≠ [] := by
        rintro rfl
        cases hone
      cases k with
      | direct => simp [TurnedDown,hsmall,hne]
      | pushData1 => simp [TurnedDown,hsmall,hne]
      | pushData2 => simp [TurnedDown,hone,hne]
      | pushData4 => simp [TurnedDown,hone,hne]
  · obtain ⟨hne,hsmall⟩ := not_or.mp hconstant
    have hone : d.length ≠ 1 := fun hlen => hsmall (hp.2 hlen)
    have hd' : d.length ≤ 520 := hd
    have hfirst : OpCode.opPushData1.toNat = 76 := rfl
    unfold kindOf
    rw [hfirst]
    cases k with
    | direct =>
      have hlt : d.length < 76 := h
      simp [TurnedDown,hsmall,hform,hlt]
    | pushData1 =>
      have hlt : d.length < 256 ^ 1 := h
      simp only [TurnedDown,hne,hsmall,hform,false_or,or_false,hone,ne_eq,not_false_eq_true,true_and]
      split_ifs <;> simp <;> omega
    | pushData2 =>
      simp only [TurnedDown]
      split_ifs <;> simp <;> omega
    | pushData4 =>
      simp only [TurnedDown]
      split_ifs <;> simp <;> omega

end Shortest

section Minimal

variable {env : Env} {d : ScriptData}

theorem takesShortest_of_pushable (hmin : env.isSet .minimalData = true)
    (hd : d.length ≤ MAX_SCRIPT_ELEMENT_SIZE) (hp : PushableAsNumber d) : TakesShortest env d := by
  intro code hcode
  cases hcode with
  | constant n hn hbytes =>
    subst hbytes
    refine ⟨fun _ => ?_,fun hne => absurd (shortest_constant n hn).symm hne⟩
    by_cases hzero : n = 0
    · subst hzero
      have hfits : PushKind.direct.Fits [] := by decide
      have hnot : ¬ TurnedDown [] .direct := by simp [TurnedDown,smallNumberByte,ScriptNum.nonMinimal]
      exact sized_takes hmin hfits (by decide) hnot
    · exact constant_takes hn hzero
  | sized k h =>
    rw [ne_eq,encode_eq_shortest_iff]
    have hdown := turnedDown_iff hd hp h
    constructor
    · intro hshortest
      exact sized_takes hmin h hd fun hc => hdown.mp hc hshortest
    · intro hother
      exact sized_rejects hmin h hd (hdown.mpr hother)

/-- The conversion to a number turns the shortest encoding down. -/
theorem not_takesShortest_of_nonMinimal (hmin : env.isSet .minimalData = true) (hlen : d.length ≤ 4)
    (hform : ScriptNum.nonMinimal d = true) : ¬ TakesShortest env d := by
  intro h
  have hlt : d.length < 76 := by omega
  have hconstant : ¬ (d = [] ∨ smallNumberByte d = true) := by
    rintro (rfl | hsmall)
    · cases hform
    · simp [smallNumberByte_minimal hsmall] at hform
  have hshortest : PushKind.direct.encode d = shortest d := by
    rw [encode_eq_shortest_iff,IsShortest,if_neg hconstant,kindOf]
    exact (if_pos hlt).symm
  have hd : d.length ≤ MAX_SCRIPT_ELEMENT_SIZE := hlen.trans (by decide)
  have htakes := (h _ (.sized .direct hlt)).1 hshortest
  have hsize : (PushKind.direct.encode d).length ≤ MAX_SCRIPT_SIZE := by
    have hw : PushKind.direct.width = 0 := rfl
    rw [encode_length,hw,MAX_SCRIPT_SIZE]
    omega
  exact not_takes_and_rejects hsize htakes (sized_rejects hmin hlt hd (.inr ⟨hlen,hform⟩))

/-- One byte gets through with PUSHDATA1. -/
theorem not_takesShortest_of_one (hmin : env.isSet .minimalData = true) (hlen : d.length = 1)
    (hform : ScriptNum.nonMinimal d = false) (hsmall : ¬ smallNumberByte d = true) :
    ¬ TakesShortest env d := by
  intro h
  have hne : d ≠ [] := by
    rintro rfl
    cases hlen
  have hfits : PushKind.pushData1.Fits d := by
    change d.length < 256 ^ 1
    omega
  have hother : PushKind.pushData1.encode d ≠ shortest d := by
    have hlt : d.length < OpCode.opPushData1.toNat := by
      rw [hlen]
      decide
    rw [ne_eq,encode_eq_shortest_iff,IsShortest,if_neg (not_or.mpr ⟨hne,hsmall⟩),kindOf,if_pos hlt]
    decide
  have hnot : ¬ TurnedDown d .pushData1 := by
    rintro (hc | hc | hc | hc)
    · exact hne hc
    · exact hsmall hc
    · exact hc.1 hlen
    · simp [hform] at hc
  have hd : d.length ≤ MAX_SCRIPT_ELEMENT_SIZE := hlen.le.trans (by decide)
  have hsize : (PushKind.pushData1.encode d).length ≤ MAX_SCRIPT_SIZE := by
    have hw : PushKind.pushData1.width = 1 := rfl
    rw [encode_length,hw,hlen]
    decide
  exact not_takes_and_rejects hsize (sized_takes hmin hfits hd hnot)
    ((h _ (.sized .pushData1 hfits)).2 hother)

/-- Under MINIMALDATA the encodings taken are the shortest ones exactly for long data and for data in
the form of a number, where one byte is a number with an opcode. -/
theorem takesShortest_iff (env : Env) (d : ScriptData) (hmin : env.isSet .minimalData = true)
    (hd : d.length ≤ MAX_SCRIPT_ELEMENT_SIZE) :
    (∀ code, IsPush d code → code ≠ shortest d → (shortest d).length < code.length) ∧
      (TakesShortest env d ↔ PushableAsNumber d) := by
  refine ⟨fun code => shortest_lt,fun h => ?_,takesShortest_of_pushable hmin hd⟩
  have hform (hlen : d.length ≤ 4) : ScriptNum.nonMinimal d = false := by
    by_contra hc
    exact not_takesShortest_of_nonMinimal hmin hlen (by simpa using hc) h
  refine ⟨hform,fun hlen => ?_⟩
  by_contra hsmall
  exact not_takesShortest_of_one hmin hlen (hform (by omega)) hsmall h

/-- With the flag set, the number seven. -/
theorem takesShortest_iff_seven :
    (∀ code, IsPush [7] code → code ≠ shortest [7] → (shortest [7]).length < code.length) ∧
      (TakesShortest (.ofFlags (Flags.empty.or .minimalData) refusing .base ⟨id,id,id⟩) [7] ↔
        PushableAsNumber [7]) :=
  takesShortest_iff _ _ (by decide) (by decide)

/-- A single zero byte cannot be pushed directly, and a space can be in two ways. -/
theorem zero_space_not_shortest :
    ¬ TakesShortest (.ofFlags (Flags.empty.or .minimalData) refusing .base ⟨id,id,id⟩) [0] ∧
      ¬ TakesShortest (.ofFlags (Flags.empty.or .minimalData) refusing .base ⟨id,id,id⟩) [0x20] :=
  ⟨not_takesShortest_of_nonMinimal (by decide) (by decide) (by decide),
    not_takesShortest_of_one (by decide) (by decide) (by decide) (by decide)⟩

end Minimal
end Interpreter
end Tkeycoin
