import Tkeycoin.StackSafety

/-! The arithmetic opcodes over the integers: their operands, their results, and
the range both are meant to stay in. -/
namespace Tkeycoin

open ActionLogic

namespace ScriptNum

/-- The range of four bytes with a sign, from `-2^31 + 1` to `2^31 - 1`. -/
def InRange (n : ℤ) : Prop := -(2^31-1) ≤ n ∧ n ≤ 2^31-1

instance (n : ℤ) : Decidable (InRange n) := inferInstanceAs (Decidable (_ ∧ _))

/-- The range of `int64_t`. -/
def InInt64 (n : ℤ) : Prop := -2^63 ≤ n ∧ n < 2^63

instance (n : ℤ) : Decidable (InInt64 n) := inferInstanceAs (Decidable (_ ∧ _))

theorem InRange.inInt64 {n : ℤ} (h : InRange n) : InInt64 n := by
  simp only [InRange,InInt64] at *
  omega

/-- The sign takes one bit of the magnitude. -/
theorem unsignedMagnitude_lt (vch : Bytes) (h : vch ≠ []) :
    unsignedMagnitude vch < 2 ^ (8 * vch.length - 1) := by
  induction vch using unsignedMagnitude.induct with
  | case1 => exact absurd rfl h
  | case2 back => simpa [unsignedMagnitude] using Nat.mod_lt _ (by decide)
  | case3 byte rest hne ih =>
    have hr := ih hne
    have hb := byte.toNat_lt
    have hlen : 0 < rest.length := List.length_pos_iff.mpr hne
    have he : 8 * (byte :: rest).length - 1 = 8 * rest.length - 1 + 8 := by
      simp only [List.length_cons]
      omega
    rw [unsignedMagnitude,he,pow_add]
    · omega
    · exact hne

/-- Four bytes decode into the range. -/
theorem setVch_inRange {vch : Bytes} (h : vch.length ≤ 4) : InRange (setVch vch).toInt := by
  by_cases hnil : vch = []
  · subst hnil
    decide
  have hm : unsignedMagnitude vch < 2^31 :=
    (unsignedMagnitude_lt vch hnil).trans_le (Nat.pow_le_pow_right (by decide) (by omega))
  have hs := setVch_eq vch
  by_cases hneg : signBit vch
  · rw [hs.1 hneg,Int64.toInt_ofInt_of_le (by omega) (by omega)]
    simp only [InRange]
    omega
  · rw [hs.2 hneg,Int64.toInt_ofInt_of_le (by omega) (by omega)]
    simp only [InRange]
    omega

theorem ofData_inRange {vch : Bytes} {minimal : Bool} {n : ScriptNum}
    (h : ofData vch minimal nDefaultMaxNumSize = .ok n) : InRange n._value.toInt := by
  rw [ofData] at h
  split_ifs at h with hlen hmin
  obtain rfl : (⟨setVch vch⟩ : ScriptNum) = n := by simpa using h
  exact setVch_inRange (by simpa [nDefaultMaxNumSize] using hlen)

theorem ofBool_toInt (b : Bool) : (ofBool b)._value.toInt = if b then 1 else 0 := by
  cases b <;> rfl

theorem ofBool_inRange (b : Bool) : InRange (ofBool b)._value.toInt := by
  cases b <;> decide

end ScriptNum

namespace Interpreter

open ScriptNum

section Operands

variable (env : Env)

/-- Operands of an arithmetic opcode, from OP_1ADD to OP_WITHIN. -/
def arity (opCode : OpCode) : Option ℕ :=
  if opCode ∈ [OpCode.op1Add,OpCode.op1Sub,OpCode.opNegate,OpCode.opAbs,OpCode.opNot,
    OpCode.op0NotEqual] then some 1
  else if opCode ∈ [OpCode.opAdd,OpCode.opSub,OpCode.opBoolAnd,OpCode.opBoolOr,OpCode.opNumEqual,
    OpCode.opNumEqualVerify,OpCode.opNumNotEqual,OpCode.opLessThan,OpCode.opGreaterThan,
    OpCode.opLessThanOrEqual,OpCode.opGreaterThanOrEqual,OpCode.opMin,OpCode.opMax] then some 2
  else if opCode = OpCode.opWithin then some 3
  else none

/-- The topmost frames as numbers, if they are there and can all be converted. -/
def numbers : ℕ → Stack → Option (List ScriptNum)
  | 0, _ => some []
  | _+1, [] => none
  | k+1, frame :: rest =>
    match frame.asNumber (env.isSet .minimalData) with
    | .error _ => none
    | .ok n => (numbers k rest).map (n :: ·)

end Operands

/-- A truth value among the integers. -/
def truth (p : Prop) [Decidable p] : ℤ := if p then 1 else 0

/-- What the arithmetic opcodes stand for, on integers without bounds. Operands
are listed from the top of the stack. -/
def result (opCode : OpCode) : List ℤ → ℤ
  | [x] =>
    if opCode = OpCode.op1Add then x + 1
    else if opCode = OpCode.op1Sub then x - 1
    else if opCode = OpCode.opNegate then -x
    else if opCode = OpCode.opAbs then |x|
    else if opCode = OpCode.opNot then truth (x = 0)
    else truth (x ≠ 0)
  | [x2,x1] =>
    if opCode = OpCode.opAdd then x1 + x2
    else if opCode = OpCode.opSub then x1 - x2
    else if opCode = OpCode.opBoolAnd then truth (x1 ≠ 0 ∧ x2 ≠ 0)
    else if opCode = OpCode.opBoolOr then truth (x1 ≠ 0 ∨ x2 ≠ 0)
    else if opCode = OpCode.opNumEqual ∨ opCode = OpCode.opNumEqualVerify then truth (x1 = x2)
    else if opCode = OpCode.opNumNotEqual then truth (x1 ≠ x2)
    else if opCode = OpCode.opLessThan then truth (x1 < x2)
    else if opCode = OpCode.opGreaterThan then truth (x1 > x2)
    else if opCode = OpCode.opLessThanOrEqual then truth (x1 ≤ x2)
    else if opCode = OpCode.opGreaterThanOrEqual then truth (x1 ≥ x2)
    else if opCode = OpCode.opMin then min x1 x2
    else max x1 x2
  | [x3,x2,x1] => truth (x2 ≤ x1 ∧ x1 < x3)
  | _ => 0

/-- Operands and result of an opcode as integers. -/
def exactResult (opCode : OpCode) (vs : List ScriptNum) : ℤ := result opCode (vs.map (·._value.toInt))

/-- NUMEQUALVERIFY goes on with its result, the others leave it on the stack. -/
def afterResult (opCode : OpCode) : Action Unit :=
  if opCode = OpCode.opNumEqualVerify then verifyTop .numEqualVerify else pure ()

section Results

variable (env : Env)

/-- Without operands the action is an error of the script. A result that fits 64
bits is exact and takes the place of the operands. -/
def Computes (opCode : OpCode) (k : ℕ) (x : Action Unit) : Prop :=
  ∀ s, match numbers env k s._stack with
    | none => ∃ code u, x.run s = .error (.script code) u
    | some vs => InInt64 (exactResult opCode vs) →
        ∃ r : ScriptNum, r._value.toInt = exactResult opCode vs ∧
          x.run s = (afterResult opCode).run { s with _stack := .number r :: s._stack.drop k }

theorem toInt_add_exact {a b : Int64} (h : InInt64 (a.toInt + b.toInt)) :
    (a + b).toInt = a.toInt + b.toInt := by
  rw [Int64.toInt_add]
  exact Int.bmod_eq_of_le (by simpa using h.1) (by simpa using h.2)

theorem toInt_sub_exact {a b : Int64} (h : InInt64 (a.toInt - b.toInt)) :
    (a - b).toInt = a.toInt - b.toInt := by
  rw [Int64.toInt_sub]
  exact Int.bmod_eq_of_le (by simpa using h.1) (by simpa using h.2)

theorem toInt_neg_exact {a : Int64} (h : InInt64 (-a.toInt)) : (-a).toInt = -a.toInt := by
  rw [Int64.toInt_neg]
  exact Int.bmod_eq_of_le (by simpa using h.1) (by simpa using h.2)

/-- Only the smallest number has no opposite. -/
theorem neg_exact {n : ScriptNum} (h : InInt64 (-n._value.toInt)) :
    ∃ r, n.neg = .ok r ∧ r._value.toInt = -n._value.toInt := by
  have hmin : n._value ≠ Int64.minValue := by
    intro hc
    rw [hc] at h
    exact absurd h (by decide)
  exact ⟨_,by rw [ScriptNum.neg,if_neg hmin],toInt_neg_exact h⟩

theorem ofBool_exact {b : Bool} {p : Prop} [Decidable p] (h : b = true ↔ p) :
    (ScriptNum.ofBool b)._value.toInt = truth p := by
  rw [ofBool_toInt,truth]
  exact if_congr h rfl rfl

theorem unaryNum_computes {opCode : OpCode} {f : ScriptNum → Except ScriptError ScriptNum}
    (hf : ∀ x, InInt64 (exactResult opCode [x]) → ∃ r, f x = .ok r ∧ r._value.toInt = exactResult opCode [x])
    (hafter : afterResult opCode = pure ()) : Computes env opCode 1 (unaryNum env f) := by
  rintro ⟨n,stack,alt,fl,cur,sep⟩
  cases stack with
  | nil => exact ⟨_,_,run_bind_error (ensure_starved (Nat.zero_lt_one))⟩
  | cons frame rest =>
    have hrun : (unaryNum env f).run ⟨n,frame :: rest,alt,fl,cur,sep⟩ =
        (do let x ← takeNumber env; let r ← liftScript (f x); pushNumber r).run
          ⟨n,frame :: rest,alt,fl,cur,sep⟩ := run_bind_ok (ensure_enough (by simp))
    rw [hrun,EStateM.run_bind,takeNumber_run_cons]
    cases hx : frame.asNumber (env.isSet .minimalData) with
    | error code => simp [numbers,hx]
    | ok x =>
      simp only [numbers,hx,Option.map_some]
      intro hfits
      obtain ⟨r,hr,hval⟩ := hf x hfits
      exact ⟨r,hval,by rw [hafter,hr]; rfl⟩

/-- What the opcodes with two operands do, before NUMEQUALVERIFY looks at it. -/
theorem binaryNum_run (f : ScriptNum → ScriptNum → ScriptNum) (s : Interpreter) :
    match numbers env 2 s._stack with
    | none => ∃ code u, (binaryNum env f).run s = .error (.script code) u
    | some vs => ∃ x2 x1, vs = [x2,x1] ∧ (binaryNum env f).run s =
        .ok () { s with _stack := .number (f x1 x2) :: s._stack.drop 2 } := by
  obtain ⟨n,stack,alt,fl,cur,sep⟩ := s
  rcases stack with _ | ⟨frame2,_ | ⟨frame1,rest⟩⟩
  · exact ⟨_,_,run_bind_error (ensure_starved (by simp))⟩
  · have hnone : numbers env 2 [frame2] = none := by
      cases hx : frame2.asNumber (env.isSet .minimalData) <;> simp [numbers,hx]
    rw [hnone]
    exact ⟨_,_,run_bind_error (ensure_starved (by simp))⟩
  · have hrun : (binaryNum env f).run ⟨n,frame2 :: frame1 :: rest,alt,fl,cur,sep⟩ =
        (do let x2 ← takeNumber env; let x1 ← takeNumber env; pushNumber (f x1 x2)).run
          ⟨n,frame2 :: frame1 :: rest,alt,fl,cur,sep⟩ := run_bind_ok (ensure_enough (by simp))
    rw [hrun,EStateM.run_bind,takeNumber_run_cons]
    cases hx2 : frame2.asNumber (env.isSet .minimalData) with
    | error code => simp [numbers,hx2]
    | ok x2 =>
      simp only [EStateM.run_bind,takeNumber_run_cons]
      cases hx1 : frame1.asNumber (env.isSet .minimalData) with
      | error code => simp [numbers,hx2,hx1]
      | ok x1 =>
        simp only [numbers,hx2,hx1,Option.map_some]
        exact ⟨x2,x1,rfl,rfl⟩

theorem binaryNum_computes {opCode : OpCode} {f : ScriptNum → ScriptNum → ScriptNum}
    (hf : ∀ x2 x1, InInt64 (exactResult opCode [x2,x1]) →
      (f x1 x2)._value.toInt = exactResult opCode [x2,x1])
    {x : Action Unit} (hx : x = do binaryNum env f; afterResult opCode) : Computes env opCode 2 x := by
  intro s
  have hrun := binaryNum_run env f s
  cases hn : numbers env 2 s._stack with
  | none =>
    simp only [hn] at hrun ⊢
    obtain ⟨code,u,hu⟩ := hrun
    exact ⟨code,u,by rw [hx]; exact run_bind_error hu⟩
  | some vs =>
    simp only [hn] at hrun ⊢
    obtain ⟨x2,x1,rfl,hu⟩ := hrun
    intro hfits
    exact ⟨f x1 x2,hf x2 x1 hfits,by rw [hx]; exact run_bind_ok hu⟩

theorem binaryNum_computes_pure {opCode : OpCode} {f : ScriptNum → ScriptNum → ScriptNum}
    (hafter : afterResult opCode = pure ()) (hf : ∀ x2 x1, InInt64 (exactResult opCode [x2,x1]) →
      (f x1 x2)._value.toInt = exactResult opCode [x2,x1]) : Computes env opCode 2 (binaryNum env f) :=
  binaryNum_computes env hf (by rw [hafter]; exact bind_pure_unit.symm)

/-- The opcodes that test a relation between the operands. -/
theorem test_computes {opCode : OpCode} {f : ScriptNum → ScriptNum → Bool} (p : ℤ → ℤ → Prop)
    [DecidableRel p] (hafter : afterResult opCode = pure ())
    (hp : ∀ a b, result opCode [b,a] = truth (p a b))
    (hf : ∀ x1 x2, f x1 x2 = true ↔ p x1._value.toInt x2._value.toInt) :
    Computes env opCode 2 (binaryNum env fun x1 x2 => ScriptNum.ofBool (f x1 x2)) :=
  binaryNum_computes_pure env hafter fun x2 x1 _ => (ofBool_exact (hf x1 x2)).trans (hp _ _).symm

theorem opWithin_computes : Computes env OpCode.opWithin 3 (opWithin env) := by
  rintro ⟨n,stack,alt,fl,cur,sep⟩
  by_cases hlen : stack.length < 3
  · have hnone : numbers env 3 stack = none := by
      rcases stack with _ | ⟨f3,_ | ⟨f2,_ | ⟨f1,rest⟩⟩⟩
      · rfl
      · cases h3 : f3.asNumber (env.isSet .minimalData) <;> simp [numbers,h3]
      · cases h3 : f3.asNumber (env.isSet .minimalData) <;>
          cases h2 : f2.asNumber (env.isSet .minimalData) <;> simp [numbers,h3,h2]
      · simp +arith at hlen
    simp only [hnone]
    exact ⟨_,_,run_bind_error (ensure_starved hlen)⟩
  · rcases stack with _ | ⟨f3,_ | ⟨f2,_ | ⟨f1,rest⟩⟩⟩
    all_goals simp only [List.length_cons,List.length_nil] at hlen
    all_goals try omega
    have hrun : (opWithin env).run ⟨n,f3 :: f2 :: f1 :: rest,alt,fl,cur,sep⟩ = (do
        let x3 ← takeNumber env
        let x2 ← takeNumber env
        let x1 ← takeNumber env
        pushBool (x2._value ≤ x1._value && x1._value < x3._value)).run
          ⟨n,f3 :: f2 :: f1 :: rest,alt,fl,cur,sep⟩ := run_bind_ok (ensure_enough (by simp))
    rw [hrun,EStateM.run_bind,takeNumber_run_cons]
    cases h3 : f3.asNumber (env.isSet .minimalData) with
    | error code => simp [numbers,h3]
    | ok x3 =>
      simp only [EStateM.run_bind,takeNumber_run_cons]
      cases h2 : f2.asNumber (env.isSet .minimalData) with
      | error code => simp [numbers,h3,h2]
      | ok x2 =>
        simp only [takeNumber_run_cons]
        cases h1 : f1.asNumber (env.isSet .minimalData) with
        | error code => simp [numbers,h3,h2,h1]
        | ok x1 =>
          simp only [numbers,h3,h2,h1,Option.map_some]
          intro _
          refine ⟨_,?_,rfl⟩
          rw [ofBool_exact (p := x2._value.toInt ≤ x1._value.toInt ∧ x1._value.toInt < x3._value.toInt)]
          · rfl
          · simp [Int64.le_iff_toInt_le,Int64.lt_iff_toInt_lt]

/-- Every arithmetic opcode computes what it stands for. -/
theorem dispatch_computes {opCode : OpCode} {k : ℕ} (d : ScriptData) (h : arity opCode = some k) :
    Computes env opCode k (dispatch env opCode d) := by
  unfold arity at h
  split_ifs at h with h₁ h₂ h₃ <;> cases h
  · simp only [List.mem_cons,List.not_mem_nil,or_false] at h₁
    rcases h₁ with rfl | rfl | rfl | rfl | rfl | rfl
    · exact unaryNum_computes env (fun x hx => ⟨_,rfl,toInt_add_exact hx⟩) rfl
    · exact unaryNum_computes env (fun x hx => ⟨_,rfl,toInt_sub_exact hx⟩) rfl
    · exact unaryNum_computes env (fun x hx => neg_exact hx) rfl
    · refine unaryNum_computes env (fun x hx => ?_) rfl
      by_cases hneg : x._value < 0
      · have hlt : x._value.toInt < 0 := by simpa [Int64.lt_iff_toInt_lt] using hneg
        have habs : exactResult OpCode.opAbs [x] = -x._value.toInt := abs_of_neg hlt
        rw [if_pos hneg,habs]
        exact neg_exact (habs ▸ hx)
      · have hge : 0 ≤ x._value.toInt := by simpa [Int64.lt_iff_toInt_lt] using hneg
        rw [if_neg hneg]
        exact ⟨x,rfl,(abs_of_nonneg hge).symm⟩
    · exact unaryNum_computes env (fun x _ => ⟨_,rfl,ofBool_exact (by simp [← Int64.toInt_inj])⟩) rfl
    · exact unaryNum_computes env (fun x _ => ⟨_,rfl,ofBool_exact (by simp [← Int64.toInt_inj])⟩) rfl
  · simp only [List.mem_cons,List.not_mem_nil,or_false] at h₂
    rcases h₂ with rfl | rfl | rfl | rfl | rfl | rfl | rfl | rfl | rfl | rfl | rfl | rfl | rfl
    · exact binaryNum_computes_pure env rfl fun x2 x1 hx => toInt_add_exact hx
    · exact binaryNum_computes_pure env rfl fun x2 x1 hx => toInt_sub_exact hx
    · exact test_computes env (fun a b => a ≠ 0 ∧ b ≠ 0) rfl (fun _ _ => rfl) (by simp [← Int64.toInt_inj])
    · exact test_computes env (fun a b => a ≠ 0 ∨ b ≠ 0) rfl (fun _ _ => rfl) (by simp [← Int64.toInt_inj])
    · exact test_computes env (fun a b => a = b) rfl (fun _ _ => rfl) (by simp [← Int64.toInt_inj])
    · exact binaryNum_computes env (fun x2 x1 _ => (ofBool_exact (by simp [← Int64.toInt_inj])).trans
        (show truth (x1._value.toInt = x2._value.toInt) = _ from rfl)) rfl
    · exact test_computes env (fun a b => a ≠ b) rfl (fun _ _ => rfl) (by simp [← Int64.toInt_inj])
    · exact test_computes env (fun a b => a < b) rfl (fun _ _ => rfl) (by simp [Int64.lt_iff_toInt_lt])
    · exact test_computes env (fun a b => a > b) rfl (fun _ _ => rfl) (by simp [Int64.lt_iff_toInt_lt])
    · exact test_computes env (fun a b => a ≤ b) rfl (fun _ _ => rfl) (by simp [Int64.le_iff_toInt_le])
    · exact test_computes env (fun a b => a ≥ b) rfl (fun _ _ => rfl) (by simp [Int64.le_iff_toInt_le])
    · refine binaryNum_computes_pure env rfl fun x2 x1 _ => ?_
      rw [apply_ite (fun n : ScriptNum => n._value.toInt)]
      change _ = min x1._value.toInt x2._value.toInt
      simp only [Int64.lt_iff_toInt_lt,min_def]
      split_ifs <;> omega
    · refine binaryNum_computes_pure env rfl fun x2 x1 _ => ?_
      rw [apply_ite (fun n : ScriptNum => n._value.toInt)]
      change _ = max x1._value.toInt x2._value.toInt
      simp only [gt_iff_lt,Int64.lt_iff_toInt_lt,max_def]
      split_ifs <;> omega
  · obtain rfl : opCode = OpCode.opWithin := h₃
    exact opWithin_computes env

end Results
end Interpreter
end Tkeycoin
