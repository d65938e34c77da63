import Tkeycoin.Execute

/-! What reading an instruction and the stack primitives do, and the opcodes that
only rearrange frames. -/
namespace Tkeycoin
namespace Interpreter

@[simp] theorem throwScript_run {α : Type} (code : ScriptError) (s : Interpreter) :
    (throwScript code : Action α).run s = .error (.script code) s := rfl

@[simp] theorem abort_run {α : Type} (fault : Fault) (s : Interpreter) :
    (abort fault : Action α).run s = .error (.abort fault) s := rfl

theorem ensure_enough {need : ℕ} {s : Interpreter} (h : need ≤ s._stack.length) :
    (ensureStackHasEnoughFrames need).run s = .ok () s := by
  have hn : ¬ s._stack.length < need := by omega
  simp [ensureStackHasEnoughFrames,EStateM.run_bind,hn]

theorem ensure_starved {need : ℕ} {s : Interpreter} (h : s._stack.length < need) :
    (ensureStackHasEnoughFrames need).run s = .error (.script .invalidStackOperation) s := by
  simp [ensureStackHasEnoughFrames,EStateM.run_bind,h]

section Primitives

variable (frame : StackFrame) (rest alt : Stack) (n : ℕ) (flags : List Bool) (cur sep : Bytes)

@[simp] theorem take_run_cons :
    take.run ⟨n,frame :: rest,alt,flags,cur,sep⟩ = .ok frame ⟨n,rest,alt,flags,cur,sep⟩ := rfl

@[simp] theorem take_run_nil :
    take.run ⟨n,[],alt,flags,cur,sep⟩ = .error (.abort .noFrame) ⟨n,[],alt,flags,cur,sep⟩ := rfl

@[simp] theorem pop_run_cons :
    pop.run ⟨n,frame :: rest,alt,flags,cur,sep⟩ = .ok () ⟨n,rest,alt,flags,cur,sep⟩ := rfl

@[simp] theorem top_run_cons :
    top.run ⟨n,frame :: rest,alt,flags,cur,sep⟩ = .ok frame ⟨n,frame :: rest,alt,flags,cur,sep⟩ :=
  rfl

@[simp] theorem topData_run_cons :
    topData.run ⟨n,frame :: rest,alt,flags,cur,sep⟩ =
      .ok frame.asData ⟨n,.data frame.asData :: rest,alt,flags,cur,sep⟩ := rfl

theorem takeNumber_run_cons (env : Env) :
    (takeNumber env).run ⟨n,frame :: rest,alt,flags,cur,sep⟩ =
      match frame.asNumber (env.isSet .minimalData) with
      | .ok x => .ok x ⟨n,rest,alt,flags,cur,sep⟩
      | .error code => .error (.script code) ⟨n,rest,alt,flags,cur,sep⟩ := by
  simp only [takeNumber,EStateM.run_bind,take_run_cons]
  cases frame.asNumber (env.isSet .minimalData) <;> rfl

theorem takeIndex_run_cons (env : Env) :
    (takeIndex env).run ⟨n,frame :: rest,alt,flags,cur,sep⟩ =
      match frame.asNumber (env.isSet .minimalData) with
      | .ok x => .ok (1 + x.getint) ⟨n,rest,alt,flags,cur,sep⟩
      | .error code => .error (.script code) ⟨n,rest,alt,flags,cur,sep⟩ := by
  simp only [takeIndex,EStateM.run_bind,takeNumber_run_cons]
  cases frame.asNumber (env.isSet .minimalData) <;> rfl

theorem takeCount_run_cons (env : Env) (bound : ℕ) (code : ScriptError) :
    (takeCount env bound code).run ⟨n,frame :: rest,alt,flags,cur,sep⟩ =
      match frame.asNumber (env.isSet .minimalData) with
      | .ok x =>
        if x.getint < 0 ∨ x.getint.toInt > bound then .error (.script code) ⟨n,rest,alt,flags,cur,sep⟩
        else .ok x.getint.toInt.toNat ⟨n,rest,alt,flags,cur,sep⟩
      | .error e => .error (.script e) ⟨n,rest,alt,flags,cur,sep⟩ := by
  simp only [takeCount,EStateM.run_bind,takeNumber_run_cons]
  cases frame.asNumber (env.isSet .minimalData) with
  | error e => rfl
  | ok x => by_cases h : x.getint < 0 ∨ x.getint.toInt > bound <;> simp [h]

@[simp] theorem push_run (s : Interpreter) :
    (push frame).run s = .ok () { s with _stack := frame :: s._stack } := rfl

end Primitives

@[simp] theorem pushAll_run (frames : List StackFrame) (s : Interpreter) :
    (pushAll frames).run s = .ok () { s with _stack := frames.reverse ++ s._stack } := by
  induction frames generalizing s with
  | nil => rfl
  | cons frame frames ih => simp [pushAll,ih,EStateM.run_bind]

theorem countOps_run (n : ℕ) (s : Interpreter) :
    (countOps n).run s =
      if s._opCount + n > Script.MAX_OPS_PER_SCRIPT then
        .error (.script .opCount) { s with _opCount := s._opCount + n }
      else .ok () { s with _opCount := s._opCount + n } := by
  unfold countOps
  by_cases h : s._opCount + n > Script.MAX_OPS_PER_SCRIPT <;> simp [EStateM.run_bind,h]

/-- What follows once an instruction has been taken off the script. -/
def fetched (i : OpCode × ScriptData) (s : Interpreter) : EStateM.Result Stop Interpreter (OpCode × ScriptData) :=
  if i.2.length > Script.MAX_SCRIPT_ELEMENT_SIZE then .error (.script .pushSize) s
  else if i.1 > OpCode.op16 then
    if s._opCount + 1 > Script.MAX_OPS_PER_SCRIPT then
      .error (.script .opCount) { s with _opCount := s._opCount + 1 }
    else .ok i { s with _opCount := s._opCount + 1 }
  else .ok i s

theorem fetch_run (s : Interpreter) : fetch.run s =
    match Script.getScriptOp s._curScriptPosition with
    | (none,_) => .error (.script .badOpCode) s
    | (some i,next) => fetched i { s with _curScriptPosition := next } := by
  simp only [fetch,fetched,EStateM.run_bind,EStateM.run_get]
  rcases Script.getScriptOp s._curScriptPosition with ⟨_ | i,next⟩
  · rfl
  · simp only [EStateM.run_bind,EStateM.run_set]
    by_cases h₁ : i.2.length > Script.MAX_SCRIPT_ELEMENT_SIZE
    · simp [h₁]
    by_cases h₂ : i.1 > OpCode.op16
    · simp only [h₁,h₂,if_true,if_false,EStateM.run_bind,countOps_run]
      split_ifs <;> rfl
    · simp [h₁,h₂]

theorem fetched_ok {i j : OpCode × ScriptData} {s t : Interpreter} (h : fetched i s = .ok j t) :
    i = j ∧ t = { s with _opCount := t._opCount } := by
  unfold fetched at h
  split_ifs at h <;> cases h <;> exact ⟨rfl,rfl⟩

theorem fetched_error {i : OpCode × ScriptData} {s t : Interpreter} {e : Stop}
    (h : fetched i s = .error e t) : ∃ code, e = .script code := by
  unfold fetched at h
  split_ifs at h <;> cases h <;> exact ⟨_,rfl⟩

/-- Pushes lie below the conditionals. -/
theorem not_conditional {opCode : OpCode} (h : opCode < OpCode.opPushData1) :
    ¬ (OpCode.opIf ≤ opCode ∧ opCode ≤ OpCode.opEndIf) := fun hc =>
  absurd (UInt8.lt_of_le_of_lt hc.1 h) (by decide)

theorem carryOut_run (env : Env) (opCode : OpCode) (d : ScriptData) (s : Interpreter) :
    (carryOut env opCode d).run s =
      if OpCode.opIf ≤ opCode ∧ opCode ≤ OpCode.opEndIf then
        (do conditional env opCode; sizeLimits).run s
      else if mustExecuted s = true then
        if opCode < OpCode.opPushData1 then (opPushData env opCode d).run s
        else (do dispatch env opCode d; sizeLimits).run s
      else sizeLimits.run s := by
  simp only [carryOut,EStateM.run_bind,EStateM.run_get]
  split_ifs <;> rfl

@[simp] theorem sizeLimits_run (s : Interpreter) :
    sizeLimits.run s =
      if s._stack.length + s._altStack.length > Script.MAX_STACK_SIZE then
        .error (.script .stackSize) s
      else .ok () s := by
  simp only [sizeLimits,EStateM.run_bind,EStateM.run_get]
  split_ifs <;> rfl

/-- The frame a direct push or PUSHDATA1 makes of its data. -/
def numberOrData (d : ScriptData) : StackFrame :=
  if d.length ≤ 4 then .number ⟨ScriptNum.setVch d⟩ else .data d

theorem pushNumberOrData_run (env : Env) (d : ScriptData) (s : Interpreter) :
    (pushNumberOrData env d).run s =
      if d.length ≤ 4 ∧ env.isSet .minimalData = true ∧ ScriptNum.nonMinimal d = true then
        .error (.script .convertionToNumber) s
      else .ok () { s with _stack := numberOrData d :: s._stack } := by
  unfold pushNumberOrData numberOrData
  by_cases hlen : d.length ≤ 4
  · have hsize : ¬ d.length > ScriptNum.nDefaultMaxNumSize := by
      simpa [ScriptNum.nDefaultMaxNumSize] using hlen
    by_cases hmin : env.isSet .minimalData = true ∧ ScriptNum.nonMinimal d = true
    · simp [hlen,hmin,ScriptNum.ofData,hsize,EStateM.run_bind,liftScript,Except.mapError,lift]
      rfl
    · have hok : ScriptNum.ofData d (env.isSet .minimalData) ScriptNum.nDefaultMaxNumSize =
          .ok ⟨ScriptNum.setVch d⟩ := by
        rw [ScriptNum.ofData,if_neg hsize,if_neg (by simpa using hmin)]
      rw [if_pos hlen,hok,if_neg (fun h => hmin h.2),if_pos hlen]
      rfl
  · simp [hlen]

/-- The action needs `k` frames and replaces them by those listed, counted from
the top, with nothing else changed. -/
def Rearranges (k : ℕ) (order : List ℕ) (x : Action Unit) : Prop :=
  ∀ s, x.run s =
    if s._stack.length < k then .error (.script .invalidStackOperation) s
    else .ok () { s with _stack := order.filterMap (s._stack[·]?) ++ s._stack.drop k }

theorem op2Drop_rearranges : Rearranges 2 [] op2Drop := by
  rintro ⟨n,stack,alt,flags,cur,sep⟩
  rcases stack with _ | ⟨x2,_ | ⟨x1,rest⟩⟩ <;>
    simp +arith [op2Drop,EStateM.run_bind,ensure_enough,ensure_starved]

theorem op2Dup_rearranges : Rearranges 2 [0,1,0,1] op2Dup := by
  rintro ⟨n,stack,alt,flags,cur,sep⟩
  rcases stack with _ | ⟨x2,_ | ⟨x1,rest⟩⟩ <;>
    simp +arith [op2Dup,EStateM.run_bind,ensure_enough,ensure_starved]

theorem op3Dup_rearranges : Rearranges 3 [0,1,2,0,1,2] op3Dup := by
  rintro ⟨n,stack,alt,flags,cur,sep⟩
  rcases stack with _ | ⟨x3,_ | ⟨x2,_ | ⟨x1,rest⟩⟩⟩ <;>
    simp +arith [op3Dup,EStateM.run_bind,ensure_enough,ensure_starved]

theorem op2Over_rearranges : Rearranges 4 [2,3,0,1,2,3] op2Over := by
  rintro ⟨n,stack,alt,flags,cur,sep⟩
  rcases stack with _ | ⟨x4,_ | ⟨x3,_ | ⟨x2,_ | ⟨x1,rest⟩⟩⟩⟩ <;>
    simp +arith [op2Over,EStateM.run_bind,ensure_enough,ensure_starved]

theorem op2Rot_rearranges : Rearranges 6 [4,5,0,1,2,3] op2Rot := by
  rintro ⟨n,stack,alt,flags,cur,sep⟩
  rcases stack with _ | ⟨x6,_ | ⟨x5,_ | ⟨x4,_ | ⟨x3,_ | ⟨x2,_ | ⟨x1,rest⟩⟩⟩⟩⟩⟩ <;>
    simp +arith [op2Rot,EStateM.run_bind,ensure_enough,ensure_starved]

theorem op2Swap_rearranges : Rearranges 4 [2,3,0,1] op2Swap := by
  rintro ⟨n,stack,alt,flags,cur,sep⟩
  rcases stack with _ | ⟨x4,_ | ⟨x3,_ | ⟨x2,_ | ⟨x1,rest⟩⟩⟩⟩ <;>
    simp +arith [op2Swap,EStateM.run_bind,ensure_enough,ensure_starved]

theorem opDrop_rearranges : Rearranges 1 [] opDrop := by
  rintro ⟨n,stack,alt,flags,cur,sep⟩
  rcases stack with _ | ⟨x1,rest⟩ <;>
    simp +arith [opDrop,EStateM.run_bind,ensure_enough,ensure_starved]

theorem opDup_rearranges : Rearranges 1 [0,0] opDup := by
  rintro ⟨n,stack,alt,flags,cur,sep⟩
  rcases stack with _ | ⟨x1,rest⟩ <;>
    simp +arith [opDup,EStateM.run_bind,ensure_enough,ensure_starved]

theorem opNip_rearranges : Rearranges 2 [0] opNip := by
  rintro ⟨n,stack,alt,flags,cur,sep⟩
  rcases stack with _ | ⟨x2,_ | ⟨x1,rest⟩⟩ <;>
    simp +arith [opNip,EStateM.run_bind,ensure_enough,ensure_starved]

theorem opOver_rearranges : Rearranges 2 [1,0,1] opOver := by
  rintro ⟨n,stack,alt,flags,cur,sep⟩
  rcases stack with _ | ⟨x2,_ | ⟨x1,rest⟩⟩ <;>
    simp +arith [opOver,EStateM.run_bind,ensure_enough,ensure_starved]

theorem opRot_rearranges : Rearranges 3 [2,0,1] opRot := by
  rintro ⟨n,stack,alt,flags,cur,sep⟩
  rcases stack with _ | ⟨x3,_ | ⟨x2,_ | ⟨x1,rest⟩⟩⟩ <;>
    simp +arith [opRot,EStateM.run_bind,ensure_enough,ensure_starved]

theorem opSwap_rearranges : Rearranges 2 [1,0] opSwap := by
  rintro ⟨n,stack,alt,flags,cur,sep⟩
  rcases stack with _ | ⟨x2,_ | ⟨x1,rest⟩⟩ <;>
    simp +arith [opSwap,EStateM.run_bind,ensure_enough,ensure_starved]

theorem opTuck_rearranges : Rearranges 2 [0,1,0] opTuck := by
  rintro ⟨n,stack,alt,flags,cur,sep⟩
  rcases stack with _ | ⟨x2,_ | ⟨x1,rest⟩⟩ <;>
    simp +arith [opTuck,EStateM.run_bind,ensure_enough,ensure_starved]

/-- Rounds of `while (--n)`: the counter is decremented before the first test and
wraps below the smallest number. -/
def rounds (n : Int32) : ℕ := ((n.toInt - 1) % 2^32).toNat

theorem rounds_eq_zero_iff (n : Int32) : n - 1 = 0 ↔ rounds n = 0 := by
  have h₁ := n.toInt_lt
  have h₂ := n.le_toInt
  rw [← Int32.toInt_inj,Int32.toInt_sub,rounds]
  simp only [Int32.toInt_one,Int32.toInt_zero,Int.bmod_def] at *
  omega

theorem rounds_pred (n : Int32) (h : rounds n ≠ 0) : rounds (n-1) + 1 = rounds n := by
  have h₁ := n.toInt_lt
  have h₂ := n.le_toInt
  rw [rounds] at *
  rw [rounds,Int32.toInt_sub]
  simp only [Int32.toInt_one,Int.bmod_def] at *
  omega

/-- The loop takes as many frames as it has rounds, if the stack has them. -/
theorem takeLoop_eq (n : Int32) (tmp stack : Stack) :
    takeLoop n tmp stack =
      if rounds n ≤ stack.length then some ((stack.take (rounds n)).reverse ++ tmp,stack.drop (rounds n))
      else none := by
  induction stack generalizing n tmp with
  | nil =>
    by_cases h : rounds n = 0
    · simp [takeLoop,h,(rounds_eq_zero_iff n).mpr h]
    · have hn : ¬ n - 1 = 0 := fun hc => h ((rounds_eq_zero_iff n).mp hc)
      simp [takeLoop,h,hn]
  | cons frame rest ih =>
    by_cases h : rounds n = 0
    · simp [takeLoop,h,(rounds_eq_zero_iff n).mpr h]
    · have hn : ¬ n - 1 = 0 := fun hc => h ((rounds_eq_zero_iff n).mp hc)
      rw [takeLoop,if_neg hn,ih,← rounds_pred n h]
      simp

theorem takeToTmp_run (n : Int32) (s : Interpreter) :
    (takeToTmp n).run s =
      if rounds n ≤ s._stack.length then
        .ok (s._stack.take (rounds n)).reverse { s with _stack := s._stack.drop (rounds n) }
      else .error (.abort .noFrame) s := by
  simp only [takeToTmp,EStateM.run_bind,EStateM.run_get,takeLoop_eq,List.append_nil]
  split_ifs <;> rfl

/-- Enough frames for a nonzero count leave one behind the loop. -/
theorem rounds_lt_of_toSizeT_le {n : Int32} {l : ℕ} (h0 : n ≠ 0) (h : toSizeT n ≤ l) :
    rounds n < l := by
  have h₁ := n.toInt_lt
  have h₂ := n.le_toInt
  have h₃ : n.toInt ≠ 0 := fun hc => h0 (Int32.toInt_inj.mp (by simpa using hc))
  rw [toSizeT] at h
  rw [rounds]
  omega

end Interpreter
end Tkeycoin
