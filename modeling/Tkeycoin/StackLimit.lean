import Tkeycoin.Runs

/-! The limit on stack and altstack together, and the instruction that goes past it. -/
namespace Tkeycoin

open ActionLogic

namespace Interpreter

/-- Frames on both stacks. -/
def depth (s : Interpreter) : ℕ := s._stack.length + s._altStack.length

/-- A direct push that MINIMALDATA turns down. -/
def refused (env : Env) (opCode : OpCode) (d : ScriptData) : Prop :=
  env.isSet .minimalData = true ∧ ((d = [] ∧ opCode ≠ OpCode.op0) ∨ smallNumberByte d = true ∨
    (d.length ≤ 4 ∧ ScriptNum.nonMinimal d = true))

/-- A direct push adds a frame, unless it is turned down. -/
theorem opPushData_run (env : Env) (opCode : OpCode) (d : ScriptData) (s : Interpreter) :
    (refused env opCode d → ∃ code, (opPushData env opCode d).run s = .error (.script code) s) ∧
      (¬ refused env opCode d → (opPushData env opCode d).run s =
        .ok () { s with _stack := numberOrData d :: s._stack }) := by
  unfold refused opPushData
  by_cases hbyte : env.isSet .minimalData = true ∧ ((d = [] ∧ opCode ≠ OpCode.op0) ∨ smallNumberByte d = true)
  · rw [if_pos hbyte]
    exact ⟨fun _ => ⟨_,rfl⟩,fun h => absurd ⟨hbyte.1,hbyte.2.imp id .inl⟩ h⟩
  · rw [if_neg hbyte,pushNumberOrData_run]
    by_cases hnum : d.length ≤ 4 ∧ env.isSet .minimalData = true ∧ ScriptNum.nonMinimal d = true
    · rw [if_pos hnum]
      exact ⟨fun _ => ⟨_,rfl⟩,fun h => absurd ⟨hnum.2.1,.inr (.inr ⟨hnum.1,hnum.2.2⟩)⟩ h⟩
    · rw [if_neg hnum]
      refine ⟨fun h => ?_,fun _ => rfl⟩
      rcases h with ⟨hmin,h | h | h⟩
      · exact absurd ⟨hmin,.inl h⟩ hbyte
      · exact absurd ⟨hmin,.inr h⟩ hbyte
      · exact absurd ⟨h.1,hmin,h.2⟩ hnum

variable {env : Env} {script : Bytes} {s₀ s t : Interpreter}

/-- An executed direct push, which nothing turns down, comes next. -/
def DirectPushAhead (env : Env) (s : Interpreter) : Prop :=
  ∃ i t, fetch.run s = .ok i t ∧ mustExecuted t = true ∧ i.1 < OpCode.opPushData1 ∧
    ¬ refused env i.1 i.2

theorem sizeLimits_depth {u : Unit} (h : sizeLimits.run s = .ok u t) : depth t ≤ Script.MAX_STACK_SIZE := by
  rw [sizeLimits_run] at h
  split_ifs at h with hd
  obtain rfl : s = t := by simpa using h
  exact Nat.le_of_not_lt hd

theorem andThen_sizeLimits_depth {x : Action Unit} {u : Unit}
    (h : (do x; sizeLimits).run s = .ok u t) : depth t ≤ Script.MAX_STACK_SIZE := by
  rw [run_bind_andThen] at h
  cases hx : x.run s with
  | error e v => rw [hx] at h; cases h
  | ok _ v => exact sizeLimits_depth (by simpa [hx,andThen] using h)

/-- A round ends within the limit or was a direct push, which adds one frame. -/
theorem step_depth (h : (step env).run s = .ok () t) :
    (depth t ≤ Script.MAX_STACK_SIZE ∧ ¬ DirectPushAhead env s) ∨
      (depth t = depth s + 1 ∧ DirectPushAhead env s) := by
  rw [step,run_bind_andThen] at h
  cases hf : fetch.run s with
  | error e v => rw [hf] at h; cases h
  | ok i v =>
    have hv : depth v = depth s := by
      rw [(fetch_ok hf).2]
      rfl
    have hahead : DirectPushAhead env s →
        mustExecuted v = true ∧ i.1 < OpCode.opPushData1 ∧ ¬ refused env i.1 i.2 := by
      rintro ⟨j,w,hj,hw⟩
      obtain ⟨rfl,rfl⟩ : i = j ∧ v = w := by simpa [hf] using hj
      exact hw
    rw [hf] at h
    change (carryOut env i.1 i.2).run v = .ok () t at h
    rw [carryOut_run] at h
    split_ifs at h with hcond hm hpush
    · exact .inl ⟨andThen_sizeLimits_depth h,fun hd => not_conditional (hahead hd).2.1 hcond⟩
    · have hrun := opPushData_run env i.1 i.2 v
      by_cases href : refused env i.1 i.2
      · obtain ⟨code,hcode⟩ := hrun.1 href
        rw [hcode] at h
        cases h
      · rw [hrun.2 href] at h
        obtain rfl : { v with _stack := numberOrData i.2 :: v._stack } = t := by simpa using h
        refine .inr ⟨?_,i,v,hf,hm,hpush,href⟩
        rw [← hv]
        simp only [depth,List.length_cons]
        omega
    · exact .inl ⟨andThen_sizeLimits_depth h,fun hd => hpush (hahead hd).2.1⟩
    · exact .inl ⟨sizeLimits_depth h,fun hd => hm (hahead hd).1⟩

/-- A direct push that is ahead is carried out. -/
theorem step_of_directPush (h : DirectPushAhead env s) :
    ∃ t, (step env).run s = .ok () t ∧ depth t = depth s + 1 := by
  obtain ⟨i,v,hf,hm,hlt,href⟩ := h
  refine ⟨{ v with _stack := numberOrData i.2 :: v._stack },?_,?_⟩
  · rw [step,run_bind_andThen,hf]
    change (carryOut env i.1 i.2).run v = _
    rw [carryOut_run,if_neg (not_conditional hlt),if_pos hm,if_pos hlt]
    exact (opPushData_run env i.1 i.2 v).2 href
  · rw [(fetch_ok hf).2]
    simp only [depth,List.length_cons]
    omega

/-- With a direct push ahead the script has not ended. -/
theorem more_of_directPush (h : DirectPushAhead env s) : more s = true := by
  obtain ⟨i,v,hf,-⟩ := h
  exact more_of_fetch hf

/-- The depth never exceeds the limit in a run exactly when no state of it that is
full has a direct push ahead: that instruction skips the check. -/
theorem depth_le_limit_iff (env : Env) (script : Bytes) (s₀ : Interpreter)
    (h₀ : depth s₀ ≤ Script.MAX_STACK_SIZE) :
    ((∀ s, Reached env script s₀ s → depth s ≤ Script.MAX_STACK_SIZE) ∧
      (∀ code t, execute env script s₀ = .returned true code t → depth t ≤ Script.MAX_STACK_SIZE)) ↔
    ∀ s, Reached env script s₀ s → depth s = Script.MAX_STACK_SIZE → ¬ DirectPushAhead env s := by
  constructor
  · rintro ⟨hle,-⟩ s hs hfull hahead
    obtain ⟨t,ht,hdepth⟩ := step_of_directPush hahead
    have := hle t ⟨hs.1,hs.2.tail ⟨more_of_directPush hahead,ht⟩⟩
    omega
  · intro h
    have hall : ∀ s, Reached env script s₀ s → depth s ≤ Script.MAX_STACK_SIZE := by
      rintro s ⟨hlen,hr⟩
      induction hr with
      | refl => exact h₀
      | @tail s t hr hround ih =>
        rcases step_depth hround.2 with ⟨hd,-⟩ | ⟨hd,hahead⟩
        · exact hd
        · have hne : depth s ≠ Script.MAX_STACK_SIZE := fun hfull => h s ⟨hlen,hr⟩ hfull hahead
          omega
    exact ⟨hall,fun code t ht => hall t (execute_true ht).1⟩

theorem depth_le_limit_iff_op0 :
    ((∀ s, Reached (.ofFlags .empty refusing .base ⟨id,id,id⟩) [0x00] fresh s →
        depth s ≤ Script.MAX_STACK_SIZE) ∧
      (∀ code t, execute (.ofFlags .empty refusing .base ⟨id,id,id⟩) [0x00] fresh =
        .returned true code t → depth t ≤ Script.MAX_STACK_SIZE)) ↔
    ∀ s, Reached (.ofFlags .empty refusing .base ⟨id,id,id⟩) [0x00] fresh s →
      depth s = Script.MAX_STACK_SIZE →
        ¬ DirectPushAhead (.ofFlags .empty refusing .base ⟨id,id,id⟩) s :=
  depth_le_limit_iff _ [0x00] fresh (by decide)

/-- `OP_0` pushes a zero, whatever the flags and the depth. -/
theorem step_op0 (env : Env) {u : Interpreter} {rest : Bytes} (hcur : u._curScriptPosition = 0x00 :: rest)
    (hflags : u._conditionalExecutionFlags = []) :
    (step env).run u =
      .ok () { u with _curScriptPosition := rest, _stack := .number ⟨0⟩ :: u._stack } := by
  have hread : Script.getScriptOp (0x00 :: rest) = (some (OpCode.op0,[]),rest) := by
    simp [Script.getScriptOp,Script.operandSize,OpCode.op0,OpCode.opPushData1,OpCode.opPushData4]
  have hm : mustExecuted { u with _curScriptPosition := rest } = true := by simp [mustExecuted,hflags]
  have href : ¬ refused env OpCode.op0 [] := by simp [refused,smallNumberByte,ScriptNum.nonMinimal]
  rw [step,run_bind_andThen,fetch_run,hcur,hread]
  change (carryOut env OpCode.op0 []).run _ = _
  rw [carryOut_run,if_neg (not_conditional (by decide)),if_pos hm,if_pos (by decide)]
  exact (opPushData_run env OpCode.op0 [] _).2 href

theorem rounds_op0 (env : Env) (n : ℕ) (rest : Bytes) (u : Interpreter)
    (hcur : u._curScriptPosition = List.replicate n 0x00 ++ rest)
    (hflags : u._conditionalExecutionFlags = []) :
    Rounds more (step env) u
      { u with _curScriptPosition := rest, _stack := List.replicate n (.number ⟨0⟩) ++ u._stack } := by
  induction n generalizing u with
  | zero =>
    have hu : { u with _curScriptPosition := rest, _stack := List.replicate 0 (.number ⟨0⟩) ++ u._stack } = u := by
      cases u
      simp_all
    rw [hu]
  | succ n ih =>
    have hcur' : u._curScriptPosition = 0x00 :: (List.replicate n 0x00 ++ rest) := by
      simpa [List.replicate_succ] using hcur
    have hr := ih { u with _curScriptPosition := List.replicate n 0x00 ++ rest, _stack := .number ⟨0⟩ :: u._stack }
      rfl hflags
    have hassoc : List.replicate n (StackFrame.number ⟨0⟩) ++ .number ⟨0⟩ :: u._stack =
        List.replicate (n + 1) (.number ⟨0⟩) ++ u._stack := by
      rw [List.replicate_succ',List.append_assoc]
      rfl
    exact .head ⟨by simp [more,hcur'],step_op0 env hcur' hflags⟩ (hassoc ▸ hr)

/-- A run of `n` times `OP_0` from a new interpreter. -/
theorem reached_op0 (env : Env) (n : ℕ) (rest : Bytes) (h : n + rest.length ≤ Script.MAX_SCRIPT_SIZE) :
    Reached env (List.replicate n 0x00 ++ rest) fresh
      ⟨0,List.replicate n (.number ⟨0⟩),[],[],rest,List.replicate n 0x00 ++ rest⟩ := by
  have hr := rounds_op0 env n rest (start (List.replicate n 0x00 ++ rest) fresh) rfl rfl
  rw [show (start (List.replicate n 0x00 ++ rest) fresh)._stack = [] from rfl,List.append_nil] at hr
  exact ⟨by simpa using h,hr⟩

/-- A thousand and one times `OP_0` leave as many frames behind. -/
theorem depth_of_direct_pushes (env : Env) :
    ∃ t, execute env (List.replicate 1001 0x00) fresh = .returned true .ok t ∧ depth t = 1001 := by
  have hr := reached_op0 env 1001 [] (by decide)
  rw [List.append_nil] at hr
  refine ⟨_,execute_of_end hr rfl rfl,?_⟩
  rw [depth,List.length_replicate]
  rfl

theorem depth_over_limit :
    depth fresh ≤ Script.MAX_STACK_SIZE ∧
      ∃ t, execute (.ofFlags .empty refusing .base ⟨id,id,id⟩) (List.replicate 1001 0x00) fresh =
          .returned true .ok t ∧ ¬ depth t ≤ Script.MAX_STACK_SIZE := by
  obtain ⟨t,ht,hd⟩ := depth_of_direct_pushes (.ofFlags .empty refusing .base ⟨id,id,id⟩)
  exact ⟨by decide,t,ht,by simp [hd,Script.MAX_STACK_SIZE]⟩

end Interpreter
end Tkeycoin
