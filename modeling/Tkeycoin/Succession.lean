import Tkeycoin.Runs

/-! Calls one after the other on the same interpreter: what a script leaves for the next one. -/
namespace Tkeycoin

open ActionLogic

namespace Interpreter

/-- `while (!stack.empty()) stack.pop();`. -/
def emptied : Stack → Stack
  | [] => []
  | _ :: rest => emptied rest

/-- No script lies behind a position that was not set. -/
def reset (s : Interpreter) : Interpreter :=
  { s with
    _opCount := 0
    _conditionalExecutionFlags := []
    _stack := emptied s._stack
    _altStack := emptied s._altStack
    _curScriptPosition := []
    _separatorPosition := [] }

def resetAndExecute (env : Env) (script : Bytes) (s : Interpreter) : Outcome := execute env script (reset s)

/-- The result of a call, its error and the main stack behind it, or how the process ends. -/
def Outcome.seen : Outcome → Except Fault (Bool × ScriptError × Stack)
  | .returned result error state => .ok (result,error,state._stack)
  | .aborted fault => .error fault

/-- A new interpreter whose main stack is filled. -/
def filled (stack : Stack) : Interpreter := { fresh with _stack := stack }

/-- To no script the interpreter is another one than a new one with the same main stack. -/
def Separate (env : Env) (s : Interpreter) : Prop :=
  ∀ script, (execute env script s).seen = (execute env script (filled s._stack)).seen

theorem emptied_eq (stack : Stack) : emptied stack = [] := by
  induction stack with
  | nil => rfl
  | cons frame rest ih => exact ih

theorem reset_eq (s : Interpreter) : reset s = fresh := by
  rw [reset,emptied_eq,emptied_eq]
  rfl

theorem resetAndExecute_eq (env : Env) (script : Bytes) (s : Interpreter) :
    resetAndExecute env script s = execute env script fresh := by
  rw [resetAndExecute,reset_eq]

/-- A call sets everything but the stacks and the conditional flags. -/
theorem start_eq (script : Bytes) {s : Interpreter} (hflags : s._conditionalExecutionFlags = [])
    (halt : s._altStack = []) : start script s = start script (filled s._stack) := by
  obtain ⟨count,stack,alt,flags,cur,sep⟩ := s
  simp only at hflags halt
  rw [hflags,halt]
  rfl

theorem execute_start (env : Env) (script : Bytes) {s s' : Interpreter} (h : start script s = start script s') :
    execute env script s = execute env script s' := by
  rw [execute,execute,h]

theorem separate_of_empty (env : Env) {s : Interpreter} (hflags : s._conditionalExecutionFlags = [])
    (halt : s._altStack = []) : Separate env s := fun script =>
  congrArg Outcome.seen (execute_start env script (start_eq script hflags halt))

section FromAltStack

variable (env : Env)

/-- What one FROMALTSTACK makes of a frame that was left. -/
theorem execute_fromAltStack (count : ℕ) (stack alt : Stack) (frame : StackFrame) (cur sep : Bytes) :
    (execute env [OpCode.opFromAltStack] ⟨count,stack,frame :: alt,[],cur,sep⟩).seen =
      if stack.length + 1 + alt.length > Script.MAX_STACK_SIZE then
        .ok (false,.stackSize,frame :: stack)
      else .ok (true,.ok,frame :: stack) := by
  have hstep : (step env).run ⟨0,stack,frame :: alt,[],[OpCode.opFromAltStack],[OpCode.opFromAltStack]⟩ =
      sizeLimits.run ⟨1,frame :: stack,alt,[],[],[OpCode.opFromAltStack]⟩ := rfl
  rw [sizeLimits_run] at hstep
  have hreached : Reached env [OpCode.opFromAltStack] ⟨count,stack,frame :: alt,[],cur,sep⟩
      ⟨0,stack,frame :: alt,[],[OpCode.opFromAltStack],[OpCode.opFromAltStack]⟩ := ⟨by decide,.refl⟩
  simp only [List.length_cons] at hstep
  split_ifs with hlimit
  · rw [if_pos hlimit] at hstep
    rw [execute_of_step_error hreached rfl hstep]
    rfl
  · rw [if_neg hlimit] at hstep
    rw [execute_of_end ⟨hreached.1,.single ⟨rfl,hstep⟩⟩ rfl rfl]
    rfl

/-- Without one it fails. -/
theorem execute_fromAltStack_fresh (stack : Stack) :
    (execute env [OpCode.opFromAltStack] (filled stack)).seen =
      .ok (false,.invalidAltStackOperation,stack) := rfl

end FromAltStack

/-- A frame on the alternative stack shows. -/
theorem empty_of_separate (env : Env) {s : Interpreter} (hflags : s._conditionalExecutionFlags = [])
    (h : Separate env s) : s._altStack = [] := by
  obtain ⟨count,stack,alt,flags,cur,sep⟩ := s
  simp only at hflags
  subst hflags
  cases alt with
  | nil => rfl
  | cons frame rest =>
    have hseen := h [OpCode.opFromAltStack]
    rw [execute_fromAltStack,execute_fromAltStack_fresh] at hseen
    split_ifs at hseen <;> cases hseen

/-- Behind a script that succeeds the interpreter is to all scripts a new one with the same main stack
exactly if the alternative stack is empty; behind a reset it is a new one whatever has happened. -/
theorem succession (env : Env) :
    (∀ script s code t, execute env script s = .returned true code t →
      (Separate env t ↔ t._altStack = [])) ∧
    ∀ script s, resetAndExecute env script s = resetAndExecute env script fresh := by
  constructor
  · intro script s code t h
    have hflags := (execute_true h).2.2.1
    exact ⟨empty_of_separate env hflags,separate_of_empty env hflags⟩
  · intro script s
    rw [resetAndExecute_eq,resetAndExecute_eq]

/-- Behind the number one the alternative stack is empty. -/
theorem succession_one :
    Separate (.ofFlags Flags.empty refusing .base ⟨id,id,id⟩) ⟨0,[.number ⟨1⟩],[],[],[],[OpCode.op1]⟩ :=
  ((succession (.ofFlags Flags.empty refusing .base ⟨id,id,id⟩)).1 [OpCode.op1] fresh .ok _ rfl).mpr rfl

/-- One script leaves a number on the alternative stack, and the next one finds it. -/
theorem left_behind :
    execute (.ofFlags Flags.empty refusing .base ⟨id,id,id⟩) [OpCode.op1,OpCode.opToAltStack] fresh =
        .returned true .ok ⟨1,[],[.number ⟨1⟩],[],[],[OpCode.op1,OpCode.opToAltStack]⟩ ∧
      (execute (.ofFlags Flags.empty refusing .base ⟨id,id,id⟩) [OpCode.opFromAltStack]
        ⟨1,[],[.number ⟨1⟩],[],[],[OpCode.op1,OpCode.opToAltStack]⟩).seen = .ok (true,.ok,[.number ⟨1⟩]) ∧
      (execute (.ofFlags Flags.empty refusing .base ⟨id,id,id⟩) [OpCode.opFromAltStack] (filled [])).seen =
        .ok (false,.invalidAltStackOperation,[]) :=
  ⟨rfl,rfl,rfl⟩

end Interpreter
end Tkeycoin
