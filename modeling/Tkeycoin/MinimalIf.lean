import Tkeycoin.Executed

/-! MINIMALIF: which operands of the conditionals end a run. -/
namespace Tkeycoin

open ActionLogic

namespace ScriptNum

theorem getvch_eq_nil_iff (n : ScriptNum) : n.getvch = [] ↔ n._value = 0 := by
  constructor
  · intro h
    rw [← setVch_serialize n._value]
    change setVch n.getvch = 0
    rw [h]
    rfl
  · intro h
    rw [getvch,h]
    rfl

theorem getvch_eq_one_iff (n : ScriptNum) : n.getvch = [1] ↔ n._value = 1 := by
  constructor
  · intro h
    rw [← setVch_serialize n._value]
    change setVch n.getvch = 1
    rw [h]
    rfl
  · intro h
    rw [getvch,h]
    rfl

end ScriptNum

namespace StackFrame

/-- As bytes the frame is empty, or the one byte one. -/
def IsMinimalFlag (frame : StackFrame) : Prop := frame.asData = [] ∨ frame.asData = [1]

/-- The frame holds a number up to 255 other than zero and one. -/
def IsLowNumber : StackFrame → Prop
  | number n => n._value ≠ 0 ∧ n._value ≠ 1 ∧ n._value.toInt ≤ 255
  | data _ => False

theorem IsLowNumber.not_isMinimalFlag {frame : StackFrame} (h : frame.IsLowNumber) : ¬ frame.IsMinimalFlag := by
  cases frame with
  | data d => exact h.elim
  | number n =>
    rw [IsMinimalFlag,asData_number,ScriptNum.getvch_eq_nil_iff,ScriptNum.getvch_eq_one_iff]
    exact not_or.mpr ⟨h.1,h.2.1⟩

end StackFrame

namespace Interpreter

theorem notMinimalIf_data (d : ScriptData) : notMinimalIf (.data d) = true ↔ ¬ (d = [] ∨ d = [1]) := by
  rcases d with _ | ⟨byte,_ | ⟨b,rest⟩⟩
  · simp [notMinimalIf]
  · simp [notMinimalIf]
  · simp [notMinimalIf]

theorem notMinimalIf_number (n : ScriptNum) : notMinimalIf (.number n) = true ↔ 255 < n._value.toInt := by
  have hint := ScriptNum.getint_toInt n
  have hbound : (0xff : Int32).toInt = 255 := rfl
  rw [notMinimalIf,decide_eq_true_eq,gt_iff_lt,Int32.lt_iff_toInt_lt,hint,hbound]
  omega

/-- The check of the source finds the operands that are not minimal, but for low numbers. -/
theorem notMinimalIf_iff (frame : StackFrame) :
    notMinimalIf frame = true ↔ ¬ frame.IsMinimalFlag ∧ ¬ frame.IsLowNumber := by
  cases frame with
  | data d =>
    rw [notMinimalIf_data]
    simp [StackFrame.IsMinimalFlag,StackFrame.IsLowNumber]
  | number n =>
    rw [notMinimalIf_number,StackFrame.IsMinimalFlag,StackFrame.asData_number,
      ScriptNum.getvch_eq_nil_iff,ScriptNum.getvch_eq_one_iff,StackFrame.IsLowNumber]
    constructor
    · intro h
      refine ⟨?_,fun hlow => absurd hlow.2.2 (by omega)⟩
      rintro (hc | hc)
      · rw [hc,Int64.toInt_zero] at h
        omega
      · rw [hc,Int64.toInt_one] at h
        omega
    · intro h
      by_contra hle
      exact h.2 ⟨fun hc => h.1 (.inl hc),fun hc => h.1 (.inr hc),by omega⟩

section Step

variable {env : Env} {s t : Interpreter} {opCode : OpCode} {d : ScriptData} {frame : StackFrame}
  {rest : Stack}

/-- `OP_IF` and `OP_NOTIF`. -/
def IsIf (opCode : OpCode) : Prop := opCode = OpCode.opIf ∨ opCode = OpCode.opNotIf

/-- An executed conditional with an operand. -/
def IfAhead (s : Interpreter) (frame : StackFrame) : Prop :=
  ∃ opCode d t, ExecutedAhead s opCode d t ∧ IsIf opCode ∧ t._stack.head? = some frame

theorem conditional_if (h : IsIf opCode) : conditional env opCode = opIf env opCode :=
  if_pos h

theorem isIf_between (h : IsIf opCode) : OpCode.opIf ≤ opCode ∧ opCode ≤ OpCode.opEndIf := by
  rcases h with h | h <;> subst h <;> decide

/-- The operand of an executed conditional is taken, and checked. -/
theorem opIf_run_executed (hm : mustExecuted t = true) (hstack : t._stack = frame :: rest) :
    (opIf env opCode).run t =
      if env.sigversion = .witnessV0 ∧ env.isSet .minimalIf = true ∧ notMinimalIf frame = true then
        .error (.script .minimalIf) { t with _stack := rest }
      else .ok () { t with _stack := rest, _conditionalExecutionFlags :=
        (if opCode = OpCode.opNotIf then !frame.castToBool else frame.castToBool) ::
          t._conditionalExecutionFlags } := by
  obtain ⟨ops,stack,alt,fl,cur,sep⟩ := t
  obtain rfl : stack = frame :: rest := hstack
  simp only [opIf,EStateM.run_bind,EStateM.run_get,hm,Bool.not_true,Bool.false_eq_true,if_false,
    reduceCtorEq,take_run_cons]
  split_ifs <;> rfl

/-- With the flag set a conditional stops its run exactly at an operand that the check finds. -/
theorem step_minimalIf_iff (hversion : env.sigversion = .witnessV0) (hset : env.isSet .minimalIf = true)
    (h : IfAhead s frame) :
    (∃ u, (step env).run s = .error (.script .minimalIf) u) ↔ notMinimalIf frame = true := by
  obtain ⟨opCode,d,t,hahead,hif,hhead⟩ := h
  obtain ⟨rest,hstack⟩ := List.head?_eq_some_iff.mp hhead
  rw [step_of_conditional hahead.1 (isIf_between hif),conditional_if hif]
  have hrun : (opIf env opCode).run t = _ := opIf_run_executed hahead.2 hstack
  by_cases hcheck : notMinimalIf frame = true
  · rw [if_pos ⟨hversion,hset,hcheck⟩] at hrun
    rw [run_bind_error hrun]
    exact iff_of_true ⟨_,rfl⟩ hcheck
  · rw [if_neg fun hc => hcheck hc.2.2] at hrun
    rw [run_bind_ok hrun]
    refine iff_of_false ?_ hcheck
    rintro ⟨u,hu⟩
    cases sizeLimits_error hu

end Step

section Runs

variable (env : Env) (script : Bytes) (s₀ : Interpreter)

/-- Every operand that is not empty or one ends the run. -/
def MinimalOperands : Prop :=
  ∀ s frame, Reached env script s₀ s → IfAhead s frame → frame.IsMinimalFlag ∨
    ∃ u, (step env).run s = .error (.script .minimalIf) u ∧
      execute env script s₀ = .returned false .minimalIf u

/-- No conditional of the run takes a low number other than zero and one. -/
def NoLowOperand : Prop := ∀ s frame, Reached env script s₀ s → IfAhead s frame → ¬ frame.IsLowNumber

/-- The rule is kept by a run exactly if no conditional takes a low number. -/
theorem minimalOperands_iff (hversion : env.sigversion = .witnessV0)
    (hset : env.isSet .minimalIf = true) : MinimalOperands env script s₀ ↔ NoLowOperand env script s₀ := by
  constructor
  · intro h s frame hr hif hlow
    have hstops : (∃ u, (step env).run s = .error (.script .minimalIf) u) ↔ _ :=
      step_minimalIf_iff hversion hset hif
    rw [notMinimalIf_iff] at hstops
    rcases h s frame hr hif with hminimal | ⟨u,hu,_⟩
    · exact hlow.not_isMinimalFlag hminimal
    · exact (hstops.mp ⟨u,hu⟩).2 hlow
  · intro h s frame hr hif
    by_cases hminimal : frame.IsMinimalFlag
    · exact .inl hminimal
    · obtain ⟨u,hu⟩ := (step_minimalIf_iff hversion hset hif).mpr
        ((notMinimalIf_iff frame).mpr ⟨hminimal,h s frame hr hif⟩)
      obtain ⟨_,_,_,hahead,_⟩ := hif
      exact .inr ⟨u,hu,execute_of_step_error hr hahead.1.more hu⟩

/-- A script that takes one. -/
theorem minimalOperands_iff_one :
    MinimalOperands (.ofSet [.minimalIf] refusing .witnessV0 ⟨id,id,id⟩) [0x51,0x63,0x68] fresh ↔
      NoLowOperand (.ofSet [.minimalIf] refusing .witnessV0 ⟨id,id,id⟩) [0x51,0x63,0x68] fresh :=
  minimalOperands_iff _ _ _ rfl rfl

/-- A script that takes two, and goes on. -/
theorem two_not_minimal :
    ¬ MinimalOperands (.ofSet [.minimalIf] refusing .witnessV0 ⟨id,id,id⟩) [0x52,0x63,0x68] fresh := by
  intro h
  have hstep : (step (.ofSet [.minimalIf] refusing .witnessV0 ⟨id,id,id⟩)).run
      (start [0x52,0x63,0x68] fresh) =
        .ok () ⟨0,[.number ⟨2⟩],[],[],[0x63,0x68],[0x52,0x63,0x68]⟩ := rfl
  have hif : (step (.ofSet [.minimalIf] refusing .witnessV0 ⟨id,id,id⟩)).run
      ⟨0,[.number ⟨2⟩],[],[],[0x63,0x68],[0x52,0x63,0x68]⟩ =
        .ok () ⟨1,[],[],[true],[0x68],[0x52,0x63,0x68]⟩ := rfl
  rcases h _ (.number ⟨2⟩) ⟨by decide,.tail .refl ⟨rfl,hstep⟩⟩
    ⟨OpCode.opIf,[],⟨1,[.number ⟨2⟩],[],[],[0x68],[0x52,0x63,0x68]⟩,⟨rfl,rfl⟩,.inl rfl,rfl⟩ with
    hminimal | ⟨u,hu,_⟩
  · revert hminimal
    simp [StackFrame.IsMinimalFlag]
    decide
  · rw [hif] at hu
    cases hu

end Runs
end Interpreter
end Tkeycoin
