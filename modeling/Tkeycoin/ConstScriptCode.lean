import Tkeycoin.SignatureOperands

/-! CONST_SCRIPTCODE: code separators and removed signatures in the scripts that are accepted. -/
namespace Tkeycoin

open ActionLogic

namespace Interpreter

section Step

variable {env : Env} {s t : Interpreter} {opCode : OpCode} {d : ScriptData}
  {sigs keys : List ScriptData}

/-- An executed code separator ends the run. -/
theorem step_separator (hbase : env.sigversion = .base) (hset : env.isSet .constScriptCode = true)
    (h : ExecutedAhead s OpCode.opCodeSeparator d t) :
    (step env).run s = .error (.script .opCodeSeparator) t := by
  have hrun : (opCodeSeparator env).run t = .error (.script .opCodeSeparator) t := by
    rw [opCodeSeparator,if_pos ⟨hbase,hset⟩]
    rfl
  rw [step_of_dispatch h (by decide) (by decide)]
  exact run_bind_error hrun

theorem signatureChecks_removes (hbase : env.sigversion = .base)
    (hset : env.isSet .constScriptCode = true) {scriptCode : Bytes} (h : removes sigs scriptCode) :
    (signatureChecks env scriptCode sigs keys).run s = .error (.script .sigFindAndDelete) s := by
  have hdrop : (dropSignatures env sigs scriptCode).run s = _ := dropSignatures_run sigs scriptCode s
  rw [(stripped_eq_none_iff hbase hset sigs scriptCode).mpr h] at hdrop
  exact run_bind_error hdrop

/-- So does a check that would remove a signature from its script code. -/
theorem step_removes (hbase : env.sigversion = .base) (hset : env.isSet .constScriptCode = true)
    (h : ExecutedAhead s opCode d t) (hop : opCode ∈ signatureOpCodes)
    (hoperands : operandsOf env opCode t = some (sigs,keys))
    (hremoves : removes sigs t._separatorPosition) :
    ∃ u, (step env).run s = .error (.script .sigFindAndDelete) u := by
  have hdispatch : ∃ u, (dispatch env opCode d).run t = .error (.script .sigFindAndDelete) u := by
    unfold operandsOf at hoperands
    split_ifs at hoperands with hmulti
    · obtain ⟨v,hrun⟩ := opCheckMultiSig_run hoperands
      rw [checkMultiple,run_bind_error (signatureChecks_removes hbase hset hremoves)] at hrun
      rcases hmulti with rfl | rfl
      · exact ⟨_,hrun⟩
      · exact ⟨_,run_bind_error hrun⟩
    · have hrun : (opCheckSig env).run t = _ := opCheckSig_run hoperands
      rw [checkSingle,run_bind_error (signatureChecks_removes hbase hset hremoves)] at hrun
      simp only [signatureOpCodes,List.mem_cons,List.not_mem_nil,or_false] at hop
      rcases hop with rfl | rfl | rfl | rfl
      · exact ⟨_,hrun⟩
      · exact ⟨_,run_bind_error hrun⟩
      · exact absurd (.inl rfl) hmulti
      · exact absurd (.inr rfl) hmulti
  obtain ⟨u,hu⟩ := hdispatch
  rw [step_of_signature h hop]
  exact ⟨u,run_bind_error hu⟩

end Step

section Runs

variable (env : Env) (script : Bytes) (s₀ : Interpreter)

/-- A script that is accepted has no code separator at a boundary, and none of its checks has
removed a signature. -/
def KeepsScriptCode : Prop :=
  ∀ code u, execute env script s₀ = .returned true code u →
    (∀ p i q, Script.Boundary script p → Script.getScriptOp p = (some i,q) →
      i.1 ≠ OpCode.opCodeSeparator) ∧
    ∀ s opCode d t sigs keys, Reached env script s₀ s → ExecutedAhead s opCode d t →
      opCode ∈ signatureOpCodes → operandsOf env opCode t = some (sigs,keys) →
      ¬ removes sigs t._separatorPosition

/-- The code separators a run comes to are in executed branches. -/
def SeparatorsExecuted : Prop :=
  ∀ s d t, Reached env script s₀ s → Ahead s OpCode.opCodeSeparator d t → mustExecuted t = true

theorem keepsScriptCode_of_executed (hbase : env.sigversion = .base)
    (hset : env.isSet .constScriptCode = true) (h : SeparatorsExecuted env script s₀) :
    KeepsScriptCode env script s₀ := by
  intro code u haccepted
  constructor
  · intro p i q hb hread hseparator
    obtain ⟨s,v,hr,hahead⟩ := ahead_of_accepted haccepted hb hread
    rw [hseparator] at hahead
    exact not_accepted_of_step hr hahead.more
      (step_separator hbase hset ⟨hahead,h s i.2 v hr hahead⟩) haccepted
  · intro s opCode d t sigs keys hr hahead hop hoperands hremoves
    obtain ⟨v,hv⟩ := step_removes hbase hset hahead hop hoperands hremoves
    exact not_accepted_of_step hr hahead.1.more hv haccepted

/-- The rule is kept wherever the run executes all code separators it comes to, and an accepted script
keeps it in no other case. -/
theorem keepsScriptCode_iff (hbase : env.sigversion = .base)
    (hset : env.isSet .constScriptCode = true) :
    (SeparatorsExecuted env script s₀ → KeepsScriptCode env script s₀) ∧
      ∀ code u, execute env script s₀ = .returned true code u →
        (KeepsScriptCode env script s₀ ↔ SeparatorsExecuted env script s₀) := by
  have hkeeps := keepsScriptCode_of_executed env script s₀ hbase hset
  refine ⟨hkeeps,fun code u haccepted => ⟨fun h s d t hr hahead => ?_,hkeeps⟩⟩
  exact absurd rfl ((h code u haccepted).1 _ _ _ hr.boundary hahead.read)

/-- A script without code separators. -/
theorem keepsScriptCode_iff_one :
    (SeparatorsExecuted (.ofSet [.constScriptCode] refusing .base ⟨id,id,id⟩) [0x51] fresh →
        KeepsScriptCode (.ofSet [.constScriptCode] refusing .base ⟨id,id,id⟩) [0x51] fresh) ∧
      ∀ code u, execute (.ofSet [.constScriptCode] refusing .base ⟨id,id,id⟩) [0x51] fresh =
          .returned true code u →
        (KeepsScriptCode (.ofSet [.constScriptCode] refusing .base ⟨id,id,id⟩) [0x51] fresh ↔
          SeparatorsExecuted (.ofSet [.constScriptCode] refusing .base ⟨id,id,id⟩) [0x51] fresh) :=
  keepsScriptCode_iff _ _ _ rfl rfl

/-- A code separator in a branch that is not taken is accepted. -/
theorem skipped_separator_accepted :
    ¬ KeepsScriptCode (.ofSet [.constScriptCode] refusing .base ⟨id,id,id⟩) [0x00,0x63,0xab,0x68] fresh := by
  intro h
  have haccepted : execute (.ofSet [.constScriptCode] refusing .base ⟨id,id,id⟩) [0x00,0x63,0xab,0x68]
      fresh = .returned true .ok ⟨3,[],[],[],[],[0x00,0x63,0xab,0x68]⟩ := by decide +kernel
  have hfirst : Script.Follows [0x00,0x63,0xab,0x68] [0x63,0xab,0x68] := ⟨(OpCode.op0,[]),by decide⟩
  have hsecond : Script.Follows [0x63,0xab,0x68] [0xab,0x68] := ⟨(OpCode.opIf,[]),by decide⟩
  exact (h _ _ haccepted).1 [0xab,0x68] (OpCode.opCodeSeparator,[]) [0x68] (.tail (.single hfirst) hsecond)
    (by decide) rfl

end Runs
end Interpreter
end Tkeycoin
