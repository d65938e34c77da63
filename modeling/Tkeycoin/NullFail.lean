import Tkeycoin.SignatureOperands

/-! NULLFAIL: what a failed signature check does to a run. -/
namespace Tkeycoin

open ActionLogic OrderedMatching

namespace Interpreter

section Errors

variable {env : Env} {s u : Interpreter} {e : Stop} {code : ScriptError}

theorem popDummy_error (h : (popDummy env).run s = .error e u) :
    e = .script .invalidStackOperation ∨ e = .script .sigNullDummy := by
  obtain ⟨ops,_ | ⟨frame,rest⟩,alt,fl,cur,sep⟩ := s
  · cases h
    exact .inl rfl
  · have hone : (ensureStackHasEnoughFrames 1).run ⟨ops,frame :: rest,alt,fl,cur,sep⟩ =
        .ok () ⟨ops,frame :: rest,alt,fl,cur,sep⟩ := ensure_enough (by simp)
    rw [popDummy,run_bind_ok hone] at h
    split at h
    · rw [run_bind_ok (topData_run_cons _ _ _ _ _ _ _)] at h
      split at h
      · cases h
        exact .inr rfl
      · cases h
    · cases h

theorem verifyTop_error (h : (verifyTop code).run s = .error e u) :
    e = .script code ∨ e = .abort .noFrame := by
  obtain ⟨ops,_ | ⟨frame,rest⟩,alt,fl,cur,sep⟩ := s
  · cases h
    exact .inr rfl
  · rw [verifyTop,run_bind_ok (top_run_cons _ _ _ _ _ _ _)] at h
    split at h
    · cases h
      exact .inl rfl
    · cases h

end Errors

section Step

variable {env : Env} {s t : Interpreter} {opCode : OpCode} {d : ScriptData}
  {sigs keys : List ScriptData}

/-- The signatures of an executed check have no assignment to its keys. -/
def Falls (env : Env) (t : Interpreter) (sigs keys : List ScriptData) : Prop :=
  ∃ code, stripped env sigs t._separatorPosition = some code ∧ GivesUp (answer env code) sigs keys

/-- A failed CHECKSIG of a signature that is not empty ends the run. -/
theorem step_single_falls (hset : env.isSet .nullFail = true) (h : ExecutedAhead s opCode d t)
    (hop : opCode = OpCode.opCheckSig ∨ opCode = OpCode.opCheckSigVerify)
    (hoperands : singleOperands t._stack = some (sigs,keys)) (hfalls : Falls env t sigs keys)
    (hsome : ∃ sig ∈ sigs, sig ≠ []) :
    ∃ u, (step env).run s = .error (.script .sigNullFail) u := by
  have hlength : sigs.length ≤ keys.length ∧ sigs ≠ [[]] := by
    rcases hs : t._stack with _ | ⟨pubKey,_ | ⟨sig,rest⟩⟩ <;> rw [hs] at hoperands <;> cases hoperands
    simpa using hsome
  have hrun : (opCheckSig env).run t = .error (.script .sigNullFail) { t with _stack := t._stack.drop 2 } := by
    rw [opCheckSig_run hoperands,checkSingle,
      run_bind_ok ((signatureChecks_false_iff hlength.1 _).mpr hfalls),if_pos ⟨rfl,hset,hlength.2⟩]
    rfl
  have hsignature : opCode ∈ signatureOpCodes := by
    rcases hop with rfl | rfl <;> decide
  rw [step_of_signature h hsignature]
  rcases hop with rfl | rfl
  · exact ⟨_,run_bind_error hrun⟩
  · exact ⟨_,run_bind_error (run_bind_error hrun)⟩

/-- A failed CHECKMULTISIG does not end the run for its signatures. -/
theorem step_multiple_falls (h : ExecutedAhead s opCode d t) (hop : multiSig opCode)
    (hoperands : multipleOperands env t = some (sigs,keys)) (hfalls : Falls env t sigs keys)
    (u : Interpreter) : (step env).run s ≠ .error (.script .sigNullFail) u := by
  intro herror
  have hsignature : opCode ∈ signatureOpCodes := by
    rcases hop with rfl | rfl <;> decide
  rw [step_of_signature h hsignature] at herror
  obtain ⟨v,hrun⟩ := opCheckMultiSig_run hoperands
  rw [checkMultiple,run_bind_ok
    ((signatureChecks_false_iff (multipleOperands_length hoperands) v).mpr hfalls)] at hrun
  have hhandler {e : Stop} {w : Interpreter} (he : (opCheckMultiSig env).run t = .error e w) :
      e ≠ .script .sigNullFail := by
    rw [hrun,EStateM.run_bind] at he
    cases hdummy : (popDummy env).run v with
    | ok _ x =>
      rw [hdummy] at he
      cases he
    | error e' x =>
      rw [hdummy] at he
      cases he
      rcases popDummy_error hdummy with rfl | rfl <;> decide
  cases hdispatch : (dispatch env opCode d).run t with
  | ok _ w =>
    rw [run_bind_ok hdispatch] at herror
    cases sizeLimits_error herror
  | error e w =>
    rw [run_bind_error hdispatch] at herror
    cases herror
    rcases hop with rfl | rfl
    · exact hhandler hdispatch rfl
    · change (do opCheckMultiSig env; verifyTop .checkMultiSigVerify).run t = _ at hdispatch
      rw [EStateM.run_bind] at hdispatch
      cases hcheck : (opCheckMultiSig env).run t with
      | error e x =>
        rw [hcheck] at hdispatch
        cases hdispatch
        exact hhandler hcheck rfl
      | ok _ x =>
        rw [hcheck] at hdispatch
        rcases verifyTop_error hdispatch with hc | hc <;> cases hc

end Step

section Runs

variable (env : Env) (script : Bytes) (s₀ : Interpreter)

/-- Every executed check that answers no has empty signatures only, or ends the run. -/
def FailsOnlyNull : Prop :=
  ∀ s opCode d t sigs keys, Reached env script s₀ s → ExecutedAhead s opCode d t →
    opCode ∈ signatureOpCodes → operandsOf env opCode t = some (sigs,keys) →
    (signatureChecks env t._separatorPosition sigs keys).run t = .ok false t →
    (∀ sig ∈ sigs, sig = []) ∨ ∃ u, (step env).run s = .error (.script .sigNullFail) u ∧
      execute env script s₀ = .returned false .sigNullFail u

/-- No CHECKMULTISIG of the run has a signature that is not empty and signatures without an
assignment. -/
def NoMultipleFalls : Prop :=
  ∀ s opCode d t sigs keys, Reached env script s₀ s → ExecutedAhead s opCode d t → multiSig opCode →
    multipleOperands env t = some (sigs,keys) → (∃ sig ∈ sigs, sig ≠ []) → ¬ Falls env t sigs keys

/-- The rule is kept by a run exactly if no CHECKMULTISIG fails with a signature that is not empty. -/
theorem failsOnlyNull_iff (hset : env.isSet .nullFail = true) :
    FailsOnlyNull env script s₀ ↔ NoMultipleFalls env script s₀ := by
  constructor
  · intro h s opCode d t sigs keys hr hahead hop hoperands hsome hfalls
    have hsignature : opCode ∈ signatureOpCodes := by
      rcases hop with rfl | rfl <;> decide
    have hoperands' : operandsOf env opCode t = some (sigs,keys) := by
      rw [operandsOf,if_pos hop]
      exact hoperands
    have hchecks := (signatureChecks_false_iff (multipleOperands_length hoperands) t).mpr hfalls
    rcases h s opCode d t sigs keys hr hahead hsignature hoperands' hchecks with hnull | ⟨u,hu,_⟩
    · obtain ⟨sig,hmem,hne⟩ := hsome
      exact hne (hnull sig hmem)
    · exact step_multiple_falls hahead hop hoperands hfalls u hu
  · intro h s opCode d t sigs keys hr hahead hsignature hoperands hchecks
    have hfalls : Falls env t sigs keys :=
      (signatureChecks_false_iff (operandsOf_length hoperands) t).mp hchecks
    by_cases hnull : ∀ sig ∈ sigs, sig = []
    · exact .inl hnull
    · have hsome : ∃ sig ∈ sigs, sig ≠ [] := by
        by_contra hc
        exact hnull fun sig hmem => by_contra fun hne => hc ⟨sig,hmem,hne⟩
      unfold operandsOf at hoperands
      split_ifs at hoperands with hop
      · exact absurd hfalls (h s opCode d t sigs keys hr hahead hop hoperands hsome)
      · have hsingle : opCode = OpCode.opCheckSig ∨ opCode = OpCode.opCheckSigVerify := by
          simp only [signatureOpCodes,List.mem_cons,List.not_mem_nil,or_false] at hsignature
          rcases hsignature with hc | hc | hc | hc
          · exact .inl hc
          · exact .inr hc
          · exact absurd (.inl hc) hop
          · exact absurd (.inr hc) hop
        obtain ⟨u,hu⟩ := step_single_falls hset hahead hsingle hoperands hfalls hsome
        exact .inr ⟨u,hu,execute_of_step_error hr hahead.1.more hu⟩

/-- A script with one CHECKSIG, for a signature and a key. -/
theorem failsOnlyNull_iff_single :
    FailsOnlyNull (.ofSet [.nullFail] refusing .base ⟨id,id,id⟩) [0xac] ⟨0,[.data [8],.data [7]],[],[],[],[]⟩ ↔
      NoMultipleFalls (.ofSet [.nullFail] refusing .base ⟨id,id,id⟩) [0xac]
        ⟨0,[.data [8],.data [7]],[],[],[],[]⟩ :=
  failsOnlyNull_iff _ _ _ rfl

/-- A checker that refuses everything, and a CHECKMULTISIG of one signature: the run goes on. -/
theorem multiple_fails_not_null :
    ¬ FailsOnlyNull (.ofSet [.nullFail] refusing .base ⟨id,id,id⟩) [0xae]
      ⟨0,[.number ⟨1⟩,.data [8],.number ⟨1⟩,.data [7],.data []],[],[],[],[]⟩ := by
  intro h
  have hfetch : ExecutedAhead (start [0xae]
      ⟨0,[.number ⟨1⟩,.data [8],.number ⟨1⟩,.data [7],.data []],[],[],[],[]⟩) OpCode.opCheckMultiSig []
      ⟨1,[.number ⟨1⟩,.data [8],.number ⟨1⟩,.data [7],.data []],[],[],[],[0xae]⟩ := ⟨rfl,rfl⟩
  have hchecks : (signatureChecks (.ofSet [.nullFail] refusing .base ⟨id,id,id⟩) [0xae] [[7]] [[8]]).run
      ⟨1,[.number ⟨1⟩,.data [8],.number ⟨1⟩,.data [7],.data []],[],[],[],[0xae]⟩ = .ok false
      ⟨1,[.number ⟨1⟩,.data [8],.number ⟨1⟩,.data [7],.data []],[],[],[],[0xae]⟩ := rfl
  rcases h _ _ _ _ [[7]] [[8]] ⟨by decide,.refl⟩ hfetch (by decide) rfl hchecks with hnull | ⟨u,hu,_⟩
  · simp at hnull
  · exact step_multiple_falls hfetch (.inl rfl) rfl
      ((signatureChecks_false_iff (by decide) _).mp hchecks) u hu

end Runs
end Interpreter
end Tkeycoin
