import Mathlib.Data.Bool.AllAny
import Tkeycoin.MultiSig
import Tkeycoin.StackSafety
import Tkeycoin.Executed

/-! What the signature opcodes are given on the stack, and what their handlers do with it. -/
namespace Tkeycoin

open ActionLogic OrderedMatching

namespace Interpreter

variable (env : Env)

/-- The signature and the key of CHECKSIG. -/
def singleOperands : Stack → Option (List ScriptData × List ScriptData)
  | pubKey :: sig :: _ => some ([sig.asData],[pubKey.asData])
  | _ => none

/-- The signatures and the keys of CHECKMULTISIG, where it comes to check them. -/
def multipleOperands (t : Interpreter) : Option (List ScriptData × List ScriptData) :=
  match t._stack with
  | [] => none
  | keysFrame :: rest =>
    match countOf env Script.MAX_PUBKEYS_PER_MULTISIG keysFrame with
    | none => none
    | some k =>
      match rest.drop k with
      | [] => none
      | sigsFrame :: below =>
        match countOf env k sigsFrame with
        | none => none
        | some m =>
          if t._opCount + k + m ≤ Script.MAX_OPS_PER_SCRIPT ∧ m ≤ below.length then
            some ((below.take m).map StackFrame.asData,(rest.take k).map StackFrame.asData)
          else none

def operandsOf (opCode : OpCode) (t : Interpreter) : Option (List ScriptData × List ScriptData) :=
  if multiSig opCode then multipleOperands env t else singleOperands t._stack

/-- The script code without the signatures. `none` where one is found that must not be there. -/
def stripped : List ScriptData → Bytes → Option Bytes
  | [], scriptCode => some scriptCode
  | sig :: sigs, scriptCode =>
    if env.sigversion = .base then
      let found := Script.findAndDelete scriptCode (Script.push sig)
      if found.1 > 0 ∧ env.isSet .constScriptCode then none else stripped sigs found.2
    else stripped sigs scriptCode

/-- One of the signatures is found in what the others have left of the script code. -/
def removes : List ScriptData → Bytes → Prop
  | [], _ => False
  | sig :: sigs, scriptCode =>
    (Script.findAndDelete scriptCode (Script.push sig)).1 > 0 ∨
      removes sigs (Script.findAndDelete scriptCode (Script.push sig)).2

section Checks

variable {env} {scriptCode : Bytes} {sig pubKey : ScriptData} {sigs keys : List ScriptData}
  {s : Interpreter}

theorem dropSignatures_run (sigs : List ScriptData) (scriptCode : Bytes) (s : Interpreter) :
    (dropSignatures env sigs scriptCode).run s =
      match stripped env sigs scriptCode with
      | some code => .ok code s
      | none => .error (.script .sigFindAndDelete) s := by
  induction sigs generalizing scriptCode with
  | nil => rfl
  | cons sig sigs ih =>
    rw [dropSignatures,dropSignature,stripped]
    dsimp only
    split_ifs
    · rfl
    · exact ih _
    · exact ih _

theorem stripped_eq_none_iff (hbase : env.sigversion = .base) (hset : env.isSet .constScriptCode = true)
    (sigs : List ScriptData) (scriptCode : Bytes) :
    stripped env sigs scriptCode = none ↔ removes sigs scriptCode := by
  induction sigs generalizing scriptCode with
  | nil => simp [stripped,removes]
  | cons sig sigs ih =>
    rw [stripped,if_pos hbase,removes]
    by_cases hfound : (Script.findAndDelete scriptCode (Script.push sig)).1 > 0
    · simp [hfound,hset]
    · simp [hfound,ih]

/-- A single signature is checked as the only one of several. -/
theorem checkSignatures_single :
    checkSignatures env scriptCode [sig] [pubKey] = checkSignature env sig pubKey scriptCode := by
  rw [checkSignatures]
  conv_rhs => rw [← bind_pure (checkSignature env sig pubKey scriptCode)]
  apply bind_congr
  intro fOk
  cases fOk <;> rfl

theorem dropSignatures_single :
    dropSignatures env [sig] scriptCode = dropSignature env scriptCode sig := by
  rw [dropSignatures]
  exact bind_pure _

/-- The checks answer no where the pass gives up. -/
theorem signatureChecks_false_iff (h : sigs.length ≤ keys.length) (s : Interpreter) :
    (signatureChecks env scriptCode sigs keys).run s = .ok false s ↔
      ∃ code, stripped env sigs scriptCode = some code ∧ GivesUp (answer env code) sigs keys := by
  rw [signatureChecks,run_bind_andThen,dropSignatures_run]
  cases stripped env sigs scriptCode with
  | none =>
    constructor
    · intro hrun
      cases hrun
    · intro hcode
      obtain ⟨code,hcode,_⟩ := hcode
      cases hcode
  | some code =>
    change (checkSignatures env code sigs keys).run s = .ok false s ↔ _
    rw [checkSignatures_false_iff h]
    simp

end Checks

section Handlers

variable {env} {t : Interpreter} {sigs keys : List ScriptData}

/-- What CHECKSIG does with its operands. -/
def checkSingle (env : Env) (scriptCode : Bytes) (sigs keys : List ScriptData) : Action Unit := do
  let isValid ← signatureChecks env scriptCode sigs keys
  if isValid = false ∧ env.isSet .nullFail ∧ sigs ≠ [[]] then throwScript .sigNullFail
  else pushBool isValid

/-- What CHECKMULTISIG does with its operands. -/
def checkMultiple (env : Env) (scriptCode : Bytes) (sigs keys : List ScriptData) : Action Unit := do
  let fSuccess ← signatureChecks env scriptCode sigs keys
  popDummy env
  pushBool fSuccess

theorem opCheckSig_run (h : singleOperands t._stack = some (sigs,keys)) :
    (opCheckSig env).run t =
      (checkSingle env t._separatorPosition sigs keys).run { t with _stack := t._stack.drop 2 } := by
  obtain ⟨ops,stack,alt,fl,cur,sep⟩ := t
  rcases stack with _ | ⟨pubKey,_ | ⟨sig,rest⟩⟩
  · cases h
  · cases h
  · cases h
    have htwo : (ensureStackHasEnoughFrames 2).run ⟨ops,pubKey :: sig :: rest,alt,fl,cur,sep⟩ =
        .ok () ⟨ops,pubKey :: sig :: rest,alt,fl,cur,sep⟩ := ensure_enough (by simp)
    rw [opCheckSig,run_bind_ok htwo]
    simp only [checkSingle,signatureChecks,dropSignatures_single,checkSignatures_single,bind_assoc]
    have hne : ([sig.asData] ≠ [[]]) ↔ sig.asData ≠ [] := by simp
    simp only [hne]
    rfl

theorem opCheckSig_none (h : singleOperands t._stack = none) :
    (opCheckSig env).run t = .error (.script .invalidStackOperation) t := by
  have hshort : t._stack.length < 2 := by
    rcases hs : t._stack with _ | ⟨pubKey,_ | ⟨sig,rest⟩⟩
    · simp
    · simp
    · simp [hs,singleOperands] at h
  rw [opCheckSig,run_bind_error (ensure_starved hshort)]

/-- The parts of a stack that holds the operands of CHECKMULTISIG. -/
theorem multipleOperands_some (h : multipleOperands env t = some (sigs,keys)) :
    ∃ keysFrame keyFrames sigsFrame sigFrames rest,
      t._stack = keysFrame :: (keyFrames ++ sigsFrame :: (sigFrames ++ rest)) ∧
      countOf env Script.MAX_PUBKEYS_PER_MULTISIG keysFrame = some keyFrames.length ∧
      countOf env keyFrames.length sigsFrame = some sigFrames.length ∧
      t._opCount + keyFrames.length + sigFrames.length ≤ Script.MAX_OPS_PER_SCRIPT ∧
      sigs = sigFrames.map StackFrame.asData ∧ keys = keyFrames.map StackFrame.asData := by
  unfold multipleOperands at h
  split at h
  · cases h
  · rename_i keysFrame rest hstack
    split at h
    · cases h
    · rename_i k hk
      split at h
      · cases h
      · rename_i sigsFrame below hdrop
        split at h
        · cases h
        · rename_i m hm
          split_ifs at h with hfits
          cases h
          have hwhole := List.take_append_drop k rest
          have hlen := congrArg List.length hdrop
          simp only [List.length_drop,List.length_cons] at hlen
          have hkeys : (rest.take k).length = k := by
            rw [List.length_take]
            omega
          have hsigs : (below.take m).length = m := by
            rw [List.length_take]
            omega
          rw [hdrop] at hwhole
          refine ⟨keysFrame,rest.take k,sigsFrame,below.take m,below.drop m,?_,?_,?_,?_,rfl,rfl⟩
          · rw [List.take_append_drop,hwhole]
            exact hstack
          · rw [hkeys]
            exact hk
          · rw [hkeys,hsigs]
            exact hm
          · rw [hkeys,hsigs]
            exact hfits.1

theorem countOf_le {bound k : ℕ} {frame : StackFrame} (h : countOf env bound frame = some k) :
    k ≤ bound := by
  unfold countOf at h
  split at h
  · split_ifs at h with hb
    cases h
    omega
  · cases h

/-- There are no more signatures than keys. -/
theorem multipleOperands_length (h : multipleOperands env t = some (sigs,keys)) :
    sigs.length ≤ keys.length := by
  obtain ⟨_,keyFrames,_,sigFrames,_,_,_,hm,_,hsigs,hkeys⟩ := multipleOperands_some h
  rw [hsigs,hkeys,List.length_map,List.length_map]
  exact countOf_le hm

theorem operandsOf_length {opCode : OpCode} (h : operandsOf env opCode t = some (sigs,keys)) :
    sigs.length ≤ keys.length := by
  unfold operandsOf at h
  split_ifs at h
  · exact multipleOperands_length h
  · rcases hs : t._stack with _ | ⟨pubKey,_ | ⟨sig,rest⟩⟩ <;> rw [hs] at h <;> cases h
    rfl

theorem countOps_ok {n : ℕ} {s : Interpreter} (h : s._opCount + n ≤ Script.MAX_OPS_PER_SCRIPT) :
    (countOps n).run s = .ok () { s with _opCount := s._opCount + n } := by
  rw [countOps_run,if_neg (not_lt.mpr h)]

theorem opCheckMultiSig_run (h : multipleOperands env t = some (sigs,keys)) :
    ∃ u, (opCheckMultiSig env).run t = (checkMultiple env t._separatorPosition sigs keys).run u := by
  obtain ⟨keysFrame,keyFrames,sigsFrame,sigFrames,rest,hstack,hk,hm,hops,rfl,rfl⟩ :=
    multipleOperands_some h
  obtain ⟨ops,stack,alt,fl,cur,sep⟩ := t
  dsimp only at hstack hops ⊢
  subst hstack
  have hone : (ensureStackHasEnoughFrames 1).run
      ⟨ops,keysFrame :: (keyFrames ++ sigsFrame :: (sigFrames ++ rest)),alt,fl,cur,sep⟩ =
      .ok () ⟨ops,keysFrame :: (keyFrames ++ sigsFrame :: (sigFrames ++ rest)),alt,fl,cur,sep⟩ :=
    ensure_enough (by simp)
  have hops₁ : (countOps keyFrames.length).run
      ⟨ops,keyFrames ++ sigsFrame :: (sigFrames ++ rest),alt,fl,cur,sep⟩ =
      .ok () ⟨ops + keyFrames.length,keyFrames ++ sigsFrame :: (sigFrames ++ rest),alt,fl,cur,sep⟩ :=
    countOps_ok (by dsimp only; omega)
  have hkeys : (ensureStackHasEnoughFrames keyFrames.length).run
      ⟨ops + keyFrames.length,keyFrames ++ sigsFrame :: (sigFrames ++ rest),alt,fl,cur,sep⟩ =
      .ok () ⟨ops + keyFrames.length,keyFrames ++ sigsFrame :: (sigFrames ++ rest),alt,fl,cur,sep⟩ :=
    ensure_enough (by simp)
  have hops₂ : (countOps sigFrames.length).run ⟨ops + keyFrames.length,sigFrames ++ rest,alt,fl,cur,sep⟩ =
      .ok () ⟨ops + keyFrames.length + sigFrames.length,sigFrames ++ rest,alt,fl,cur,sep⟩ :=
    countOps_ok hops
  have hsigs : (ensureStackHasEnoughFrames sigFrames.length).run
      ⟨ops + keyFrames.length + sigFrames.length,sigFrames ++ rest,alt,fl,cur,sep⟩ =
      .ok () ⟨ops + keyFrames.length + sigFrames.length,sigFrames ++ rest,alt,fl,cur,sep⟩ :=
    ensure_enough (by simp)
  refine ⟨⟨ops + keyFrames.length + sigFrames.length,rest,alt,fl,cur,sep⟩,?_⟩
  rw [opCheckMultiSig,run_bind_ok hone,run_bind_ok (takeCount_of_countOf env _ hk _ _ _ _ _ _),
    run_bind_ok hops₁,run_bind_ok hkeys,run_bind_ok (takeDatas_run keyFrames _ _ _ _ _ _),
    run_bind_ok (takeCount_of_countOf env _ hm _ _ _ _ _ _),run_bind_ok hops₂,run_bind_ok hsigs,
    run_bind_ok (takeDatas_run sigFrames _ _ _ _ _ _),run_bind_ok (EStateM.run_get _)]
  simp only [checkMultiple,signatureChecks,bind_assoc]

theorem takeCount_none {bound : ℕ} (code : ScriptError) {frame : StackFrame}
    (h : countOf env bound frame = none) (n : ℕ) (rest alt : Stack) (fl : List Bool) (cur sep : Bytes) :
    ∃ e u, (takeCount env bound code).run ⟨n,frame :: rest,alt,fl,cur,sep⟩ = .error e u := by
  rw [takeCount_run_cons]
  cases hx : frame.asNumber (env.isSet .minimalData) with
  | ok x =>
    simp only [countOf,hx] at h
    split_ifs at h with hb
    exact ⟨_,_,if_pos hb⟩
  | error e => exact ⟨_,_,rfl⟩

/-- Without them the handler fails. -/
theorem opCheckMultiSig_none (h : multipleOperands env t = none) :
    ∃ e u, (opCheckMultiSig env).run t = .error e u := by
  obtain ⟨ops,_ | ⟨keysFrame,rest⟩,alt,fl,cur,sep⟩ := t
  · exact ⟨_,_,rfl⟩
  have hone : (ensureStackHasEnoughFrames 1).run ⟨ops,keysFrame :: rest,alt,fl,cur,sep⟩ =
      .ok () ⟨ops,keysFrame :: rest,alt,fl,cur,sep⟩ := ensure_enough (by simp)
  rw [opCheckMultiSig,run_bind_ok hone]
  cases hk : countOf env Script.MAX_PUBKEYS_PER_MULTISIG keysFrame with
  | none =>
    obtain ⟨e,u,he⟩ := takeCount_none .pubKeyCount hk ops rest alt fl cur sep
    exact ⟨e,u,run_bind_error he⟩
  | some k =>
    rw [run_bind_ok (takeCount_of_countOf env _ hk _ _ _ _ _ _)]
    rcases countOps_bind k _ ⟨ops,rest,alt,fl,cur,sep⟩ with hc | hc <;> rw [hc]
    · exact ⟨_,_,rfl⟩
    by_cases hshort : rest.length < k
    · exact ⟨_,_,run_bind_error (ensure_starved hshort)⟩
    obtain ⟨keyFrames,below,rfl,rfl⟩ : ∃ keyFrames below, rest = keyFrames ++ below ∧ keyFrames.length = k :=
      ⟨rest.take k,rest.drop k,(List.take_append_drop k rest).symm,by simp; omega⟩
    have henough : (ensureStackHasEnoughFrames keyFrames.length).run
        ⟨ops + keyFrames.length,keyFrames ++ below,alt,fl,cur,sep⟩ =
        .ok () ⟨ops + keyFrames.length,keyFrames ++ below,alt,fl,cur,sep⟩ := ensure_enough (by simp)
    rw [run_bind_ok henough,run_bind_ok (takeDatas_run keyFrames _ _ _ _ _ _)]
    simp only [multipleOperands,hk,List.drop_left] at h
    cases below with
    | nil => exact ⟨_,_,rfl⟩
    | cons sigsFrame below =>
      cases hm : countOf env keyFrames.length sigsFrame with
      | none =>
        obtain ⟨e,u,he⟩ := takeCount_none .sigCount hm (ops + keyFrames.length) below alt fl cur sep
        exact ⟨e,u,run_bind_error he⟩
      | some m =>
        rw [run_bind_ok (takeCount_of_countOf env _ hm _ _ _ _ _ _)]
        simp only [hm,ite_eq_right_iff,reduceCtorEq,imp_false,not_and_or,not_le] at h
        by_cases hops : ops + keyFrames.length + m > Script.MAX_OPS_PER_SCRIPT
        · have hcount : (countOps m).run ⟨ops + keyFrames.length,below,alt,fl,cur,sep⟩ =
              .error (.script .opCount) ⟨ops + keyFrames.length + m,below,alt,fl,cur,sep⟩ := by
            rw [countOps_run]
            exact if_pos hops
          exact ⟨_,_,run_bind_error hcount⟩
        · have hfew : below.length < m := h.resolve_left hops
          rw [run_bind_ok (countOps_ok (not_lt.mp hops))]
          exact ⟨_,_,run_bind_error (ensure_starved hfew)⟩

/-- An executed signature opcode is handled by the switch. -/
theorem step_of_signature {s : Interpreter} {opCode : OpCode} {d : ScriptData}
    (h : ExecutedAhead s opCode d t) (hop : opCode ∈ signatureOpCodes) :
    (step env).run s = (do dispatch env opCode d; sizeLimits).run t := by
  have hcond : ∀ o ∈ signatureOpCodes, ¬ (OpCode.opIf ≤ o ∧ o ≤ OpCode.opEndIf) :=
    List.all_iff_forall_prop.mp (by decide)
  have hpush : ∀ o ∈ signatureOpCodes, ¬ o < OpCode.opPushData1 :=
    List.all_iff_forall_prop.mp (by decide)
  exact step_of_dispatch h (hcond opCode hop) (hpush opCode hop)

end Handlers
end Interpreter
end Tkeycoin
