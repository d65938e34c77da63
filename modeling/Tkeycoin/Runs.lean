import Tkeycoin.StackDiscipline

/-! Runs of the interpreter: what one round does to the position, the states a
call reaches, and how its outcome comes from them. -/
namespace Tkeycoin

open ActionLogic

namespace Interpreter

/-- A read instruction has moved the position and the operation count only. -/
theorem fetch_ok {s t : Interpreter} {i : OpCode × ScriptData} (h : fetch.run s = .ok i t) :
    Script.getScriptOp s._curScriptPosition = (some i,t._curScriptPosition) ∧
      t = { s with _opCount := t._opCount, _curScriptPosition := t._curScriptPosition } := by
  rw [fetch_run] at h
  rcases hg : Script.getScriptOp s._curScriptPosition with ⟨_ | j,next⟩
  · simp [hg] at h
  · obtain ⟨rfl,ht⟩ := fetched_ok (by simpa [hg] using h)
    have hn : t._curScriptPosition = next := by rw [ht]
    exact ⟨by rw [hn],by rw [hn]; exact ht⟩

theorem fetch_error {s t : Interpreter} {e : Stop} (h : fetch.run s = .error e t) :
    ∃ code, e = .script code := by
  rw [fetch_run] at h
  rcases hg : Script.getScriptOp s._curScriptPosition with ⟨_ | j,next⟩
  · obtain ⟨rfl,-⟩ : _ = e ∧ s = t := by simpa [hg] using h
    exact ⟨_,rfl⟩
  · exact fetched_error (by simpa [hg] using h)

section Safety

variable (env : Env)

/-- The states in which an instruction may ask for a frame that is not there. -/
def Slip (opCode : OpCode) (s : Interpreter) : Prop :=
  ((opCode = OpCode.opPick ∨ opCode = OpCode.opRoll) ∧ IndexMinusOne env s) ∨
    ((opCode = OpCode.opCheckMultiSig ∨ opCode = OpCode.opCheckMultiSigVerify) ∧
      NoSignatureCount env s)

theorem Safe.mono {p q : Interpreter → Prop} {x : Action Unit} (h : Safe p x) (hpq : ∀ s, p s → q s) :
    Safe q x :=
  fun s => Triple.consequence (h s) (fun _ ht => ht) (fun _ _ ht => ht) fun _ _ he => he.imp id (hpq s)

/-- A property of the handlers of an opcode, and of the error, is one of its dispatch. -/
theorem dispatch_induction {P : Action Unit → Prop} {opCode : OpCode} {d : ScriptData}
    (h : ∀ c ∈ cases env opCode d, opCode ∈ c.1 → P c.2)
    (hbad : (∀ c ∈ cases env opCode d, opCode ∉ c.1) → P (throwScript .badOpCode)) :
    P (dispatch env opCode d) := by
  unfold dispatch
  cases hf : (cases env opCode d).find? (fun c => c.1.contains opCode) with
  | none => exact hbad fun c hc hmem => List.find?_eq_none.mp hf c hc (by simpa using hmem)
  | some c => exact h c (List.mem_of_find?_eq_some hf) (by simpa using List.find?_some hf)

theorem cases_safe (opCode : OpCode) (d : ScriptData) :
    ∀ c ∈ cases env opCode d, opCode ∈ c.1 → Safe (Slip env opCode) c.2 := by
  simp only [cases,List.forall_mem_cons,List.not_mem_nil,IsEmpty.forall_iff,implies_true,and_true]
  simp only [List.mem_cons,List.not_mem_nil,or_false]
  have sound {x : Action Unit} (h : ∀ S, Sound S x) : Safe (Slip env opCode) x := Safe.of_sound h
  have num (f) : Safe (Slip env opCode) (unaryNum env f) := sound fun _ => unaryNum_sound env f
  have nums (f) : Safe (Slip env opCode) (binaryNum env f) := sound fun _ => (binaryNum_steps env f).sound
  have order {k o x} (h : Rearranges k o x) : Safe (Slip env opCode) x := sound fun _ => rearranges_sound h
  have hash (h) : Safe (Slip env opCode) (hashTop h) := sound fun _ => hashTop_sound h
  exact ⟨fun _ => sound fun _ => opPushData1_sound env d,fun _ => sound fun _ => opPushData2_sound env d,
    fun _ => sound fun _ => opPushData4_sound env d,fun _ => sound fun _ => opN_sound opCode,
    fun _ => sound fun _ => Steps.pure _,fun _ => sound fun _ => opCheckLockTimeVerify_sound env,
    fun _ => sound fun _ => opCheckSequenceVerify_sound env,fun _ => sound fun _ => opNoop_sound env,
    fun _ => sound fun _ => opVerify_sound,fun _ => sound fun _ => opReturn_sound,
    fun _ => sound fun _ => opToAltStack_sound,fun _ => sound fun _ => opFromAltStack_sound,
    fun _ => order op2Drop_rearranges,fun _ => order op2Dup_rearranges,
    fun _ => order op3Dup_rearranges,fun _ => order op2Over_rearranges,
    fun _ => order op2Rot_rearranges,fun _ => order op2Swap_rearranges,
    fun _ => sound fun _ => opIfDup_sound,fun _ => sound fun _ => opDepth_sound,
    fun _ => order opDrop_rearranges,fun _ => order opDup_rearranges,
    fun _ => order opNip_rearranges,fun _ => order opOver_rearranges,
    fun h => (opPick_safe env).mono fun _ hs => .inl ⟨.inl h,hs⟩,
    fun h => (opRoll_safe env).mono fun _ hs => .inl ⟨.inr h,hs⟩,
    fun _ => order opRot_rearranges,fun _ => order opSwap_rearranges,
    fun _ => order opTuck_rearranges,fun _ => sound fun _ => opSize_sound,
    fun _ => sound fun _ => opEqual_steps.sound,fun _ => sound fun _ => opEqualVerify_sound,
    fun _ => num _,fun _ => num _,fun _ => num _,fun _ => num _,fun _ => num _,fun _ => num _,
    fun _ => nums _,fun _ => nums _,fun _ => nums _,fun _ => nums _,fun _ => nums _,
    fun _ => sound fun _ => opNumEqualVerify_sound env,fun _ => nums _,fun _ => nums _,
    fun _ => nums _,fun _ => nums _,fun _ => nums _,fun _ => nums _,fun _ => nums _,
    fun _ => sound fun _ => opWithin_sound env,fun _ => hash _,fun _ => hash _,fun _ => hash _,
    fun _ => hash _,fun _ => hash _,fun _ => sound fun _ => opCodeSeparator_sound env,
    fun _ => sound fun _ => (opCheckSig_steps env).sound,
    fun _ => sound fun _ => opCheckSigVerify_sound env,
    fun h => (opCheckMultiSig_safe env).mono fun _ hs => .inr ⟨.inl h,hs⟩,
    fun h => (opCheckMultiSigVerify_safe env).mono fun _ hs => .inr ⟨.inr h,hs⟩⟩

theorem dispatch_safe (opCode : OpCode) (d : ScriptData) : Safe (Slip env opCode) (dispatch env opCode d) :=
  dispatch_induction env (cases_safe env opCode d) fun _ =>
    Safe.of_sound fun _ => Steps.throw (noFault_script _)

theorem opIf_triple (opCode : OpCode) (s : Interpreter) :
    Triple (· = s) (opIf env opCode) (fun _ t => t._curScriptPosition = s._curScriptPosition)
      (fun e _ => NoFault e) := by
  rintro t rfl
  obtain ⟨n,stack,alt,fl,cur,sep⟩ := t
  simp only [opIf,EStateM.run_bind,EStateM.run_get]
  by_cases hm : mustExecuted ⟨n,stack,alt,fl,cur,sep⟩ = true
  · cases stack with
    | nil => simp [hm]
    | cons frame rest =>
      simp only [hm]
      by_cases hc : env.sigversion = .witnessV0 ∧ env.isSet .minimalIf = true ∧ notMinimalIf frame = true <;>
        simp [hc,EStateM.run_bind,pushFlag]
  · simp [hm,pushFlag]

theorem conditional_triple (opCode : OpCode) (s : Interpreter) :
    Triple (· = s) (conditional env opCode) (fun _ t => t._curScriptPosition = s._curScriptPosition)
      (fun e _ => NoFault e) := by
  refine Triple.ite (fun _ => opIf_triple env opCode s) fun _ => Triple.ite (fun _ => ?_) fun _ =>
    Triple.ite (fun _ => ?_) fun _ => Triple.pure fun t ht => ht ▸ rfl
  all_goals
    rintro t rfl
    obtain ⟨n,stack,alt,_ | ⟨flag,fl⟩,cur,sep⟩ := t
  · exact noFault_script _
  · exact rfl
  · exact noFault_script _
  · exact rfl

theorem sizeLimits_triple (cur : Bytes) (S : Prop) :
    Triple (fun t => t._curScriptPosition = cur) sizeLimits (fun _ t => t._curScriptPosition = cur)
      (fun e _ => NoFault e ∨ S) := by
  intro t ht
  rw [sizeLimits_run]
  by_cases h : t._stack.length + t._altStack.length > Script.MAX_STACK_SIZE
  · rw [if_pos h]
    exact .inl (noFault_script _)
  · rw [if_neg h]
    exact ht

/-- An instruction that is carried out stays where it is in the script. -/
theorem carryOut_triple (opCode : OpCode) (d : ScriptData) (s : Interpreter) :
    Triple (· = s) (carryOut env opCode d) (fun _ t => t._curScriptPosition = s._curScriptPosition)
      (fun e _ => NoFault e ∨ (mustExecuted s = true ∧ Slip env opCode s)) := by
  refine Triple.bind (M := fun r t => r = s ∧ t = s) (Triple.get fun t ht => ⟨ht,ht⟩) fun r => ?_
  rintro t ⟨rfl,ht⟩
  revert t
  refine Triple.ite (fun _ => ?_) fun _ => Triple.ite (fun hm => ?_) fun _ => ?_
  · refine Triple.bind (Triple.consequence (conditional_triple env opCode r) (fun _ h => h)
      (fun _ _ h => h) fun _ _ h => .inl h) fun _ => sizeLimits_triple _ _
  · refine Triple.ite (fun _ => ?_) fun _ => ?_
    · exact Triple.consequence (opPushData_sound env opCode d (S := False) r._curScriptPosition
        r._conditionalExecutionFlags) (fun _ h => h ▸ ⟨rfl,rfl,Nat.zero_le _⟩) (fun _ _ h => h.cur)
        fun _ _ h => .inl (h.resolve_right id)
    · refine Triple.bind (Triple.consequence (dispatch_safe env opCode d r) (fun _ h => h)
        (fun _ _ h => h.cur) fun _ _ h => h.imp id fun hs => ⟨hm,hs⟩) fun _ => sizeLimits_triple _ _
  · exact Triple.consequence (sizeLimits_triple r._curScriptPosition _) (fun _ h => h ▸ rfl)
      (fun _ _ h => h) fun _ _ h => h

/-- The instruction at the position, once read, is executed in a state of `Slip`. -/
def SlipAhead (s : Interpreter) : Prop :=
  ∃ i t, fetch.run s = .ok i t ∧ mustExecuted t = true ∧ Slip env i.1 t

/-- A round takes at least a byte of the script and has no fault but at a slip. -/
theorem step_triple (s : Interpreter) :
    Triple (· = s) (step env) (fun _ t => t._curScriptPosition.length < s._curScriptPosition.length)
      (fun e _ => NoFault e ∨ SlipAhead env s) := by
  intro u hu
  rw [hu,step,EStateM.run_bind]
  cases hf : fetch.run s with
  | error e t =>
    obtain ⟨code,rfl⟩ := fetch_error hf
    exact .inl (noFault_script code)
  | ok i t =>
    have hl := Script.getScriptOp_length (fetch_ok hf).1
    have h := carryOut_triple env i.1 i.2 t t rfl
    simp only
    cases hc : (carryOut env i.1 i.2).run t with
    | ok _ u =>
      have hu : u._curScriptPosition = t._curScriptPosition := by simpa [hc] using h
      simpa only [hu] using hl
    | error e u =>
      have he : NoFault e ∨ (mustExecuted t = true ∧ Slip env i.1 t) := by simpa [hc] using h
      exact he.imp id fun hs => ⟨i,t,hf,hs⟩

end Safety

section Reached

variable (env : Env)

/-- The states at the head of the loop of a call, which a script over the size
limit does not come to. -/
def Reached (script : Bytes) (s₀ s : Interpreter) : Prop :=
  script.length ≤ Script.MAX_SCRIPT_SIZE ∧ Rounds more (step env) (start script s₀) s

/-- The bytes left, which every round makes fewer. -/
def left (s : Interpreter) : ℕ := s._curScriptPosition.length

theorem left_decreases (s t : Interpreter) (h : Round more (step env) s t) : left t < left s := by
  have h₁ := step_triple env s s rfl
  rw [h.2] at h₁
  exact h₁

theorem more_of_left (s : Interpreter) (h : left s = 0) : more s = false := by
  have hnil : s._curScriptPosition = [] := List.length_eq_zero_iff.mp h
  simp [more,hnil]

/-- An instruction is read before the end of the script only. -/
theorem more_of_fetch {s t : Interpreter} {i : OpCode × ScriptData} (hf : fetch.run s = .ok i t) :
    more s = true := by
  cases hs : s._curScriptPosition with
  | nil => simp [fetch_run,hs,Script.getScriptOp] at hf
  | cons => simp [more,hs]

variable {env} {script : Bytes} {s₀ s t : Interpreter}

/-- Once a round is made fewer bytes are left. -/
theorem Reached.start_or_left (h : Reached env script s₀ s) :
    s = start script s₀ ∨ left s < left (start script s₀) := by
  refine rounds_invariant (I := fun s => s = start script s₀ ∨ left s < left (start script s₀))
    (fun s t hs hround => ?_) (.inl rfl) h.2
  have hlt := left_decreases env s t hround
  rcases hs with rfl | hs
  · exact .inr hlt
  · exact .inr (hlt.trans hs)

/-- Within the size limit the block is the loop and the balance check. -/
theorem body_run (h : script.length ≤ Script.MAX_SCRIPT_SIZE) (u : Interpreter) :
    (body env script).run u = match (loop more (step env) script.length).run u with
      | .ok _ t =>
        if t._conditionalExecutionFlags ≠ [] then .error (.script .unbalancedConditional) t else .ok () t
      | .error e t => .error e t := by
  have hs : ¬ script.length > Script.MAX_SCRIPT_SIZE := by omega
  rw [body,if_neg hs,EStateM.run_bind]
  cases (loop more (step env) script.length).run u with
  | error e t => rfl
  | ok _ t =>
    simp only [EStateM.run_bind,EStateM.run_get]
    split_ifs <;> rfl

theorem body_long (h : script.length > Script.MAX_SCRIPT_SIZE) (u : Interpreter) :
    (body env script).run u = .error (.script .scriptSize) u := by
  simp [body,h]

/-- A failing round of a reached state is how the call ends. -/
theorem body_of_step_error {e : Stop} (hr : Reached env script s₀ s) (hm : more s = true) (he : (step env).run s = .error e t) :
    (body env script).run (start script s₀) = .error e t := by
  have hpos : left s ≠ 0 := fun h0 => by simp [more_of_left s h0] at hm
  have hloop : (loop more (step env) script.length).run (start script s₀) = .error e t := by
    have hfuel : left (start script s₀) ≤ script.length := le_rfl
    rw [loop_of_rounds (left_decreases env) more_of_left hr.2 hfuel
      (show left s ≤ left s - 1 + 1 by omega),loop_succ_run]
    simp [hm,he]
  rw [body_run hr.1,hloop]

/-- The outcome of a call whose block stops. -/
def ended (stop : Stop) (t : Interpreter) : Outcome :=
  match stop with
  | .script code => .returned false code t
  | .exception => .returned false .unknownError t
  | .abort fault => .aborted fault

theorem execute_of_stop {stop : Stop} (hr : Reached env script s₀ s) (hm : more s = true)
    (he : (step env).run s = .error stop t) : execute env script s₀ = ended stop t := by
  rw [execute,body_of_step_error hr hm he]
  cases stop <;> rfl

theorem execute_of_step_error {code : ScriptError} (hr : Reached env script s₀ s) (hm : more s = true)
    (he : (step env).run s = .error (.script code) t) :
    execute env script s₀ = .returned false code t := by
  rw [execute,body_of_step_error hr hm he]

/-- A reached state at the end of the script is how the call ends. -/
theorem body_of_end (hr : Reached env script s₀ s) (hm : more s = false) :
    (body env script).run (start script s₀) =
      if s._conditionalExecutionFlags ≠ [] then .error (.script .unbalancedConditional) s
      else .ok () s := by
  have hfuel : left (start script s₀) ≤ script.length := le_rfl
  rw [body_run hr.1,loop_of_rounds (left_decreases env) more_of_left hr.2 hfuel (le_refl (left s)),
    loop_done _ _ _ _ hm]

theorem execute_of_end (hr : Reached env script s₀ s) (hm : more s = false)
    (hflags : s._conditionalExecutionFlags = []) : execute env script s₀ = .returned true .ok s := by
  rw [execute,body_of_end hr hm,if_neg (by simpa using hflags)]

/-- An abort comes from a round of a reached state. -/
theorem execute_aborted {fault : Fault} (h : execute env script s₀ = .aborted fault) :
    ∃ s t, Reached env script s₀ s ∧ more s = true ∧ (step env).run s = .error (.abort fault) t := by
  have hb : ∃ t, (body env script).run (start script s₀) = .error (.abort fault) t := by
    rw [execute] at h
    rcases hb : (body env script).run (start script s₀) with ⟨_,t⟩ | ⟨_ | _ | f,t⟩
    all_goals simp only [hb,reduceCtorEq,Outcome.aborted.injEq] at h
    exact ⟨t,by rw [h]⟩
  obtain ⟨t,hb⟩ := hb
  by_cases hs : script.length ≤ Script.MAX_SCRIPT_SIZE
  · rw [body_run hs] at hb
    cases hl : (loop more (step env) script.length).run (start script s₀) with
    | ok _ u =>
      rw [hl] at hb
      simp only at hb
      split_ifs at hb
      cases hb
    | error e u =>
      obtain ⟨s,hr,hm,he⟩ := loop_error hl
      rw [hl] at hb
      cases hb
      exact ⟨s,_,⟨hs,hr⟩,hm,he⟩
  · rw [body_long (by omega)] at hb
    cases hb

/-- A call that succeeds has reached the end of the script with every conditional closed. -/
theorem execute_true {code : ScriptError} (h : execute env script s₀ = .returned true code t) :
    Reached env script s₀ t ∧ more t = false ∧ t._conditionalExecutionFlags = [] ∧ code = .ok := by
  have hb : (body env script).run (start script s₀) = .ok () t ∧ code = .ok := by
    rw [execute] at h
    rcases hb : (body env script).run (start script s₀) with ⟨_,t⟩ | ⟨_ | _ | f,t⟩
    all_goals simp_all
  obtain ⟨hb,hcode⟩ := hb
  by_cases hs : script.length ≤ Script.MAX_SCRIPT_SIZE
  · rw [body_run hs] at hb
    cases hl : (loop more (step env) script.length).run (start script s₀) with
    | error e u =>
      rw [hl] at hb
      cases hb
    | ok _ u =>
      rw [hl] at hb
      simp only at hb
      split_ifs at hb with hflags
      obtain rfl : u = t := by simpa using hb
      have hfuel : left (start script s₀) ≤ script.length := le_rfl
      exact ⟨⟨hs,loop_rounds hl⟩,loop_exits (left_decreases env) more_of_left hfuel hl,
        by simpa using hflags,hcode⟩
  · rw [body_long (by omega)] at hb
    cases hb

end Reached
end Interpreter
end Tkeycoin
