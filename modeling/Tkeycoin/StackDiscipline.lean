import Tkeycoin.StackEffects

/-! Depth bookkeeping for the opcode handlers: which frames each may take, what
it leaves alone, and the two places where a frame can be missing. -/
namespace Tkeycoin

open ActionLogic

namespace Interpreter

/-- Not a failure of the code to respect its own stacks and vectors. -/
def NoFault (e : Stop) : Prop := e ≠ .abort .noFrame ∧ e ≠ .abort .outOfRange

@[simp] theorem noFault_script (code : ScriptError) : NoFault (.script code) := by simp [NoFault]

@[simp] theorem noFault_exception : NoFault .exception := by simp [NoFault]

@[simp] theorem noFault_assertion : NoFault (.abort .assertion) := by simp [NoFault]

/-- At a position of the script, under given conditional flags, with frames enough. -/
structure At (cur : Bytes) (flags : List Bool) (depth : ℕ) (s : Interpreter) : Prop where
  cur : s._curScriptPosition = cur
  flags : s._conditionalExecutionFlags = flags
  depth : depth ≤ s._stack.length

/-- From `a` frames the action goes to `b` frames and leaves position and
conditional flags alone. It fails without fault, or `S` holds. -/
def Steps {α : Type} (S : Prop) (a : ℕ) (x : Action α) (b : ℕ) : Prop :=
  ∀ cur flags, Triple (At cur flags a) x (fun _ => At cur flags b) (fun e _ => NoFault e ∨ S)

namespace Steps

variable {α β : Type} {S : Prop} {a b c : ℕ}

theorem bind {x : Action α} {f : α → Action β} (hx : Steps S a x b) (hf : ∀ r, Steps S b (f r) c) :
    Steps S a (x >>= f) c :=
  fun cur flags => Triple.bind (hx cur flags) fun r => hf r cur flags

/-- What is known of every value the first action returns may be used behind it. -/
theorem bind_value {x : Action α} {f : α → Action β} {V : α → Prop} (hx : Steps S a x b)
    (hV : ∀ s r t, x.run s = .ok r t → V r) (hf : ∀ r, V r → Steps S b (f r) c) :
    Steps S a (x >>= f) c := by
  intro cur flags
  refine Triple.bind (M := fun r s => At cur flags b s ∧ V r) ?_ fun r s hs => hf r hs.2 cur flags s hs.1
  intro s hs
  have h := hx cur flags s hs
  cases hr : x.run s with
  | ok r t => exact ⟨by simpa [hr] using h,hV s r t hr⟩
  | error e t => simpa [hr] using h

theorem weaken {x : Action α} (h : Steps S a x b) (hc : c ≤ b) : Steps S a x c :=
  fun cur flags => Triple.consequence (h cur flags) (fun _ hs => hs)
    (fun _ _ hs => ⟨hs.cur,hs.flags,hc.trans hs.depth⟩) (fun _ _ he => he)

theorem pure (r : α) : Steps S a (Pure.pure r : Action α) a :=
  fun _ _ => Triple.pure fun _ hs => hs

theorem throw {e : Stop} (he : NoFault e) : Steps S a (MonadExcept.throw e : Action α) b :=
  fun _ _ => Triple.throw fun _ _ => .inl he

theorem get : Steps S a (MonadState.get : Action Interpreter) a :=
  fun _ _ => Triple.get fun _ hs => hs

theorem ite {p : Prop} [Decidable p] {x y : Action α} (hx : p → Steps S a x b)
    (hy : ¬ p → Steps S a y b) : Steps S a (if p then x else y) b :=
  fun cur flags => Triple.ite (fun h => hx h cur flags) (fun h => hy h cur flags)

theorem guard {p : Prop} [Decidable p] {code : ScriptError} {y : Action α}
    (hy : Steps S a y b) : Steps S a (if p then throwScript code else y) b :=
  ite (fun _ => throw (noFault_script code)) fun _ => hy

end Steps

section Primitives

variable {α β : Type} {S : Prop} {a b c : ℕ}

theorem ensure_steps (k : ℕ) : Steps S a (ensureStackHasEnoughFrames k) k := by
  intro cur flags s hs
  by_cases h : s._stack.length < k
  · rw [ensure_starved h]
    exact .inl (noFault_script _)
  · rw [ensure_enough (by omega)]
    exact ⟨hs.cur,hs.flags,by omega⟩

theorem take_steps : Steps S (a+1) take a := by
  rintro cur flags ⟨n,_ | ⟨f,rest⟩,alt,fl,c,sep⟩ ⟨hc,hf,hd⟩
  · simp at hd
  · exact ⟨hc,hf,by simpa using hd⟩

theorem top_steps : Steps S (a+1) top (a+1) := by
  rintro cur flags ⟨n,_ | ⟨f,rest⟩,alt,fl,c,sep⟩ ⟨hc,hf,hd⟩
  · simp at hd
  · exact ⟨hc,hf,hd⟩

theorem push_steps (f : StackFrame) : Steps S a (push f) (a+1) :=
  fun _ _ => Triple.modify fun _ hs => ⟨hs.cur,hs.flags,by simpa using hs.depth⟩

theorem pop_steps : Steps S (a+1) pop a := Steps.bind take_steps fun _ => Steps.pure _

theorem takeData_steps : Steps S (a+1) takeData a := Steps.bind take_steps fun _ => Steps.pure _

theorem topData_steps : Steps S (a+1) topData (a+1) :=
  Steps.bind take_steps fun _ => Steps.bind (push_steps _) fun _ => Steps.pure _

theorem lift_steps {x : Except Stop α} (h : ∀ e, x = .error e → NoFault e) : Steps S a (lift x) a := by
  cases x with
  | ok r => exact Steps.pure r
  | error e => exact Steps.throw (h e rfl)

theorem liftScript_steps (x : Except ScriptError α) : Steps S a (liftScript x) a := by
  refine lift_steps fun e he => ?_
  cases x with
  | ok r => simp [Except.mapError] at he
  | error code =>
    have hcode : Stop.script code = e := by simpa [Except.mapError] using he
    exact hcode ▸ noFault_script code

theorem liftChecker_steps (x : Except CheckerStop Bool) : Steps S a (liftChecker x) a := by
  refine lift_steps fun e he => ?_
  cases x with
  | ok r => simp [Except.mapError] at he
  | error stop =>
    have hstop : stop.toStop = e := by simpa [Except.mapError] using he
    subst hstop
    cases stop <;> simp [CheckerStop.toStop]

theorem pushAll_steps (frames : List StackFrame) : Steps S a (pushAll frames) a := by
  intro cur flags s hs
  rw [pushAll_run]
  exact ⟨hs.cur,hs.flags,by simp; have := hs.depth; omega⟩

theorem countOps_steps (n : ℕ) : Steps S a (countOps n) a := by
  intro cur flags s hs
  rw [countOps_run]
  by_cases h : s._opCount + n > Script.MAX_OPS_PER_SCRIPT
  · rw [if_pos h]
    exact .inl (noFault_script _)
  · rw [if_neg h]
    exact ⟨hs.cur,hs.flags,hs.depth⟩

theorem takeNumber_steps (env : Env) : Steps S (a+1) (takeNumber env) a :=
  Steps.bind take_steps fun _ => liftScript_steps _

theorem verifyTop_steps (code : ScriptError) : Steps S (a+1) (verifyTop code) a :=
  Steps.bind top_steps fun _ => Steps.guard pop_steps

theorem takeDatas_steps (n : ℕ) : Steps S (a+n) (takeDatas n) a := by
  induction n with
  | zero => exact Steps.pure _
  | succ n ih => exact Steps.bind takeData_steps fun _ => Steps.bind ih fun _ => Steps.pure _

theorem takeCount_steps (env : Env) (bound : ℕ) (code : ScriptError) :
    Steps S (a+1) (takeCount env bound code) a :=
  Steps.bind (takeNumber_steps env) fun _ => Steps.guard (Steps.pure _)

end Primitives

/-- Safe on every stack: no fault, unless `S` holds. -/
abbrev Sound (S : Prop) (x : Action Unit) : Prop := Steps S 0 x 0

theorem Steps.sound {S : Prop} {x : Action Unit} {b : ℕ} (h : Steps S 0 x b) : Sound S x :=
  h.weaken (Nat.zero_le _)

section Handlers

variable {S : Prop} (env : Env)

theorem pushNumberOrData_sound (d : ScriptData) : Sound S (pushNumberOrData env d) :=
  Steps.ite (fun _ => (Steps.bind (liftScript_steps _) fun _ => push_steps _).sound) fun _ => (push_steps _).sound

theorem opPushData_sound (opCode : OpCode) (d : ScriptData) : Sound S (opPushData env opCode d) :=
  Steps.guard (pushNumberOrData_sound env d)

theorem opPushData1_sound (d : ScriptData) : Sound S (opPushData1 env d) :=
  Steps.guard (pushNumberOrData_sound env d)

theorem opPushData2_sound (d : ScriptData) : Sound S (opPushData2 env d) :=
  Steps.guard (push_steps _).sound

theorem opPushData4_sound (d : ScriptData) : Sound S (opPushData4 env d) :=
  Steps.guard (push_steps _).sound

theorem opN_sound (opCode : OpCode) : Sound S (opN opCode) := (push_steps _).sound

theorem opNoop_sound : Sound S (opNoop env) := Steps.guard (Steps.pure _)

theorem opCheckLockTimeVerify_sound : Sound S (opCheckLockTimeVerify env) := by
  refine Steps.ite (fun _ => Steps.pure _) fun _ => ?_
  exact (Steps.bind (ensure_steps 1) fun _ => Steps.bind topData_steps fun _ =>
    Steps.bind (liftScript_steps _) fun _ => Steps.guard (Steps.bind (liftChecker_steps _) fun _ =>
      Steps.guard (Steps.pure _))).sound

theorem opCheckSequenceVerify_sound : Sound S (opCheckSequenceVerify env) := by
  refine Steps.ite (fun _ => Steps.pure _) fun _ => ?_
  exact (Steps.bind (ensure_steps 1) fun _ => Steps.bind topData_steps fun _ =>
    Steps.bind (liftScript_steps _) fun _ => Steps.guard (Steps.ite (fun _ => Steps.pure _) fun _ =>
      Steps.bind (liftChecker_steps _) fun _ => Steps.guard (Steps.pure _))).sound

theorem opVerify_sound : Sound S opVerify := Steps.bind (ensure_steps 1) fun _ => verifyTop_steps _

theorem opReturn_sound : Sound S opReturn := Steps.throw (noFault_script _)

theorem opToAltStack_sound : Sound S opToAltStack :=
  Steps.bind (ensure_steps 1) fun _ => Steps.bind take_steps fun _ _ _ =>
    Triple.modify fun _ hs => ⟨hs.cur,hs.flags,hs.depth⟩

theorem opFromAltStack_sound : Sound S opFromAltStack := by
  rintro cur flags ⟨n,stack,_ | ⟨f,rest⟩,fl,c,sep⟩ ⟨hc,hf,hd⟩
  · exact .inl (noFault_script _)
  · exact ⟨hc,hf,Nat.zero_le _⟩

theorem rearranges_sound {k : ℕ} {order : List ℕ} {x : Action Unit} (hx : Rearranges k order x) :
    Sound S x := by
  intro cur flags s hs
  rw [hx s]
  by_cases h : s._stack.length < k
  · rw [if_pos h]
    exact .inl (noFault_script _)
  · rw [if_neg h]
    exact ⟨hs.cur,hs.flags,Nat.zero_le _⟩

theorem opIfDup_sound : Sound S opIfDup :=
  (Steps.bind (ensure_steps 1) fun _ => Steps.bind top_steps fun _ =>
    Steps.ite (fun _ => (push_steps _).weaken (Nat.le_succ _)) fun _ => Steps.pure _).sound

theorem opDepth_sound : Sound S opDepth := (Steps.bind Steps.get fun _ => push_steps _).sound

theorem opSize_sound : Sound S opSize :=
  (Steps.bind (ensure_steps 1) fun _ => Steps.bind topData_steps fun _ => push_steps _).sound

theorem opEqual_steps : Steps S 0 opEqual 1 :=
  Steps.bind (ensure_steps 2) fun _ => Steps.bind takeData_steps fun _ => Steps.bind takeData_steps fun _ => push_steps _

theorem opEqualVerify_sound : Sound S opEqualVerify :=
  Steps.bind opEqual_steps fun _ => verifyTop_steps _

theorem unaryNum_sound (f : ScriptNum → Except ScriptError ScriptNum) : Sound S (unaryNum env f) :=
  (Steps.bind (ensure_steps 1) fun _ => Steps.bind (takeNumber_steps env) fun _ => Steps.bind (liftScript_steps _) fun _ =>
    push_steps _).sound

theorem binaryNum_steps (f : ScriptNum → ScriptNum → ScriptNum) : Steps S 0 (binaryNum env f) 1 :=
  Steps.bind (ensure_steps 2) fun _ => Steps.bind (takeNumber_steps env) fun _ => Steps.bind (takeNumber_steps env) fun _ =>
    push_steps _

theorem opNumEqualVerify_sound : Sound S (opNumEqualVerify env) :=
  Steps.bind (binaryNum_steps env _) fun _ => verifyTop_steps _

theorem opWithin_sound : Sound S (opWithin env) :=
  (Steps.bind (ensure_steps 3) fun _ => Steps.bind (takeNumber_steps env) fun _ => Steps.bind (takeNumber_steps env) fun _ =>
    Steps.bind (takeNumber_steps env) fun _ => push_steps _).sound

theorem hashTop_sound (h : Bytes → Bytes) : Sound S (hashTop h) :=
  (Steps.bind (ensure_steps 1) fun _ => Steps.bind takeData_steps fun _ => push_steps _).sound

theorem opCodeSeparator_sound : Sound S (opCodeSeparator env) :=
  Steps.guard fun _ _ => Triple.modify fun _ hs => ⟨hs.cur,hs.flags,hs.depth⟩

/-- The failures of a check on an encoding are exceptions, or the assertion of a stub. -/
theorem checkSignatureEncoding_noFault {f : StackFrame} {e : Stop}
    (h : checkSignatureEncoding env f = .error e) : NoFault e := by
  unfold checkSignatureEncoding at h
  split at h
  · simp at h
  · simp at h
  · rename_i sigData _
    obtain ⟨valid,hv⟩ :=
      Option.isSome_iff_exists.mp (SignatureEncoding.isValidSignatureEncoding_isSome sigData)
    cases valid <;> simp only [hv,isLowDERSignature] at h <;> split_ifs at h <;> cases h <;> simp

theorem checkPubKeyEncoding_noFault {pubKey : ScriptData} {e : Stop}
    (h : checkPubKeyEncoding env pubKey = .error e) : NoFault e := by
  unfold checkPubKeyEncoding at h
  split_ifs at h <;> cases h <;> simp

variable {a : ℕ}

theorem dropSignature_steps (scriptCode : Bytes) (sig : ScriptData) :
    Steps S a (dropSignature env scriptCode sig) a :=
  Steps.ite (fun _ => Steps.guard (Steps.pure _)) fun _ => Steps.pure _

theorem dropSignatures_steps (sigs : List ScriptData) (scriptCode : Bytes) :
    Steps S a (dropSignatures env sigs scriptCode) a := by
  induction sigs generalizing scriptCode with
  | nil => exact Steps.pure _
  | cons sig sigs ih => exact Steps.bind (dropSignature_steps env _ _) fun _ => ih _

theorem checkSignature_steps (sig pubKey : ScriptData) (scriptCode : Bytes) :
    Steps S a (checkSignature env sig pubKey scriptCode) a :=
  Steps.bind (lift_steps fun _ h => checkSignatureEncoding_noFault env h) fun _ =>
    Steps.bind (lift_steps fun _ h => checkPubKeyEncoding_noFault env h) fun _ => liftChecker_steps _

/-- With no more signatures than keys left the loop stays inside both vectors. -/
theorem checkSignatures_steps (scriptCode : Bytes) (sigs keys : List ScriptData)
    (h : sigs.length ≤ keys.length) : Steps S a (checkSignatures env scriptCode sigs keys) a := by
  induction keys generalizing sigs with
  | nil =>
    have hs : sigs = [] := List.length_eq_zero_iff.mp (by simpa using h)
    subst hs
    exact Steps.pure _
  | cons key keys ih =>
    cases sigs with
    | nil => exact Steps.pure _
    | cons sig sigs =>
      refine Steps.bind (checkSignature_steps env sig key scriptCode) fun ok => ?_
      exact Steps.ite (fun _ => Steps.pure _) fun hl => ih _ (by omega)

theorem popDummy_sound : Sound S (popDummy env) :=
  Steps.bind (ensure_steps 1) fun _ =>
    Steps.ite (fun _ => Steps.bind topData_steps fun _ => Steps.guard pop_steps) fun _ => pop_steps

theorem opCheckSig_steps : Steps S 0 (opCheckSig env) 1 :=
  Steps.bind (ensure_steps 2) fun _ => Steps.bind takeData_steps fun _ =>
    Steps.bind takeData_steps fun _ => Steps.bind Steps.get fun _ =>
      Steps.bind (dropSignature_steps env _ _) fun _ => Steps.bind (checkSignature_steps env _ _ _) fun _ =>
        Steps.guard (push_steps _)

theorem opCheckSigVerify_sound : Sound S (opCheckSigVerify env) :=
  Steps.bind (opCheckSig_steps env) fun _ => verifyTop_steps _

end Handlers

section Slips

variable (env : Env)

/-- The operand of PICK or ROLL is minus one: `while (--n)` starts below zero. -/
def IndexMinusOne (s : Interpreter) : Prop :=
  ∃ frame rest x, s._stack = frame :: rest ∧
    frame.asNumber (env.isSet .minimalData) = .ok x ∧ x.getint = -1

/-- The keys of CHECKMULTISIG are all there is: no frame holds the signature count. -/
def NoSignatureCount (s : Interpreter) : Prop :=
  ∃ frame rest x, s._stack = frame :: rest ∧
    frame.asNumber (env.isSet .minimalData) = .ok x ∧ x.getint.toInt = rest.length

variable {S : Prop} {a : ℕ}

theorem takeToTmp_steps {n : Int32} (hn : n ≠ 0) : Steps S (toSizeT n) (takeToTmp n) 1 := by
  intro cur flags s hs
  have hr := rounds_lt_of_toSizeT_le hn hs.depth
  rw [takeToTmp_run,if_pos hr.le]
  exact ⟨hs.cur,hs.flags,by simp; omega⟩

theorem takeToTmp_slip (hS : S) (n : Int32) : Steps S a (takeToTmp n) 0 := by
  intro cur flags s hs
  rw [takeToTmp_run]
  by_cases h : rounds n ≤ s._stack.length
  · rw [if_pos h]
    exact ⟨hs.cur,hs.flags,Nat.zero_le _⟩
  · rw [if_neg h]
    exact .inr hS

theorem take_slip (hS : S) : Steps S a take 0 := by
  rintro cur flags ⟨n,_ | ⟨f,rest⟩,alt,fl,c,sep⟩ ⟨hc,hf,hd⟩
  · exact .inr hS
  · exact ⟨hc,hf,Nat.zero_le _⟩

theorem top_slip (hS : S) : Steps S a top 0 := by
  rintro cur flags ⟨n,_ | ⟨f,rest⟩,alt,fl,c,sep⟩ ⟨hc,hf,hd⟩
  · exact .inr hS
  · exact ⟨hc,hf,Nat.zero_le _⟩

/-- The number of rounds PICK and ROLL compute, zero for minus one only. -/
theorem takeIndex_triple (s : Interpreter) :
    Triple (fun t => t = s ∧ 1 ≤ t._stack.length) (takeIndex env)
      (fun n t => At s._curScriptPosition s._conditionalExecutionFlags 0 t ∧ (n = 0 → IndexMinusOne env s))
      (fun e _ => NoFault e ∨ IndexMinusOne env s) := by
  rintro t ⟨rfl,hd⟩
  obtain ⟨k,_ | ⟨frame,rest⟩,alt,fl,cur,sep⟩ := t
  · simp at hd
  · rw [takeIndex_run_cons]
    cases hx : frame.asNumber (env.isSet .minimalData) with
    | error code => exact .inl (noFault_script _)
    | ok x =>
      refine ⟨⟨rfl,rfl,Nat.zero_le _⟩,fun hn => ⟨frame,rest,x,rfl,hx,?_⟩⟩
      grind

/-- Safe on every stack but those of `slip`. -/
def Safe (slip : Interpreter → Prop) (x : Action Unit) : Prop :=
  ∀ s, Triple (· = s) x (fun _ => At s._curScriptPosition s._conditionalExecutionFlags 0)
    (fun e _ => NoFault e ∨ slip s)

theorem Safe.of_sound {slip : Interpreter → Prop} {x : Action Unit} (h : ∀ S, Sound S x) : Safe slip x :=
  fun s => Triple.consequence (h (slip s) _ _) (fun _ ht => ht ▸ ⟨rfl,rfl,Nat.zero_le _⟩)
    (fun _ _ ht => ht) fun _ _ he => he

theorem ensure_triple (k : ℕ) (s : Interpreter) (S : Prop) :
    Triple (· = s) (ensureStackHasEnoughFrames (k+1)) (fun _ t => t = s ∧ 1 ≤ t._stack.length)
      (fun e _ => NoFault e ∨ S) := by
  rintro t rfl
  by_cases h : t._stack.length < k + 1
  · rw [ensure_starved h]
    exact .inl (noFault_script _)
  · rw [ensure_enough (by omega)]
    exact ⟨rfl,by omega⟩

/-- PICK and ROLL differ in whether the frame they read stays. -/
theorem index_safe {x : Action StackFrame} (hx : ∀ S, Steps S 1 x 0)
    (hslip : ∀ S : Prop, S → Steps S 0 x 0) :
    Safe (IndexMinusOne env) (do
      ensureStackHasEnoughFrames 2
      let n ← takeIndex env
      ensureStackHasEnoughFrames (toSizeT n)
      let tmp ← takeToTmp n
      let xN ← x
      pushAll tmp
      push xN) := by
  intro s
  refine Triple.bind (ensure_triple 1 s _) fun _ => Triple.bind (takeIndex_triple env s) fun n t ht => ?_
  by_cases hn : n = 0
  · exact (Steps.bind (ensure_steps _) fun _ => Steps.bind (takeToTmp_slip (ht.2 hn) n) fun _ =>
      Steps.bind (hslip _ (ht.2 hn)) fun _ => Steps.bind (pushAll_steps _) fun _ =>
        (push_steps _).weaken (Nat.zero_le _)) _ _ t ht.1
  · exact (Steps.bind (ensure_steps _) fun _ => Steps.bind (takeToTmp_steps hn) fun _ =>
      Steps.bind (hx _) fun _ => Steps.bind (pushAll_steps _) fun _ =>
        (push_steps _).weaken (Nat.zero_le _)) _ _ t ht.1

theorem opPick_safe : Safe (IndexMinusOne env) (opPick env) :=
  index_safe env (fun _ => top_steps.weaken (Nat.zero_le _)) fun _ => top_slip

theorem opRoll_safe : Safe (IndexMinusOne env) (opRoll env) :=
  index_safe env (fun _ => take_steps) fun _ => take_slip

/-- The number of keys, and whether they are all that is left. -/
theorem takeCount_triple (bound : ℕ) (code : ScriptError) (s : Interpreter) :
    Triple (fun t => t = s ∧ 1 ≤ t._stack.length) (takeCount env bound code)
      (fun n t => At s._curScriptPosition s._conditionalExecutionFlags 0 t ∧
        (t._stack.length = n → NoSignatureCount env s))
      (fun e _ => NoFault e ∨ NoSignatureCount env s) := by
  rintro t ⟨rfl,hd⟩
  obtain ⟨k,_ | ⟨frame,rest⟩,alt,fl,cur,sep⟩ := t
  · simp at hd
  · rw [takeCount_run_cons]
    cases hx : frame.asNumber (env.isSet .minimalData) with
    | error code => exact .inl (noFault_script _)
    | ok x =>
      by_cases hb : x.getint < 0 ∨ x.getint.toInt > bound
      · simp only [hb,if_true]
        exact .inl (noFault_script _)
      · have h0 : 0 ≤ x.getint.toInt := by
          have hlt : ¬ x.getint < 0 := fun h => hb (.inl h)
          simpa [Int32.lt_iff_toInt_lt] using hlt
        simp only [hb,if_false]
        refine ⟨⟨rfl,rfl,Nat.zero_le _⟩,fun hn => ⟨frame,rest,x,rfl,hx,?_⟩⟩
        change rest.length = _ at hn
        omega

theorem takeCount_le {bound n : ℕ} {code : ScriptError} {s t : Interpreter}
    (h : (takeCount env bound code).run s = .ok n t) : n ≤ bound := by
  obtain ⟨k,_ | ⟨frame,rest⟩,alt,fl,cur,sep⟩ := s
  · simp [takeCount,takeNumber,EStateM.run_bind] at h
  · rw [takeCount_run_cons] at h
    cases hx : frame.asNumber (env.isSet .minimalData) with
    | error code => simp [hx] at h
    | ok x =>
      by_cases hb : x.getint < 0 ∨ x.getint.toInt > bound
      · simp [hx,hb] at h
      · simp only [hx,hb,if_false,EStateM.Result.ok.injEq] at h
        have hle : ¬ x.getint.toInt > bound := fun h => hb (.inr h)
        omega

theorem takeDatas_length {n : ℕ} {datas : List ScriptData} {s t : Interpreter}
    (h : (takeDatas n).run s = .ok datas t) : datas.length = n := by
  induction n generalizing datas s t with
  | zero =>
    have hd : [] = datas ∧ s = t := by simpa [takeDatas] using h
    simp [← hd.1]
  | succ n ih =>
    simp only [takeDatas,EStateM.run_bind] at h
    cases hd : takeData.run s with
    | error e s' => simp [hd] at h
    | ok d s' =>
      cases hr : (takeDatas n).run s' with
      | error e s'' => simp [hd,hr] at h
      | ok ds s'' =>
        have hc : d :: ds = datas ∧ s'' = t := by simpa [hd,hr] using h
        simp [← hc.1,ih hr]

/-- CHECKMULTISIG from the signature count on, whether that frame is there or `S` holds. -/
theorem signatures_steps {b : ℕ} (keys : List ScriptData) (n : ℕ) (hn : keys.length = n)
    (hcount : Steps S b (takeCount env n .sigCount) 0) :
    Steps S b (do
      let sigsCount ← takeCount env n .sigCount
      countOps sigsCount
      ensureStackHasEnoughFrames sigsCount
      let sigs ← takeDatas sigsCount
      let s ← get
      let scriptCode ← dropSignatures env sigs s._separatorPosition
      let fSuccess ← checkSignatures env scriptCode sigs keys
      popDummy env
      pushBool fSuccess) 1 := by
  refine Steps.bind_value hcount (fun _ _ _ => takeCount_le env) fun m hm => ?_
  refine Steps.bind (countOps_steps m) fun _ => Steps.bind (ensure_steps m) fun _ => ?_
  have htake : Steps S m (takeDatas m) 0 := by simpa using takeDatas_steps (a := 0) m
  refine Steps.bind_value htake (fun _ _ _ => takeDatas_length) fun sigs hs => ?_
  refine Steps.bind Steps.get fun _ => Steps.bind (dropSignatures_steps env sigs _) fun code => ?_
  refine Steps.bind (checkSignatures_steps env code sigs keys (by omega)) fun ok => ?_
  exact Steps.bind (popDummy_sound env) fun _ => push_steps _

/-- CHECKMULTISIG leaves a result, and faults only for want of a signature count. -/
theorem opCheckMultiSig_triple (s : Interpreter) :
    Triple (· = s) (opCheckMultiSig env)
      (fun _ => At s._curScriptPosition s._conditionalExecutionFlags 1)
      (fun e _ => NoFault e ∨ NoSignatureCount env s) := by
  refine Triple.bind (ensure_triple 0 s _) fun _ => Triple.bind (takeCount_triple env _ _ s) fun n t ht => ?_
  by_cases hS : NoSignatureCount env s
  · refine Steps.bind (countOps_steps n) (fun _ => Steps.bind (ensure_steps n) fun _ => ?_) _ _ t ht.1
    have htake : Steps (NoSignatureCount env s) n (takeDatas n) 0 := by
      simpa using takeDatas_steps (a := 0) n
    refine Steps.bind_value htake (fun _ _ _ => takeDatas_length) fun keys hk => ?_
    exact signatures_steps env keys n hk (Steps.bind
      (Steps.bind (take_slip hS) fun _ => liftScript_steps _) fun _ => Steps.guard (Steps.pure _))
  · have hl : t._stack.length ≠ n := fun h => hS (ht.2 h)
    have henough : Triple (fun t' => At s._curScriptPosition s._conditionalExecutionFlags 0 t' ∧
        t'._stack.length ≠ n) (ensureStackHasEnoughFrames n)
        (fun _ => At s._curScriptPosition s._conditionalExecutionFlags (1+n))
        (fun e _ => NoFault e ∨ NoSignatureCount env s) := by
      intro t' ht'
      by_cases h : t'._stack.length < n
      · rw [ensure_starved h]
        exact .inl (noFault_script _)
      · rw [ensure_enough (by omega)]
        exact ⟨ht'.1.cur,ht'.1.flags,by have := ht'.2; omega⟩
    have hcount : Triple (· = t) (countOps n) (fun _ t' =>
        At s._curScriptPosition s._conditionalExecutionFlags 0 t' ∧ t'._stack.length ≠ n)
        (fun e _ => NoFault e ∨ NoSignatureCount env s) := by
      rintro t' rfl
      rw [countOps_run]
      by_cases h : t'._opCount + n > Script.MAX_OPS_PER_SCRIPT
      · rw [if_pos h]
        exact .inl (noFault_script _)
      · rw [if_neg h]
        exact ⟨⟨ht.1.cur,ht.1.flags,Nat.zero_le _⟩,hl⟩
    refine Triple.bind hcount (fun _ => Triple.bind henough fun _ => ?_) t rfl
    refine Steps.bind_value (takeDatas_steps n) (fun _ _ _ => takeDatas_length) (fun keys hk => ?_) _ _
    exact signatures_steps env keys n hk (takeCount_steps env n _)

theorem opCheckMultiSig_safe : Safe (NoSignatureCount env) (opCheckMultiSig env) := fun s =>
  Triple.consequence (opCheckMultiSig_triple env s) (fun _ h => h)
    (fun _ _ h => ⟨h.cur,h.flags,Nat.zero_le _⟩) fun _ _ h => h

theorem opCheckMultiSigVerify_safe : Safe (NoSignatureCount env) (opCheckMultiSigVerify env) := fun s =>
  Triple.bind (opCheckMultiSig_triple env s) fun _ => verifyTop_steps _ _ _

end Slips
end Interpreter
end Tkeycoin
