import Tkeycoin.Runs

/-! Operands: how many frames an instruction needs, and how a call ends when they
are not all there. -/
namespace Tkeycoin

open ActionLogic

namespace Interpreter

/-- Frames an opcode needs whatever they hold. -/
def fixedOperands (opCode : OpCode) : ℕ :=
  if opCode ∈ [OpCode.opIf,OpCode.opNotIf,OpCode.opVerify,OpCode.opToAltStack,OpCode.opIfDup,
    OpCode.opDrop,OpCode.opDup,OpCode.opSize,OpCode.op1Add,OpCode.op1Sub,OpCode.opNegate,
    OpCode.opAbs,OpCode.opNot,OpCode.op0NotEqual,OpCode.opRipemd160,OpCode.opSha1,
    OpCode.opSha256,OpCode.opHash160,OpCode.opHash256] then 1
  else if opCode ∈ [OpCode.op2Drop,OpCode.op2Dup,OpCode.opNip,OpCode.opOver,OpCode.opSwap,
    OpCode.opTuck,OpCode.opEqual,OpCode.opEqualVerify,OpCode.opAdd,OpCode.opSub,OpCode.opBoolAnd,
    OpCode.opBoolOr,OpCode.opNumEqual,OpCode.opNumEqualVerify,OpCode.opNumNotEqual,
    OpCode.opLessThan,OpCode.opGreaterThan,OpCode.opLessThanOrEqual,
    OpCode.opGreaterThanOrEqual,OpCode.opMin,OpCode.opMax,OpCode.opCheckSig,
    OpCode.opCheckSigVerify] then 2
  else if opCode ∈ [OpCode.op3Dup,OpCode.opRot,OpCode.opWithin] then 3
  else if opCode ∈ [OpCode.op2Over,OpCode.op2Swap] then 4
  else if opCode = OpCode.op2Rot then 6
  else 0

section Operands

variable (env : Env)

/-- PICK and ROLL need the operand and, when it counts at all, the frames down to
the one it points to. -/
def indexOperands : Stack → ℕ
  | [] => 2
  | frame :: _ =>
    match frame.asNumber (env.isSet .minimalData) with
    | .ok x => if x.getint < 0 then 2 else x.getint.toInt.toNat + 2
    | .error _ => 2

/-- The count a frame stands for, if it is within its bound. -/
def countOf (bound : ℕ) (frame : StackFrame) : Option ℕ :=
  match frame.asNumber (env.isSet .minimalData) with
  | .ok x => if x.getint < 0 ∨ x.getint.toInt > bound then none else some x.getint.toInt.toNat
  | .error _ => none

/-- CHECKMULTISIG needs two counts, the keys, the signatures and a dummy; a count
out of bounds ends it there. -/
def multiSigOperands : Stack → ℕ
  | [] => 3
  | keysFrame :: rest =>
    match countOf env Script.MAX_PUBKEYS_PER_MULTISIG keysFrame with
    | none => 1
    | some k =>
      match rest.drop k with
      | [] => k + 3
      | sigsFrame :: _ =>
        match countOf env k sigsFrame with
        | none => k + 2
        | some m => k + m + 3

def multiSig (opCode : OpCode) : Prop :=
  opCode = OpCode.opCheckMultiSig ∨ opCode = OpCode.opCheckMultiSigVerify

instance (opCode : OpCode) : Decidable (multiSig opCode) :=
  inferInstanceAs (Decidable (opCode = _ ∨ opCode = _))

/-- Frames an executed instruction needs on the stack. -/
def operands (opCode : OpCode) (s : Interpreter) : ℕ :=
  if opCode = OpCode.opPick ∨ opCode = OpCode.opRoll then indexOperands env s._stack
  else if multiSig opCode then multiSigOperands env s._stack
  else if opCode = OpCode.opCheckLockTimeVerify then if env.isSet .checkLockTimeVerify then 1 else 0
  else if opCode = OpCode.opCheckSequenceVerify then if env.isSet .checkSequenceVerify then 1 else 0
  else fixedOperands opCode

/-- What CHECKMULTISIG does between taking its operands and removing the dummy. -/
def signatureChecks (scriptCode : Bytes) (sigs keys : List ScriptData) : Action Bool := do
  let scriptCode ← dropSignatures env sigs scriptCode
  checkSignatures env scriptCode sigs keys

/-- Of the operands of CHECKMULTISIG only the dummy is missing, and the checks of
the signatures, which come first, stop. -/
def ChecksFail (s : Interpreter) (stop : Stop) : Prop :=
  ∃ keysFrame keys sigsFrame sigs, s._stack = keysFrame :: (keys ++ sigsFrame :: sigs) ∧
    ∃ u v, (signatureChecks env s._separatorPosition (sigs.map StackFrame.asData)
      (keys.map StackFrame.asData)).run u = .error stop v

/-- How an instruction short of operands stops. -/
def Refuses (opCode : OpCode) (s : Interpreter) (stop : Stop) : Prop :=
  if opCode = OpCode.opIf ∨ opCode = OpCode.opNotIf then stop = .script .unbalancedConditional
  else stop = .script .invalidStackOperation ∨
    (multiSig opCode ∧ (stop = .script .opCount ∨ ChecksFail env s stop))

end Operands

/-- With fewer than `k` frames the action fails for want of them. -/
def Short {α : Type} (k : ℕ) (x : Action α) : Prop :=
  ∀ s, s._stack.length < k → ∃ t, x.run s = .error (.script .invalidStackOperation) t

namespace Short

variable {α β : Type} {k : ℕ}

theorem zero (x : Action α) : Short 0 x := fun _ h => absurd h (Nat.not_lt_zero _)

theorem bind {x : Action α} (h : Short k x) (f : α → Action β) : Short k (x >>= f) := by
  intro s hs
  obtain ⟨t,ht⟩ := h s hs
  exact ⟨t,by rw [EStateM.run_bind,ht]⟩

theorem ensure (k : ℕ) : Short k (ensureStackHasEnoughFrames k) := fun s hs => ⟨s,ensure_starved hs⟩

theorem rearranges {order : List ℕ} {x : Action Unit} (h : Rearranges k order x) : Short k x :=
  fun s hs => ⟨s,by rw [h s,if_pos hs]⟩

end Short

section Handlers

variable (env : Env)

theorem binaryNum_short (f : ScriptNum → ScriptNum → ScriptNum) : Short 2 (binaryNum env f) :=
  (Short.ensure 2).bind _

theorem opEqual_short : Short 2 opEqual := (Short.ensure 2).bind _

theorem opCheckSig_short : Short 2 (opCheckSig env) := (Short.ensure 2).bind _

theorem opCheckLockTimeVerify_short :
    Short (if env.isSet .checkLockTimeVerify then 1 else 0) (opCheckLockTimeVerify env) := by
  unfold opCheckLockTimeVerify
  cases env.isSet .checkLockTimeVerify
  · exact Short.zero _
  · exact (Short.ensure 1).bind _

theorem opCheckSequenceVerify_short :
    Short (if env.isSet .checkSequenceVerify then 1 else 0) (opCheckSequenceVerify env) := by
  unfold opCheckSequenceVerify
  cases env.isSet .checkSequenceVerify
  · exact Short.zero _
  · exact (Short.ensure 1).bind _

/-- An index that points below the last frame is too large for the check behind it. -/
theorem index_short {β : Type} (f : Int32 → Action β) {s : Interpreter}
    (h : s._stack.length < indexOperands env s._stack) :
    ∃ t, (do
      ensureStackHasEnoughFrames 2
      let n ← takeIndex env
      ensureStackHasEnoughFrames (toSizeT n)
      f n).run s = .error (.script .invalidStackOperation) t := by
  by_cases h2 : s._stack.length < 2
  · exact (Short.ensure 2).bind _ s h2
  obtain ⟨n,_ | ⟨frame,rest⟩,alt,fl,cur,sep⟩ := s
  · simp at h2
  have h2 : 2 ≤ (frame :: rest).length := Nat.not_lt.mp h2
  rw [EStateM.run_bind,ensure_enough h2]
  simp only [EStateM.run_bind,takeIndex_run_cons]
  cases hx : frame.asNumber (env.isSet .minimalData) with
  | error e =>
    simp only [indexOperands,hx] at h
    omega
  | ok x =>
    simp only [indexOperands,hx] at h
    by_cases hneg : x.getint < 0
    · rw [if_pos hneg] at h
      omega
    · rw [if_neg hneg] at h
      have h₀ : 0 ≤ x.getint.toInt := by simpa [Int32.lt_iff_toInt_lt] using hneg
      have h₁ := x.getint.toInt_lt
      have hlt : rest.length < toSizeT (1 + x.getint) := by
        rw [toSizeT,Int32.toInt_add]
        simp only [Int32.toInt_one,Int.bmod_def,List.length_cons] at *
        omega
      have hs : (ensureStackHasEnoughFrames (toSizeT (1 + x.getint))).run ⟨n,rest,alt,fl,cur,sep⟩ =
          .error (.script .invalidStackOperation) ⟨n,rest,alt,fl,cur,sep⟩ := ensure_starved hlt
      simp only [hs]
      exact ⟨_,rfl⟩

theorem takeCount_of_countOf {bound k : ℕ} (code : ScriptError) {frame : StackFrame}
    (h : countOf env bound frame = some k) (n : ℕ) (rest alt : Stack) (fl : List Bool) (cur sep : Bytes) :
    (takeCount env bound code).run ⟨n,frame :: rest,alt,fl,cur,sep⟩ = .ok k ⟨n,rest,alt,fl,cur,sep⟩ := by
  rw [takeCount_run_cons]
  unfold countOf at h
  cases hx : frame.asNumber (env.isSet .minimalData) with
  | error e => simp [hx] at h
  | ok x =>
    simp only [hx] at h ⊢
    split_ifs at h ⊢ with hb
    cases h
    rfl

theorem countOf_eq_some {bound k : ℕ} {frame : StackFrame} (h : countOf env bound frame = some k) :
    ∃ x, frame.asNumber (env.isSet .minimalData) = .ok x ∧ x.getint.toInt = k := by
  unfold countOf at h
  cases hx : frame.asNumber (env.isSet .minimalData) with
  | error e => simp [hx] at h
  | ok x =>
    simp only [hx] at h
    split_ifs at h with hb
    have hneg : ¬ x.getint < 0 := fun hc => hb (.inl hc)
    have h₀ : 0 ≤ x.getint.toInt := by simpa [Int32.lt_iff_toInt_lt] using hneg
    refine ⟨x,rfl,?_⟩
    simp only [Option.some.injEq] at h
    omega

theorem takeDatas_run (frames rest alt : Stack) (n : ℕ) (fl : List Bool) (cur sep : Bytes) :
    (takeDatas frames.length).run ⟨n,frames ++ rest,alt,fl,cur,sep⟩ =
      .ok (frames.map StackFrame.asData) ⟨n,rest,alt,fl,cur,sep⟩ := by
  induction frames with
  | nil => rfl
  | cons frame frames ih =>
    simp only [List.length_cons,takeDatas,takeData,EStateM.run_bind,List.cons_append,take_run_cons,
      EStateM.run_pure,ih,List.map_cons]

/-- Counting `k` operations ends over the limit or goes on. -/
theorem countOps_bind {β : Type} (k : ℕ) (x : Action β) (s : Interpreter) :
    ((do countOps k; x).run s = .error (.script .opCount) { s with _opCount := s._opCount + k }) ∨
      (do countOps k; x).run s = x.run { s with _opCount := s._opCount + k } := by
  rw [EStateM.run_bind,countOps_run]
  by_cases h : s._opCount + k > Script.MAX_OPS_PER_SCRIPT
  · exact .inl (by rw [if_pos h])
  · exact .inr (by rw [if_neg h])

/-- The action leaves the state alone. -/
def Quiet {α : Type} (x : Action α) : Prop :=
  ∀ s, (∃ r, x.run s = .ok r s) ∨ ∃ stop, x.run s = .error stop s

namespace Quiet

variable {α β : Type}

theorem pure (r : α) : Quiet (Pure.pure r : Action α) := fun _ => .inl ⟨r,rfl⟩

theorem throw (stop : Stop) : Quiet (MonadExcept.throw stop : Action α) := fun _ => .inr ⟨stop,rfl⟩

theorem bind {x : Action α} {f : α → Action β} (hx : Quiet x) (hf : ∀ r, Quiet (f r)) :
    Quiet (x >>= f) := by
  intro s
  rw [EStateM.run_bind]
  rcases hx s with ⟨r,hr⟩ | ⟨stop,hr⟩
  · simpa only [hr] using hf r s
  · exact .inr ⟨stop,by rw [hr]⟩

theorem lift (x : Except Stop α) : Quiet (Interpreter.lift x) := by
  cases x with
  | ok r => exact pure r
  | error stop => exact throw stop

theorem ite {p : Prop} [Decidable p] {x y : Action α} (hx : Quiet x) (hy : Quiet y) :
    Quiet (if p then x else y) := by
  split_ifs
  · exact hx
  · exact hy

end Quiet

theorem dropSignatures_quiet (sigs : List ScriptData) (scriptCode : Bytes) :
    Quiet (dropSignatures env sigs scriptCode) := by
  induction sigs generalizing scriptCode with
  | nil => exact Quiet.pure _
  | cons sig sigs ih =>
    exact Quiet.bind (Quiet.ite (Quiet.ite (Quiet.throw _) (Quiet.pure _)) (Quiet.pure _)) fun _ => ih _

theorem checkSignature_quiet (sig pubKey : ScriptData) (scriptCode : Bytes) :
    Quiet (checkSignature env sig pubKey scriptCode) :=
  Quiet.bind (Quiet.lift _) fun _ => Quiet.bind (Quiet.lift _) fun _ => Quiet.lift _

theorem checkSignatures_quiet (scriptCode : Bytes) (sigs keys : List ScriptData) :
    Quiet (checkSignatures env scriptCode sigs keys) := by
  induction keys generalizing sigs with
  | nil =>
    cases sigs with
    | nil => exact Quiet.pure _
    | cons sig sigs => exact Quiet.throw _
  | cons key keys ih =>
    cases sigs with
    | nil => exact Quiet.pure _
    | cons sig sigs =>
      exact Quiet.bind (checkSignature_quiet env sig key scriptCode) fun ok =>
        Quiet.ite (Quiet.pure _) (ih _)

theorem signatureChecks_quiet (scriptCode : Bytes) (sigs keys : List ScriptData) :
    Quiet (signatureChecks env scriptCode sigs keys) :=
  Quiet.bind (dropSignatures_quiet env sigs scriptCode) fun _ => checkSignatures_quiet env _ sigs keys

/-- CHECKMULTISIG behind the keys, with too few frames for the signatures and the dummy. -/
theorem signatures_short (keys : List ScriptData) {sigsFrame : StackFrame} {rest : Stack} {k m : ℕ}
    (hcount : countOf env k sigsFrame = some m) (h : rest.length < m + 1) (n : ℕ) (alt : Stack)
    (fl : List Bool) (cur sep : Bytes) :
    ∃ stop t, (do
      let sigsCount ← takeCount env k .sigCount
      countOps sigsCount
      ensureStackHasEnoughFrames sigsCount
      let sigs ← takeDatas sigsCount
      let s ← get
      let scriptCode ← dropSignatures env sigs s._separatorPosition
      let fSuccess ← checkSignatures env scriptCode sigs keys
      popDummy env
      pushBool fSuccess).run ⟨n,sigsFrame :: rest,alt,fl,cur,sep⟩ = .error stop t ∧
      (stop = .script .invalidStackOperation ∨ stop = .script .opCount ∨
        ∃ u v, (signatureChecks env sep (rest.map StackFrame.asData) keys).run u = .error stop v) := by
  rw [run_bind_ok (takeCount_of_countOf env _ hcount _ _ _ _ _ _)]
  rcases countOps_bind m _ ⟨n,rest,alt,fl,cur,sep⟩ with hc | hc <;> rw [hc]
  · exact ⟨_,_,rfl,.inr (.inl rfl)⟩
  by_cases hm : rest.length < m
  · obtain ⟨t,ht⟩ := (Short.ensure m).bind _ ⟨n + m,rest,alt,fl,cur,sep⟩ hm
    exact ⟨_,t,ht,.inl rfl⟩
  obtain rfl : rest.length = m := by omega
  have henough : (ensureStackHasEnoughFrames rest.length).run ⟨n + rest.length,rest,alt,fl,cur,sep⟩ =
      .ok () ⟨n + rest.length,rest,alt,fl,cur,sep⟩ := ensure_enough le_rfl
  have htake := takeDatas_run rest [] alt (n + rest.length) fl cur sep
  rw [List.append_nil] at htake
  -- the dummy is looked for in what is left, which the checks have not changed
  have hdummy : ∃ t, (popDummy env).run ⟨n + rest.length,[],alt,fl,cur,sep⟩ =
      .error (.script .invalidStackOperation) t := (Short.ensure 1).bind _ _ Nat.one_pos
  have hassoc : (do
      let scriptCode ← dropSignatures env (rest.map StackFrame.asData) sep
      let fSuccess ← checkSignatures env scriptCode (rest.map StackFrame.asData) keys
      popDummy env
      pushBool fSuccess) = (do
      let fSuccess ← signatureChecks env sep (rest.map StackFrame.asData) keys
      popDummy env
      pushBool fSuccess) := by
    simp only [signatureChecks,bind_assoc]
  obtain ⟨t,ht⟩ := hdummy
  rw [run_bind_ok henough,run_bind_ok htake,run_bind_ok (EStateM.run_get _),hassoc,EStateM.run_bind]
  rcases signatureChecks_quiet env sep (rest.map StackFrame.asData) keys
    ⟨n + rest.length,[],alt,fl,cur,sep⟩ with ⟨r,hr⟩ | ⟨stop,hr⟩ <;> rw [hr]
  · exact ⟨_,t,by simp only [EStateM.run_bind,ht],.inl rfl⟩
  · exact ⟨stop,_,rfl,.inr (.inr ⟨_,_,hr⟩)⟩

/-- CHECKMULTISIG without all its operands. -/
theorem opCheckMultiSig_short {s : Interpreter} (hslip : ¬ NoSignatureCount env s)
    (h : s._stack.length < multiSigOperands env s._stack) :
    ∃ stop t, (opCheckMultiSig env).run s = .error stop t ∧
      (stop = .script .invalidStackOperation ∨ stop = .script .opCount ∨ ChecksFail env s stop) := by
  obtain ⟨n,_ | ⟨keysFrame,rest⟩,alt,fl,cur,sep⟩ := s
  · obtain ⟨t,ht⟩ := (Short.ensure 1).bind _ ⟨n,[],alt,fl,cur,sep⟩ Nat.one_pos
    exact ⟨_,t,ht,.inl rfl⟩
  have hone : (ensureStackHasEnoughFrames 1).run ⟨n,keysFrame :: rest,alt,fl,cur,sep⟩ =
      .ok () ⟨n,keysFrame :: rest,alt,fl,cur,sep⟩ := ensure_enough (by simp)
  rw [opCheckMultiSig,run_bind_ok hone]
  cases hk : countOf env Script.MAX_PUBKEYS_PER_MULTISIG keysFrame with
  | none => simp [multiSigOperands,hk] at h
  | some k =>
    simp only [multiSigOperands,hk] at h
    rw [run_bind_ok (takeCount_of_countOf env _ hk _ _ _ _ _ _)]
    rcases countOps_bind k _ ⟨n,rest,alt,fl,cur,sep⟩ with hc | hc <;> rw [hc]
    · exact ⟨_,_,rfl,.inr (.inl rfl)⟩
    by_cases hshort : rest.length < k
    · obtain ⟨t,ht⟩ := (Short.ensure k).bind _ ⟨n + k,rest,alt,fl,cur,sep⟩ hshort
      exact ⟨_,t,ht,.inl rfl⟩
    obtain ⟨keys,below,rfl,rfl⟩ : ∃ keys below, rest = keys ++ below ∧ keys.length = k :=
      ⟨rest.take k,rest.drop k,(List.take_append_drop k rest).symm,by simp; omega⟩
    rw [List.drop_left] at h
    cases below with
    | nil =>
      obtain ⟨x,hx,hint⟩ := countOf_eq_some env hk
      exact absurd ⟨keysFrame,keys ++ [],x,rfl,hx,by simpa using hint⟩ hslip
    | cons sigsFrame sigs =>
      have henough : (ensureStackHasEnoughFrames keys.length).run
          ⟨n + keys.length,keys ++ sigsFrame :: sigs,alt,fl,cur,sep⟩ =
          .ok () ⟨n + keys.length,keys ++ sigsFrame :: sigs,alt,fl,cur,sep⟩ := ensure_enough (by simp)
      cases hm : countOf env keys.length sigsFrame with
      | none => simp [hm] at h
      | some m =>
        have hsigs : sigs.length < m + 1 := by
          simp only [hm,List.length_cons,List.length_append] at h
          omega
        obtain ⟨stop,t,ht,hstop⟩ := signatures_short env (keys.map StackFrame.asData) hm hsigs
          (n + keys.length) alt fl cur sep
        rw [run_bind_ok henough,run_bind_ok (takeDatas_run keys _ _ _ _ _ _)]
        exact ⟨stop,t,ht,hstop.imp id (Or.imp id fun hcheck => ⟨keysFrame,keys,sigsFrame,sigs,rfl,hcheck⟩)⟩

theorem opPick_short {s : Interpreter} (h : s._stack.length < indexOperands env s._stack) :
    ∃ t, (opPick env).run s = .error (.script .invalidStackOperation) t := index_short env _ h

theorem opRoll_short {s : Interpreter} (h : s._stack.length < indexOperands env s._stack) :
    ∃ t, (opRoll env).run s = .error (.script .invalidStackOperation) t := index_short env _ h

theorem opCheckMultiSigVerify_short {s : Interpreter} (hslip : ¬ NoSignatureCount env s)
    (h : s._stack.length < multiSigOperands env s._stack) :
    ∃ stop t, (opCheckMultiSigVerify env).run s = .error stop t ∧
      (stop = .script .invalidStackOperation ∨ stop = .script .opCount ∨ ChecksFail env s stop) := by
  obtain ⟨stop,t,ht,hstop⟩ := opCheckMultiSig_short env hslip h
  exact ⟨stop,t,run_bind_error ht,hstop⟩

/-- The action refuses every state that is short of operands for the opcode. -/
def Refusing (opCode : OpCode) (x : Action Unit) : Prop :=
  ∀ s, ¬ Slip env opCode s → s._stack.length < operands env opCode s →
    ∃ stop t, x.run s = .error stop t ∧ (stop = .script .invalidStackOperation ∨
      (multiSig opCode ∧ (stop = .script .opCount ∨ ChecksFail env s stop)))

theorem Refusing.of_short {opCode : OpCode} {k : ℕ} {x : Action Unit} (h : Short k x)
    (hk : ∀ s, operands env opCode s = k) : Refusing env opCode x := by
  intro s _ hs
  obtain ⟨t,ht⟩ := h s (hk s ▸ hs)
  exact ⟨_,t,ht,.inl rfl⟩

theorem cases_refusing (opCode : OpCode) (d : ScriptData) :
    ∀ c ∈ cases env opCode d, opCode ∈ c.1 → Refusing env opCode c.2 := by
  simp only [cases,List.forall_mem_cons,List.not_mem_nil,IsEmpty.forall_iff,implies_true,and_true]
  simp only [List.mem_cons,List.not_mem_nil,or_false]
  have short {k x c} (hx : Short k x) (hc : ∀ s, operands env c s = k) (h : opCode = c) :
      Refusing env opCode x := h ▸ Refusing.of_short env hx hc
  have none {x : Action Unit} (h : ∀ s, operands env opCode s = 0) : Refusing env opCode x :=
    Refusing.of_short env (Short.zero x) h
  have first {k c} {f : Unit → Action Unit} (hc : ∀ s, operands env c s = k) (h : opCode = c) :
      Refusing env opCode (ensureStackHasEnoughFrames k >>= f) := short ((Short.ensure k).bind f) hc h
  have order {k o x c} (hx : Rearranges k o x) (hc : ∀ s, operands env c s = k) (h : opCode = c) :
      Refusing env opCode x := short (Short.rearranges hx) hc h
  refine ⟨short (Short.zero _) fun _ => rfl,short (Short.zero _) fun _ => rfl,
    short (Short.zero _) fun _ => rfl,
    fun h => none fun s => by
      rcases h with rfl | rfl | rfl | rfl | rfl | rfl | rfl | rfl | rfl | rfl | rfl | rfl | rfl | rfl |
        rfl | rfl | rfl <;> rfl,
    short (Short.zero _) fun _ => rfl,short (opCheckLockTimeVerify_short env) fun _ => rfl,
    short (opCheckSequenceVerify_short env) fun _ => rfl,
    fun h => none fun s => by rcases h with rfl | rfl | rfl | rfl | rfl | rfl | rfl | rfl <;> rfl,
    first fun _ => rfl,short (Short.zero _) fun _ => rfl,first fun _ => rfl,
    short (Short.zero _) fun _ => rfl,order op2Drop_rearranges fun _ => rfl,
    order op2Dup_rearranges fun _ => rfl,order op3Dup_rearranges fun _ => rfl,
    order op2Over_rearranges fun _ => rfl,order op2Rot_rearranges fun _ => rfl,
    order op2Swap_rearranges fun _ => rfl,first fun _ => rfl,short (Short.zero _) fun _ => rfl,
    order opDrop_rearranges fun _ => rfl,order opDup_rearranges fun _ => rfl,
    order opNip_rearranges fun _ => rfl,order opOver_rearranges fun _ => rfl,
    fun h s _ hs => ?_,fun h s _ hs => ?_,
    order opRot_rearranges fun _ => rfl,order opSwap_rearranges fun _ => rfl,
    order opTuck_rearranges fun _ => rfl,first fun _ => rfl,first fun _ => rfl,
    short (opEqual_short.bind _) fun _ => rfl,first fun _ => rfl,first fun _ => rfl,first fun _ => rfl,
    first fun _ => rfl,first fun _ => rfl,first fun _ => rfl,first fun _ => rfl,first fun _ => rfl,
    first fun _ => rfl,first fun _ => rfl,first fun _ => rfl,
    short ((binaryNum_short env _).bind _) fun _ => rfl,first fun _ => rfl,first fun _ => rfl,
    first fun _ => rfl,first fun _ => rfl,first fun _ => rfl,first fun _ => rfl,first fun _ => rfl,
    first fun _ => rfl,first fun _ => rfl,first fun _ => rfl,first fun _ => rfl,first fun _ => rfl,
    first fun _ => rfl,short (Short.zero _) fun _ => rfl,first fun _ => rfl,
    short ((opCheckSig_short env).bind _) fun _ => rfl,fun h s hslip hs => ?_,fun h s hslip hs => ?_⟩
  · obtain ⟨t,ht⟩ := opPick_short env (by subst h; exact hs)
    exact ⟨_,t,ht,.inl rfl⟩
  · obtain ⟨t,ht⟩ := opRoll_short env (by subst h; exact hs)
    exact ⟨_,t,ht,.inl rfl⟩
  · obtain ⟨stop,t,ht,hstop⟩ := opCheckMultiSig_short env (fun hc => hslip (.inr ⟨.inl h,hc⟩))
      (by subst h; exact hs)
    exact ⟨stop,t,ht,hstop.imp id fun hc => ⟨.inl h,hc⟩⟩
  · obtain ⟨stop,t,ht,hstop⟩ := opCheckMultiSigVerify_short env (fun hc => hslip (.inr ⟨.inr h,hc⟩))
      (by subst h; exact hs)
    exact ⟨stop,t,ht,hstop.imp id fun hc => ⟨.inr h,hc⟩⟩

/-- An opcode outside the switch needs no operand. -/
theorem operands_of_unlisted {opCode : OpCode} {d : ScriptData} (s : Interpreter)
    (h : ∀ c ∈ cases env opCode d, opCode ∉ c.1) (hif : opCode ≠ OpCode.opIf)
    (hnotIf : opCode ≠ OpCode.opNotIf) : operands env opCode s = 0 := by
  simp only [cases,List.forall_mem_cons] at h
  simp only [List.mem_cons,not_or] at h
  simp [operands,fixedOperands,multiSig,h,hif,hnotIf]

/-- Direct pushes and conditionals but `OP_IF` and `OP_NOTIF` need no operand. -/
theorem operands_of_undispatched {opCode : OpCode} (s : Interpreter)
    (h : opCode < OpCode.opPushData1 ∨ (OpCode.opIf ≤ opCode ∧ opCode ≤ OpCode.opEndIf ∧
      opCode ≠ OpCode.opIf ∧ opCode ≠ OpCode.opNotIf)) : operands env opCode s = 0 := by
  have hplain : ∀ c : OpCode, (c < OpCode.opPushData1 ∨ (OpCode.opIf ≤ c ∧ c ≤ OpCode.opEndIf ∧
      c ≠ OpCode.opIf ∧ c ≠ OpCode.opNotIf)) → ¬ (c = OpCode.opPick ∨ c = OpCode.opRoll) ∧
      ¬ multiSig c ∧ c ≠ OpCode.opCheckLockTimeVerify ∧ c ≠ OpCode.opCheckSequenceVerify ∧
      fixedOperands c = 0 := ScriptNum.forall_byte (by decide)
  obtain ⟨hindex,hmulti,hlock,hseq,hfixed⟩ := hplain opCode h
  rw [operands,if_neg hindex,if_neg hmulti,if_neg hlock,if_neg hseq,hfixed]

theorem dispatch_refusing (opCode : OpCode) (d : ScriptData) (hif : opCode ≠ OpCode.opIf)
    (hnotIf : opCode ≠ OpCode.opNotIf) : Refusing env opCode (dispatch env opCode d) :=
  dispatch_induction env (cases_refusing env opCode d) fun hbad =>
    Refusing.of_short env (Short.zero _) fun s => operands_of_unlisted env s hbad hif hnotIf

theorem opIf_starved (opCode : OpCode) {s : Interpreter} (hm : mustExecuted s = true)
    (h : s._stack.length < 1) :
    (opIf env opCode).run s = .error (.script .unbalancedConditional) s := by
  have hs : s._stack = [] := List.length_eq_zero_iff.mp (by omega)
  simp [opIf,EStateM.run_bind,hm,hs]

/-- An executed instruction that is short of operands stops the round. -/
theorem step_refuses {s t : Interpreter} {i : OpCode × ScriptData} (hf : fetch.run s = .ok i t)
    (hm : mustExecuted t = true) (hslip : ¬ Slip env i.1 t) (h : t._stack.length < operands env i.1 t) :
    ∃ stop u, (step env).run s = .error stop u ∧ Refuses env i.1 t stop := by
  have hstep : (step env).run s = (carryOut env i.1 i.2).run t := run_bind_ok hf
  rw [hstep,carryOut_run]
  by_cases hcond : OpCode.opIf ≤ i.1 ∧ i.1 ≤ OpCode.opEndIf
  · rw [if_pos hcond]
    by_cases hif : i.1 = OpCode.opIf ∨ i.1 = OpCode.opNotIf
    · have hone : operands env i.1 t = 1 := by rcases hif with hi | hi <;> rw [hi] <;> rfl
      have hrun := opIf_starved env i.1 hm (hone ▸ h)
      have hcarry : (conditional env i.1).run t = .error (.script .unbalancedConditional) t := by
        rw [conditional,if_pos hif]
        exact hrun
      exact ⟨_,t,run_bind_error hcarry,by rw [Refuses,if_pos hif]⟩
    · have hzero := operands_of_undispatched env t (.inr ⟨hcond.1,hcond.2,not_or.mp hif⟩)
      omega
  · have hif : ¬ (i.1 = OpCode.opIf ∨ i.1 = OpCode.opNotIf) := by
      rintro (hi | hi) <;> exact hcond (by rw [hi]; decide)
    rw [if_neg hcond,if_pos hm]
    by_cases hpush : i.1 < OpCode.opPushData1
    · have hzero := operands_of_undispatched env t (.inl hpush)
      omega
    · obtain ⟨stop,u,hu,hstop⟩ := dispatch_refusing env i.1 i.2 (not_or.mp hif).1 (not_or.mp hif).2 t hslip h
      rw [if_neg hpush]
      refine ⟨stop,u,run_bind_error hu,?_⟩
      rw [Refuses,if_neg hif]
      exact hstop

theorem step_fromAltStack {s t : Interpreter} {d : ScriptData} (hf : fetch.run s = .ok (OpCode.opFromAltStack,d) t)
    (hm : mustExecuted t = true) (h : t._altStack = []) :
    (step env).run s = .error (.script .invalidAltStackOperation) t := by
  have hstep : (step env).run s = (carryOut env OpCode.opFromAltStack d).run t := run_bind_ok hf
  have hrun : opFromAltStack.run t = .error (.script .invalidAltStackOperation) t := by
    simp [opFromAltStack,EStateM.run_bind,h]
  rw [hstep,carryOut_run,if_neg (by decide),if_pos hm,if_neg (by decide)]
  exact run_bind_error hrun

end Handlers

section Safety

variable (env : Env) (script : Bytes) (s₀ : Interpreter)

end Safety
end Interpreter
end Tkeycoin
