import Tkeycoin.StackEffects
import Mathlib.Data.List.Forall2

/-! Two interpreters side by side: when their frames, flags and positions
correspond, so do the outcomes of every opcode. -/
namespace Tkeycoin

open ActionLogic Interpreter

/-- A stricter conversion fails more often, and otherwise gives the same number. -/
theorem ofData_match {lax : Prop} {b b' : Bool} (hw : b' = true → b = true)
    (hs : lax ∨ (b = true → b' = true)) (d : ScriptData) (size : ℕ) :
    ExceptMatch lax (ScriptNum.ofData d b size) (ScriptNum.ofData d b' size) := by
  unfold ScriptNum.ofData
  cases b <;> cases b' <;> split_ifs <;> simp_all [ExceptMatch]

/-- A correspondence of frames and positions under which the opcodes of two
environments cannot tell their states apart. With `lax` the left run may fail
where the right one goes on; the right flags are among the left ones. -/
structure Correspondence (env env' : Env) where
  lax : Prop
  frame : StackFrame → StackFrame → Prop
  position : Bytes × Bytes → Bytes × Bytes → Prop
  refl : ∀ f, frame f f
  asData : ∀ {f f'}, frame f f' → f.asData = f'.asData
  castToBool : ∀ {f f'}, frame f f' → f.castToBool = f'.castToBool
  asNumber : ∀ {f f'}, frame f f' → ExceptMatch lax (f.asNumber (env.isSet .minimalData))
    (f'.asNumber (env'.isSet .minimalData))
  minimalIf : env.isSet .minimalIf = true → ∀ {f f'}, frame f f' →
    (notMinimalIf f' = true → notMinimalIf f = true) ∧
      (lax ∨ (notMinimalIf f = true → notMinimalIf f' = true))
  toData : lax → ∀ {f f'}, frame f f' → frame (.data f.asData) f'
  separator : ∀ {p q}, position p q → position (p.1,p.1) (q.1,q.1)
  weaker : ∀ flag, env'.isSet flag = true → env.isSet flag = true
  strict : lax ∨ ∀ flag, env.isSet flag = true → env'.isSet flag = true
  checker : env.checker = env'.checker
  sigversion : env.sigversion = env'.sigversion
  crypto : env.crypto = env'.crypto

namespace Correspondence

variable {env env' : Env} (C : Correspondence env env')

structure Rel (s t : Interpreter) : Prop where
  opCount : s._opCount = t._opCount
  stack : List.Forall₂ C.frame s._stack t._stack
  altStack : List.Forall₂ C.frame s._altStack t._altStack
  flags : s._conditionalExecutionFlags = t._conditionalExecutionFlags
  position : C.position (s._curScriptPosition,s._separatorPosition)
    (t._curScriptPosition,t._separatorPosition)

/-- Actions that keep the correspondence and return values related by `V`. -/
abbrev Simulates {α β : Type} (V : α → β → Prop) (x : Action α) (y : Action β) : Prop :=
  Sim C.lax C.Rel V x y

/-- Actions of which only the effect matters. -/
abbrev Keeps (x y : Action Unit) : Prop := C.Simulates (fun _ _ => True) x y

/-- What the signature opcodes need, which read the script from the separator on. -/
def SameSeparator : Prop := ∀ p q, C.position p q → p.2 = q.2

theorem flag_strict (flag : ScriptVerifyFlags) :
    C.lax ∨ (env.isSet flag = true → env'.isSet flag = true) :=
  C.strict.imp id (fun h => h flag)

section Primitives

variable {C}

theorem ensure_sim (need : ℕ) :
    C.Keeps (ensureStackHasEnoughFrames need) (ensureStackHasEnoughFrames need) := by
  intro s t h
  have hl := h.stack.length_eq
  by_cases hn : s._stack.length < need
  · rw [ensure_starved hn,ensure_starved (hl ▸ hn)]
    exact Or.inr rfl
  · rw [ensure_enough (by omega),ensure_enough (by omega)]
    exact ⟨trivial,h⟩

theorem take_sim : C.Simulates C.frame take take := by
  rintro ⟨n,stack,alt,fl,cur,sep⟩ ⟨n',stack',alt',fl',cur',sep'⟩ ⟨hn,hst,halt,hfl,hpos⟩
  cases hst with
  | nil => exact Or.inr rfl
  | cons hf hr => exact ⟨hf,hn,hr,halt,hfl,hpos⟩

theorem top_sim : C.Simulates C.frame top top := by
  rintro ⟨n,stack,alt,fl,cur,sep⟩ ⟨n',stack',alt',fl',cur',sep'⟩ ⟨hn,hst,halt,hfl,hpos⟩
  cases hst with
  | nil => exact Or.inr rfl
  | cons hf hr => exact ⟨hf,hn,.cons hf hr,halt,hfl,hpos⟩

theorem push_sim {f f' : StackFrame} (hf : C.frame f f') : C.Keeps (push f) (push f') :=
  Sim.modify fun _ _ h => ⟨h.opCount,.cons hf h.stack,h.altStack,h.flags,h.position⟩

theorem pushNumber_sim (n : ScriptNum) : C.Keeps (pushNumber n) (pushNumber n) :=
  push_sim (C.refl _)

theorem pushBool_sim (b : Bool) : C.Keeps (pushBool b) (pushBool b) := pushNumber_sim _

theorem pop_sim : C.Keeps pop pop :=
  Sim.bind take_sim fun _ _ _ => Sim.pure trivial

theorem takeData_sim : C.Simulates Eq takeData takeData :=
  Sim.bind take_sim fun _ _ h => Sim.pure (C.asData h)

theorem pushAll_sim {fs fs' : List StackFrame} (h : List.Forall₂ C.frame fs fs') :
    C.Keeps (pushAll fs) (pushAll fs') := by
  induction h with
  | nil => exact Sim.pure trivial
  | cons hf _ ih => exact Sim.bind (push_sim hf) fun _ _ _ => ih

theorem topData_sim : C.Simulates Eq topData topData := by
  refine Sim.bind take_sim fun f f' h => ?_
  have hd := C.asData h
  refine Sim.bind (push_sim (hd ▸ C.refl _)) fun _ _ _ => Sim.pure hd

/-- Converting the top frame on the left alone. -/
theorem topData_left (hlax : C.lax) : C.Simulates (fun _ _ => True) topData (pure () : Action Unit) := by
  rintro ⟨n,stack,alt,fl,cur,sep⟩ t h
  rcases stack with _ | ⟨f,rest⟩
  · exact hlax
  · obtain ⟨hn,hst,halt,hfl,hpos⟩ := h
    obtain ⟨n',stack',alt',fl',cur',sep'⟩ := t
    cases hst with
    | cons hf hr => exact ⟨trivial,hn,.cons (C.toData hlax hf) hr,halt,hfl,hpos⟩

theorem lift_sim {α : Type} {x y : Except Stop α} (h : ExceptMatch C.lax x y) :
    C.Simulates Eq (lift x) (lift y) := by
  cases x with
  | ok a =>
    cases y with
    | ok b => exact Sim.pure h
    | error e => exact h.elim
  | error e =>
    cases y with
    | ok b => exact Sim.throw_left h e _
    | error e' =>
      rcases h with h | h
      · exact Sim.throw_left h e _
      · exact h ▸ Sim.throw e

theorem liftScript_sim {α : Type} {x y : Except ScriptError α} (h : ExceptMatch C.lax x y) :
    C.Simulates Eq (liftScript x) (liftScript y) :=
  lift_sim (h.mapError _)

theorem liftChecker_sim (x : Except CheckerStop Bool) :
    C.Simulates Eq (liftChecker x) (liftChecker x) :=
  lift_sim (ExceptMatch.refl _ _)

/-- A conversion on the left alone. -/
theorem lift_left {α : Type} (hlax : C.lax) (x : Except Stop α) :
    C.Simulates (fun _ _ => True) (lift x) (pure () : Action Unit) := by
  cases x with
  | ok a => exact Sim.pure trivial
  | error e => exact Sim.throw_left hlax e _

theorem ensure_left (hlax : C.lax) (need : ℕ) :
    C.Keeps (ensureStackHasEnoughFrames need) (pure ()) := by
  intro s t h
  by_cases hn : s._stack.length < need
  · rw [ensure_starved hn]
    exact hlax
  · rw [ensure_enough (by omega)]
    exact ⟨trivial,h⟩

theorem takeNumber_sim : C.Simulates Eq (takeNumber env) (takeNumber env') :=
  Sim.bind take_sim fun _ _ h => liftScript_sim (C.asNumber h)

theorem countOps_sim (k : ℕ) : C.Keeps (countOps k) (countOps k) := by
  refine Sim.bind Sim.get fun s t h => ?_
  refine Sim.bind (Sim.set ⟨by simp [h.opCount],h.stack,h.altStack,h.flags,h.position⟩) fun _ _ _ => ?_
  exact Sim.guard _ (by simp [h.opCount]) (Or.inr (by simp [h.opCount])) fun _ => Sim.pure trivial

theorem verifyTop_sim (code : ScriptError) : C.Keeps (verifyTop code) (verifyTop code) := by
  refine Sim.bind top_sim fun f f' h => ?_
  rw [C.castToBool h]
  exact Sim.guard _ id (Or.inr id) fun _ => pop_sim

/-- A test made under a flag. -/
theorem flagGuard_sim {α β : Type} {V : α → β → Prop} {x : Action α} {y : Action β}
    (flag : ScriptVerifyFlags) (P : Prop) [Decidable P] (code : ScriptError)
    (h : C.Simulates V x y) :
    C.Simulates V (if env.isSet flag = true ∧ P then throwScript code else x)
      (if env'.isSet flag = true ∧ P then throwScript code else y) :=
  Sim.guard _ (fun hc => ⟨C.weaker _ hc.1,hc.2⟩)
    ((C.flag_strict flag).imp id fun hf hc => ⟨hf hc.1,hc.2⟩) fun _ => h

end Primitives

section Handlers

variable {C}

theorem pushNumberOrData_sim (d : ScriptData) :
    C.Keeps (pushNumberOrData env d) (pushNumberOrData env' d) := by
  refine Sim.ite Iff.rfl (fun _ => ?_) (fun _ => push_sim (C.refl _))
  refine Sim.bind (liftScript_sim (ofData_match (C.weaker _) (C.flag_strict _) d _)) fun n n' h => ?_
  exact h ▸ pushNumber_sim n

theorem opPushData_sim (opCode : OpCode) (d : ScriptData) :
    C.Keeps (opPushData env opCode d) (opPushData env' opCode d) :=
  flagGuard_sim .minimalData _ _ (pushNumberOrData_sim d)

theorem opPushData1_sim (d : ScriptData) : C.Keeps (opPushData1 env d) (opPushData1 env' d) :=
  flagGuard_sim .minimalData _ _ (pushNumberOrData_sim d)

theorem opPushData2_sim (d : ScriptData) : C.Keeps (opPushData2 env d) (opPushData2 env' d) :=
  flagGuard_sim .minimalData _ _ (push_sim (C.refl _))

theorem opPushData4_sim (d : ScriptData) : C.Keeps (opPushData4 env d) (opPushData4 env' d) :=
  flagGuard_sim .minimalData _ _ (push_sim (C.refl _))

theorem opNoop_sim : C.Keeps (opNoop env) (opNoop env') :=
  Sim.guard _ (C.weaker _) (C.flag_strict _) fun _ => Sim.pure trivial

/-- The lock time opcodes: a check of the top frame that only one flag enables. -/
theorem flagged_sim (flag : ScriptVerifyFlags) (rest : Env → ScriptData → Action Unit)
    (hrest : ∀ d, C.Keeps (rest env d) (rest env' d))
    (hleft : C.lax → ∀ d, C.Keeps (rest env d) (pure ())) :
    C.Keeps (if !env.isSet flag then pure () else do
        ensureStackHasEnoughFrames 1
        let d ← topData
        rest env d)
      (if !env'.isSet flag then pure () else do
        ensureStackHasEnoughFrames 1
        let d ← topData
        rest env' d) := by
  cases h : env.isSet flag with
  | false =>
    have h' : env'.isSet flag = false := by
      cases h' : env'.isSet flag with
      | false => rfl
      | true => simp [C.weaker flag h'] at h
    rw [h']
    exact Sim.pure trivial
  | true =>
    cases h' : env'.isSet flag with
    | true =>
      refine Sim.bind (ensure_sim 1) fun _ _ _ => Sim.bind topData_sim fun d d' hd => ?_
      exact hd ▸ hrest d
    | false =>
      have hlax : C.lax := (C.flag_strict flag).resolve_right fun hf => by simp [hf h] at h'
      refine Sim.bind_left (ensure_left hlax 1) fun _ => Sim.bind_left (topData_left hlax) fun d => ?_
      exact hleft hlax d

theorem opCheckLockTimeVerify_sim :
    C.Keeps (opCheckLockTimeVerify env) (opCheckLockTimeVerify env') := by
  refine flagged_sim .checkLockTimeVerify (fun e d => do
    let nLockTime ← liftScript (ScriptNum.ofData d (e.isSet .minimalData) 5)
    if nLockTime._value < 0 then throwScript .negativeLockTime
    else
      let ok ← liftChecker (e.checker.checkLockTime nLockTime)
      if !ok then throwScript .unsatisfiedLockTime else pure ()) (fun d => ?_) (fun hlax d => ?_)
  · refine Sim.bind (liftScript_sim (ofData_match (C.weaker _) (C.flag_strict _) d 5)) fun n n' hn => ?_
    subst hn
    refine Sim.guard _ id (Or.inr id) fun _ => ?_
    rw [C.checker]
    refine Sim.bind (liftChecker_sim _) fun ok ok' hok => ?_
    subst hok
    exact Sim.guard _ id (Or.inr id) fun _ => Sim.pure trivial
  · refine Sim.bind_left (lift_left hlax _) fun n => ?_
    split
    · exact Sim.throw_left hlax _ _
    · refine Sim.bind_left (lift_left hlax _) fun ok => ?_
      split
      · exact Sim.throw_left hlax _ _
      · exact Sim.pure trivial

theorem opCheckSequenceVerify_sim :
    C.Keeps (opCheckSequenceVerify env) (opCheckSequenceVerify env') := by
  refine flagged_sim .checkSequenceVerify (fun e d => do
    let nSequence ← liftScript (ScriptNum.ofData d (e.isSet .minimalData) 5)
    if nSequence._value < 0 then throwScript .negativeLockTime
    else if nSequence._value &&& SEQUENCE_LOCKTIME_DISABLE_FLAG ≠ 0 then pure ()
    else
      let ok ← liftChecker (e.checker.checkSequence nSequence)
      if !ok then throwScript .unsatisfiedLockTime else pure ()) (fun d => ?_) (fun hlax d => ?_)
  · refine Sim.bind (liftScript_sim (ofData_match (C.weaker _) (C.flag_strict _) d 5)) fun n n' hn => ?_
    subst hn
    refine Sim.guard _ id (Or.inr id) fun _ => ?_
    refine Sim.ite Iff.rfl (fun _ => Sim.pure trivial) fun _ => ?_
    rw [C.checker]
    refine Sim.bind (liftChecker_sim _) fun ok ok' hok => ?_
    subst hok
    exact Sim.guard _ id (Or.inr id) fun _ => Sim.pure trivial
  · refine Sim.bind_left (lift_left hlax _) fun n => ?_
    split
    · exact Sim.throw_left hlax _ _
    split
    · exact Sim.pure trivial
    · refine Sim.bind_left (lift_left hlax _) fun ok => ?_
      split
      · exact Sim.throw_left hlax _ _
      · exact Sim.pure trivial

theorem opVerify_sim : C.Keeps opVerify opVerify :=
  Sim.bind (ensure_sim 1) fun _ _ _ => verifyTop_sim _

theorem opToAltStack_sim : C.Keeps opToAltStack opToAltStack := by
  refine Sim.bind (ensure_sim 1) fun _ _ _ => Sim.bind take_sim fun f f' hf => ?_
  exact Sim.modify fun s t h => ⟨h.opCount,h.stack,.cons hf h.altStack,h.flags,h.position⟩

theorem opFromAltStack_sim : C.Keeps opFromAltStack opFromAltStack := by
  rintro ⟨n,stack,alt,fl,cur,sep⟩ ⟨n',stack',alt',fl',cur',sep'⟩ ⟨hn,hst,halt,hfl,hpos⟩
  cases halt with
  | nil => exact Or.inr rfl
  | cons hf hr => exact ⟨trivial,hn,.cons hf hst,hr,hfl,hpos⟩

/-- Corresponding stacks have corresponding frames at every depth. -/
theorem getElem_rel {l l' : Stack} (h : List.Forall₂ C.frame l l') (i : ℕ) :
    Option.Rel C.frame l[i]? l'[i]? := by
  induction h generalizing i with
  | nil => exact .none
  | cons hf _ ih =>
    cases i with
    | zero => exact .some hf
    | succ i => simpa using ih i

theorem rearranges_sim {k : ℕ} {order : List ℕ} {x : Action Unit} (hx : Rearranges k order x) :
    C.Keeps x x := by
  intro s t h
  have hl := h.stack.length_eq
  rw [hx s,hx t,hl]
  split
  · exact Or.inr rfl
  · refine ⟨trivial,h.opCount,List.rel_append ?_ (List.forall₂_drop k h.stack),h.altStack,h.flags,h.position⟩
    exact List.rel_filterMap (fun i j (hij : i = j) => hij ▸ getElem_rel h.stack i)
      (List.forall₂_same.mpr fun _ _ => rfl)

theorem opIfDup_sim : C.Keeps opIfDup opIfDup := by
  refine Sim.bind (ensure_sim 1) fun _ _ _ => Sim.bind top_sim fun f f' hf => ?_
  exact Sim.ite (by rw [C.castToBool hf]) (fun _ => push_sim hf) fun _ => Sim.pure trivial

theorem opDepth_sim : C.Keeps opDepth opDepth := by
  refine Sim.bind Sim.get fun s t h => ?_
  rw [h.stack.length_eq]
  exact pushNumber_sim _

theorem takeIndex_sim : C.Simulates Eq (takeIndex env) (takeIndex env') := by
  refine Sim.bind takeNumber_sim fun n n' h => Sim.pure ?_
  rw [h]

theorem takeToTmp_sim (n : Int32) :
    C.Simulates (List.Forall₂ C.frame) (takeToTmp n) (takeToTmp n) := by
  intro s t h
  rw [takeToTmp_run,takeToTmp_run,h.stack.length_eq]
  split
  · exact ⟨List.rel_reverse (List.forall₂_take _ h.stack),h.opCount,List.forall₂_drop _ h.stack,
      h.altStack,h.flags,h.position⟩
  · exact Or.inr rfl

theorem opPick_sim : C.Keeps (opPick env) (opPick env') := by
  refine Sim.bind (ensure_sim 2) fun _ _ _ => Sim.bind takeIndex_sim fun n n' hn => ?_
  subst hn
  refine Sim.bind (ensure_sim _) fun _ _ _ => Sim.bind (takeToTmp_sim n) fun tmp tmp' htmp => ?_
  refine Sim.bind top_sim fun f f' hf => ?_
  exact Sim.bind (pushAll_sim htmp) fun _ _ _ => push_sim hf

theorem opRoll_sim : C.Keeps (opRoll env) (opRoll env') := by
  refine Sim.bind (ensure_sim 2) fun _ _ _ => Sim.bind takeIndex_sim fun n n' hn => ?_
  subst hn
  refine Sim.bind (ensure_sim _) fun _ _ _ => Sim.bind (takeToTmp_sim n) fun tmp tmp' htmp => ?_
  refine Sim.bind take_sim fun f f' hf => ?_
  exact Sim.bind (pushAll_sim htmp) fun _ _ _ => push_sim hf

theorem opSize_sim : C.Keeps opSize opSize := by
  refine Sim.bind (ensure_sim 1) fun _ _ _ => Sim.bind topData_sim fun d d' hd => ?_
  exact hd ▸ pushNumber_sim _

theorem opEqual_sim : C.Keeps opEqual opEqual := by
  refine Sim.bind (ensure_sim 2) fun _ _ _ => Sim.bind takeData_sim fun d d' hd => ?_
  refine Sim.bind takeData_sim fun e e' he => ?_
  exact hd ▸ he ▸ pushBool_sim _

theorem opEqualVerify_sim : C.Keeps opEqualVerify opEqualVerify :=
  Sim.bind opEqual_sim fun _ _ _ => verifyTop_sim _

theorem unaryNum_sim (f : ScriptNum → Except ScriptError ScriptNum) :
    C.Keeps (unaryNum env f) (unaryNum env' f) := by
  refine Sim.bind (ensure_sim 1) fun _ _ _ => Sim.bind takeNumber_sim fun x x' hx => ?_
  subst hx
  refine Sim.bind (liftScript_sim (ExceptMatch.refl _ _)) fun r r' hr => ?_
  exact hr ▸ pushNumber_sim _

theorem binaryNum_sim (f : ScriptNum → ScriptNum → ScriptNum) :
    C.Keeps (binaryNum env f) (binaryNum env' f) := by
  refine Sim.bind (ensure_sim 2) fun _ _ _ => Sim.bind takeNumber_sim fun x x' hx => ?_
  refine Sim.bind takeNumber_sim fun y y' hy => ?_
  exact hx ▸ hy ▸ pushNumber_sim _

theorem opNumEqualVerify_sim : C.Keeps (opNumEqualVerify env) (opNumEqualVerify env') :=
  Sim.bind (binaryNum_sim _) fun _ _ _ => verifyTop_sim _

theorem opWithin_sim : C.Keeps (opWithin env) (opWithin env') := by
  refine Sim.bind (ensure_sim 3) fun _ _ _ => Sim.bind takeNumber_sim fun x x' hx => ?_
  refine Sim.bind takeNumber_sim fun y y' hy => Sim.bind takeNumber_sim fun z z' hz => ?_
  exact hx ▸ hy ▸ hz ▸ pushBool_sim _

theorem hashTop_sim (h : Bytes → Bytes) : C.Keeps (hashTop h) (hashTop h) := by
  refine Sim.bind (ensure_sim 1) fun _ _ _ => Sim.bind takeData_sim fun d d' hd => ?_
  exact hd ▸ push_sim (C.refl _)

theorem opCodeSeparator_sim : C.Keeps (opCodeSeparator env) (opCodeSeparator env') := by
  unfold opCodeSeparator
  refine Sim.guard _ (fun hc => ⟨C.sigversion ▸ hc.1,C.weaker _ hc.2⟩) ?_ fun _ => ?_
  · exact (C.flag_strict .constScriptCode).imp id fun hf hc => ⟨C.sigversion ▸ hc.1,hf hc.2⟩
  · exact Sim.modify fun s t h => ⟨h.opCount,h.stack,h.altStack,h.flags,C.separator h.position⟩

/-- Equal flags or a lax correspondence. -/
theorem strict_eq : C.lax ∨ env.isSet = env'.isSet := by
  refine C.strict.imp id fun h => ?_
  funext flag
  exact Bool.eq_iff_iff.mpr ⟨h flag,C.weaker flag⟩

theorem checkSignatureEncoding_match (f : StackFrame) :
    ExceptMatch C.lax (checkSignatureEncoding env f) (checkSignatureEncoding env' f) := by
  rcases C.strict_eq with hlax | heq
  · refine ExceptMatch.of_lax hlax fun a ha => ?_
    have hs := C.weaker .strictEnc
    have hl := C.weaker .lowS
    have hd := C.weaker .verifyDerSig
    unfold checkSignatureEncoding at ha ⊢
    split at ha
    · exact ha
    · exact ha
    · cases hv : SignatureEncoding.isValidSignatureEncoding _ with
      | none =>
        simp only [hv] at ha ⊢
        split_ifs at ha ⊢ <;> simp_all
      | some valid =>
        cases valid <;> simp only [hv,isLowDERSignature] at ha ⊢ <;> split_ifs at ha ⊢ <;> simp_all
  · unfold checkSignatureEncoding
    rw [heq]
    exact ExceptMatch.refl _ _

theorem checkPubKeyEncoding_match (pubKey : ScriptData) :
    ExceptMatch C.lax (checkPubKeyEncoding env pubKey) (checkPubKeyEncoding env' pubKey) := by
  rcases C.strict_eq with hlax | heq
  · refine ExceptMatch.of_lax hlax fun a ha => ?_
    have hs := C.weaker .strictEnc
    have hk := C.weaker .witnessPubKeyType
    have hv := C.sigversion
    unfold checkPubKeyEncoding at ha ⊢
    split_ifs at ha ⊢ <;> simp_all
  · unfold checkPubKeyEncoding
    rw [heq,C.sigversion]
    exact ExceptMatch.refl _ _

theorem dropSignature_sim (scriptCode : Bytes) (sig : ScriptData) :
    C.Simulates Eq (dropSignature env scriptCode sig) (dropSignature env' scriptCode sig) := by
  refine Sim.ite (by rw [C.sigversion]) (fun _ => ?_) fun _ => Sim.pure rfl
  exact Sim.guard _ (fun hc => ⟨hc.1,C.weaker _ hc.2⟩)
    ((C.flag_strict .constScriptCode).imp id fun hf hc => ⟨hc.1,hf hc.2⟩) fun _ => Sim.pure rfl

theorem dropSignatures_sim (sigs : List ScriptData) (scriptCode : Bytes) :
    C.Simulates Eq (dropSignatures env sigs scriptCode) (dropSignatures env' sigs scriptCode) := by
  induction sigs generalizing scriptCode with
  | nil => exact Sim.pure rfl
  | cons sig sigs ih =>
    refine Sim.bind (dropSignature_sim scriptCode sig) fun code code' h => ?_
    exact h ▸ ih code

theorem checkSignature_sim (sig pubKey : ScriptData) (scriptCode : Bytes) :
    C.Simulates Eq (checkSignature env sig pubKey scriptCode)
      (checkSignature env' sig pubKey scriptCode) := by
  refine Sim.bind (lift_sim (checkSignatureEncoding_match _)) fun _ _ _ => ?_
  refine Sim.bind (lift_sim (checkPubKeyEncoding_match _)) fun _ _ _ => ?_
  rw [C.checker,C.sigversion]
  exact liftChecker_sim _

theorem checkSignatures_sim (scriptCode : Bytes) (sigs keys : List ScriptData) :
    C.Simulates Eq (checkSignatures env scriptCode sigs keys)
      (checkSignatures env' scriptCode sigs keys) := by
  induction keys generalizing sigs with
  | nil =>
    cases sigs with
    | nil => exact Sim.pure rfl
    | cons sig sigs => exact Sim.throw _
  | cons key keys ih =>
    cases sigs with
    | nil => exact Sim.pure rfl
    | cons sig sigs =>
      refine Sim.bind (checkSignature_sim sig key scriptCode) fun ok ok' h => ?_
      subst h
      exact Sim.ite Iff.rfl (fun _ => Sim.pure rfl) fun _ => ih _

theorem takeDatas_sim (n : ℕ) : C.Simulates Eq (takeDatas n) (takeDatas n) := by
  induction n with
  | zero => exact Sim.pure rfl
  | succ n ih =>
    refine Sim.bind takeData_sim fun d d' hd => Sim.bind ih fun ds ds' hds => Sim.pure ?_
    rw [hd,hds]

theorem takeCount_sim (bound : ℕ) (code : ScriptError) :
    C.Simulates Eq (takeCount env bound code) (takeCount env' bound code) := by
  refine Sim.bind takeNumber_sim fun n n' hn => ?_
  subst hn
  exact Sim.guard _ id (Or.inr id) fun _ => Sim.pure rfl

theorem popDummy_sim : C.Keeps (popDummy env) (popDummy env') := by
  refine Sim.bind (ensure_sim 1) fun _ _ _ => ?_
  cases h : env.isSet .nullDummy with
  | false =>
    have h' : env'.isSet .nullDummy = false := by
      cases h' : env'.isSet .nullDummy with
      | false => rfl
      | true => simp [C.weaker _ h'] at h
    simpa [h'] using pop_sim
  | true =>
    cases h' : env'.isSet .nullDummy with
    | true =>
      refine Sim.bind topData_sim fun d d' hd => ?_
      subst hd
      exact Sim.guard _ id (Or.inr id) fun _ => pop_sim
    | false =>
      have hlax : C.lax := (C.flag_strict .nullDummy).resolve_right fun hf => by simp [hf h] at h'
      refine Sim.bind_left (topData_left hlax) fun d => ?_
      simp only [Bool.false_eq_true,if_false]
      split
      · exact Sim.throw_left hlax _ _
      · exact pop_sim

theorem opCheckSig_sim (hsep : C.SameSeparator) : C.Keeps (opCheckSig env) (opCheckSig env') := by
  refine Sim.bind (ensure_sim 2) fun _ _ _ => Sim.bind takeData_sim fun key key' hkey => ?_
  refine Sim.bind takeData_sim fun sig sig' hsig => Sim.bind Sim.get fun s t h => ?_
  subst hkey hsig
  have hs : s._separatorPosition = t._separatorPosition := hsep _ _ h.position
  rw [hs]
  refine Sim.bind (dropSignature_sim _ sig) fun code code' hcode => ?_
  subst hcode
  refine Sim.bind (checkSignature_sim sig key code) fun ok ok' hok => ?_
  subst hok
  exact Sim.guard _ (fun hc => ⟨hc.1,C.weaker _ hc.2.1,hc.2.2⟩)
    ((C.flag_strict .nullFail).imp id fun hf hc => ⟨hc.1,hf hc.2.1,hc.2.2⟩) fun _ => pushBool_sim ok

theorem opCheckSigVerify_sim (hsep : C.SameSeparator) :
    C.Keeps (opCheckSigVerify env) (opCheckSigVerify env') :=
  Sim.bind (opCheckSig_sim hsep) fun _ _ _ => verifyTop_sim _

theorem opCheckMultiSig_sim (hsep : C.SameSeparator) :
    C.Keeps (opCheckMultiSig env) (opCheckMultiSig env') := by
  refine Sim.bind (ensure_sim 1) fun _ _ _ => Sim.bind (takeCount_sim _ _) fun n n' hn => ?_
  subst hn
  refine Sim.bind (countOps_sim n) fun _ _ _ => Sim.bind (ensure_sim n) fun _ _ _ => ?_
  refine Sim.bind (takeDatas_sim n) fun keys keys' hkeys => ?_
  subst hkeys
  refine Sim.bind (takeCount_sim n _) fun m m' hm => ?_
  subst hm
  refine Sim.bind (countOps_sim m) fun _ _ _ => Sim.bind (ensure_sim m) fun _ _ _ => ?_
  refine Sim.bind (takeDatas_sim m) fun sigs sigs' hsigs => Sim.bind Sim.get fun s t h => ?_
  subst hsigs
  have hs : s._separatorPosition = t._separatorPosition := hsep _ _ h.position
  rw [hs]
  refine Sim.bind (dropSignatures_sim sigs _) fun code code' hcode => ?_
  subst hcode
  refine Sim.bind (checkSignatures_sim code sigs keys) fun ok ok' hok => ?_
  subst hok
  exact Sim.bind popDummy_sim fun _ _ _ => pushBool_sim ok

theorem opCheckMultiSigVerify_sim (hsep : C.SameSeparator) :
    C.Keeps (opCheckMultiSigVerify env) (opCheckMultiSigVerify env') :=
  Sim.bind (opCheckMultiSig_sim hsep) fun _ _ _ => verifyTop_sim _

end Handlers

section Step

variable {C} {opCode : OpCode} (hsep : opCode ∈ signatureOpCodes → C.SameSeparator)
include hsep

/-- Case by case, the handlers of an opcode correspond. -/
theorem cases_sim (d : ScriptData) :
    List.Forall₂ (fun c c' => c.1 = c'.1 ∧ (opCode ∈ c.1 → C.Keeps c.2 c'.2))
      (cases env opCode d) (cases env' opCode d) := by
  simp only [cases,List.forall₂_cons,List.Forall₂.nil,and_true,true_and,List.mem_cons,
    List.not_mem_nil,or_false,opRipemd,opSha1,opSha256,opHash160,opHash256,C.crypto]
  exact ⟨fun _ => opPushData1_sim d,fun _ => opPushData2_sim d,fun _ => opPushData4_sim d,
    fun _ => pushNumber_sim _,fun _ => Sim.pure trivial,fun _ => opCheckLockTimeVerify_sim,
    fun _ => opCheckSequenceVerify_sim,fun _ => opNoop_sim,fun _ => opVerify_sim,
    fun _ => Sim.throw _,fun _ => opToAltStack_sim,fun _ => opFromAltStack_sim,
    fun _ => rearranges_sim op2Drop_rearranges,fun _ => rearranges_sim op2Dup_rearranges,
    fun _ => rearranges_sim op3Dup_rearranges,fun _ => rearranges_sim op2Over_rearranges,
    fun _ => rearranges_sim op2Rot_rearranges,fun _ => rearranges_sim op2Swap_rearranges,
    fun _ => opIfDup_sim,fun _ => opDepth_sim,fun _ => rearranges_sim opDrop_rearranges,
    fun _ => rearranges_sim opDup_rearranges,fun _ => rearranges_sim opNip_rearranges,
    fun _ => rearranges_sim opOver_rearranges,fun _ => opPick_sim,fun _ => opRoll_sim,
    fun _ => rearranges_sim opRot_rearranges,fun _ => rearranges_sim opSwap_rearranges,
    fun _ => rearranges_sim opTuck_rearranges,fun _ => opSize_sim,fun _ => opEqual_sim,
    fun _ => opEqualVerify_sim,fun _ => unaryNum_sim _,fun _ => unaryNum_sim _,
    fun _ => unaryNum_sim _,fun _ => unaryNum_sim _,fun _ => unaryNum_sim _,
    fun _ => unaryNum_sim _,fun _ => binaryNum_sim _,fun _ => binaryNum_sim _,
    fun _ => binaryNum_sim _,fun _ => binaryNum_sim _,fun _ => binaryNum_sim _,
    fun _ => opNumEqualVerify_sim,fun _ => binaryNum_sim _,fun _ => binaryNum_sim _,
    fun _ => binaryNum_sim _,fun _ => binaryNum_sim _,fun _ => binaryNum_sim _,
    fun _ => binaryNum_sim _,fun _ => binaryNum_sim _,fun _ => opWithin_sim,
    fun _ => hashTop_sim _,fun _ => hashTop_sim _,fun _ => hashTop_sim _,
    fun _ => hashTop_sim _,fun _ => hashTop_sim _,fun _ => opCodeSeparator_sim,
    fun h => opCheckSig_sim (hsep (by simp [h,signatureOpCodes])),
    fun h => opCheckSigVerify_sim (hsep (by simp [h,signatureOpCodes])),
    fun h => opCheckMultiSig_sim (hsep (by simp [h,signatureOpCodes])),
    fun h => opCheckMultiSigVerify_sim (hsep (by simp [h,signatureOpCodes]))⟩

omit hsep in
/-- Switches with the same labels and corresponding handlers take corresponding branches. -/
theorem find_sim {cs cs' : List (List OpCode × Action Unit)}
    (h : List.Forall₂ (fun c c' => c.1 = c'.1 ∧ (opCode ∈ c.1 → C.Keeps c.2 c'.2)) cs cs') :
    C.Keeps
      (match cs.find? (fun c => c.1.contains opCode) with
        | some c => c.2
        | none => throwScript .badOpCode)
      (match cs'.find? (fun c => c.1.contains opCode) with
        | some c => c.2
        | none => throwScript .badOpCode) := by
  induction h with
  | nil => exact Sim.throw _
  | @cons c c' _ _ hc _ ih =>
    rw [List.find?_cons,List.find?_cons,← hc.1]
    cases hm : c.1.contains opCode with
    | true => exact hc.2 (by simpa using hm)
    | false => exact ih

theorem dispatch_sim (d : ScriptData) : C.Keeps (dispatch env opCode d) (dispatch env' opCode d) :=
  find_sim (cases_sim hsep d)

omit hsep in
theorem sizeLimits_sim : C.Keeps sizeLimits sizeLimits := by
  refine Sim.bind Sim.get fun s t h => ?_
  rw [h.stack.length_eq,h.altStack.length_eq]
  exact Sim.guard _ id (Or.inr id) fun _ => Sim.pure trivial

omit hsep in
theorem pushFlag_sim (flag : Bool) : C.Keeps (pushFlag flag) (pushFlag flag) :=
  Sim.modify fun _ _ h => ⟨h.opCount,h.stack,h.altStack,by simp [h.flags],h.position⟩

omit hsep in
theorem mustExecuted_eq {s t : Interpreter} (h : C.Rel s t) : mustExecuted s = mustExecuted t := by
  rw [mustExecuted,mustExecuted,h.flags]

omit hsep in
theorem opIf_sim : C.Keeps (opIf env opCode) (opIf env' opCode) := by
  refine Sim.bind Sim.get fun s t h => ?_
  rw [mustExecuted_eq h]
  refine Sim.ite Iff.rfl (fun _ => pushFlag_sim _) fun _ => ?_
  have hempty : s._stack = [] ↔ t._stack = [] := by
    rw [← List.length_eq_zero_iff,h.stack.length_eq,List.length_eq_zero_iff]
  refine Sim.ite hempty (fun _ => Sim.throw _) fun _ => Sim.bind take_sim fun f f' hf => ?_
  rw [C.castToBool hf]
  refine Sim.guard _ (fun hc => ?_) ?_ fun _ => pushFlag_sim _
  · have hset := C.weaker _ hc.2.1
    exact ⟨C.sigversion ▸ hc.1,hset,(C.minimalIf hset hf).1 hc.2.2⟩
  · by_cases hset : env.isSet .minimalIf = true
    · rcases C.flag_strict .minimalIf with hlax | hstrict
      · exact Or.inl hlax
      · exact (C.minimalIf hset hf).2.imp id fun hm hc => ⟨C.sigversion ▸ hc.1,hstrict hset,hm hc.2.2⟩
    · exact Or.inr fun hc => absurd hc.2.1 hset

omit hsep in
theorem opElse_sim : C.Keeps opElse opElse := by
  rintro ⟨n,stack,alt,fl,cur,sep⟩ ⟨n',stack',alt',fl',cur',sep'⟩ ⟨hn,hst,halt,hfl,hpos⟩
  cases hfl
  cases fl with
  | nil => exact Or.inr rfl
  | cons => exact ⟨trivial,hn,hst,halt,rfl,hpos⟩

omit hsep in
theorem opEndIf_sim : C.Keeps opEndIf opEndIf := by
  rintro ⟨n,stack,alt,fl,cur,sep⟩ ⟨n',stack',alt',fl',cur',sep'⟩ ⟨hn,hst,halt,hfl,hpos⟩
  cases hfl
  cases fl with
  | nil => exact Or.inr rfl
  | cons => exact ⟨trivial,hn,hst,halt,rfl,hpos⟩

omit hsep in
theorem conditional_sim : C.Keeps (conditional env opCode) (conditional env' opCode) := by
  refine Sim.ite Iff.rfl (fun _ => opIf_sim) fun _ => ?_
  refine Sim.ite Iff.rfl (fun _ => opElse_sim) fun _ => ?_
  exact Sim.ite Iff.rfl (fun _ => opEndIf_sim) fun _ => Sim.pure trivial

/-- Whatever has been read, carrying it out keeps the correspondence. -/
theorem carryOut_sim (d : ScriptData) :
    C.Keeps (carryOut env opCode d) (carryOut env' opCode d) := by
  refine Sim.bind Sim.get fun s t h => ?_
  rw [mustExecuted_eq h]
  refine Sim.ite Iff.rfl (fun _ => Sim.bind conditional_sim fun _ _ _ => sizeLimits_sim) fun _ => ?_
  refine Sim.ite Iff.rfl (fun _ => ?_) fun _ => sizeLimits_sim
  refine Sim.ite Iff.rfl (fun _ => opPushData_sim opCode d) fun _ => ?_
  exact Sim.bind (dispatch_sim hsep d) fun _ _ _ => sizeLimits_sim

omit hsep in
theorem fetched_matches (i : OpCode × ScriptData) {s t : Interpreter} (h : C.Rel s t) :
    Matches C.lax C.Rel Eq (fetched i s) (fetched i t) := by
  unfold fetched
  rw [h.opCount]
  split_ifs
  · exact Or.inr rfl
  · exact Or.inr rfl
  · exact ⟨rfl,rfl,h.stack,h.altStack,h.flags,h.position⟩
  · exact ⟨rfl,h⟩

omit hsep in
/-- Where both read the same instruction, or neither reads one, a round corresponds. -/
theorem step_matches {s t : Interpreter} (h : C.Rel s t)
    (hread : match Script.getScriptOp s._curScriptPosition,Script.getScriptOp t._curScriptPosition with
      | (some i,p),(some j,q) => i = j ∧ C.position (p,s._separatorPosition) (q,t._separatorPosition) ∧
        (i.1 ∈ signatureOpCodes → C.SameSeparator)
      | (none,_),(none,_) => True
      | _,_ => False) :
    Matches C.lax C.Rel (fun _ _ => True) ((step env).run s) ((step env').run t) := by
  rw [step,step,run_bind_andThen,run_bind_andThen,fetch_run,fetch_run]
  rcases hs : Script.getScriptOp s._curScriptPosition with ⟨_ | i,p⟩ <;>
    rcases ht : Script.getScriptOp t._curScriptPosition with ⟨_ | j,q⟩ <;> rw [hs,ht] at hread
  · exact Or.inr rfl
  · exact hread.elim
  · exact hread.elim
  · obtain ⟨rfl,hpos,hsep⟩ := hread
    have hm := fetched_matches (C := C) i (s := { s with _curScriptPosition := p })
      (t := { t with _curScriptPosition := q }) ⟨h.opCount,h.stack,h.altStack,h.flags,hpos⟩
    refine Matches.andThen hm fun a b s' t' hs' _ hab h' => ?_
    obtain ⟨rfl,-⟩ := fetched_ok hs'
    subst hab
    exact carryOut_sim hsep _ s' t' h'

end Step
end Correspondence
end Tkeycoin
