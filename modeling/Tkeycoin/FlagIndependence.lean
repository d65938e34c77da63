import Tkeycoin.Commuting
import Tkeycoin.Runs

/-! The handlers neither look at the conditional flags nor change them. -/
namespace Tkeycoin

open ActionLogic

namespace Interpreter

def withFlags (flags : List Bool) (s : Interpreter) : Interpreter :=
  { s with _conditionalExecutionFlags := flags }

/-- Whatever the conditional flags are, the action does the same and leaves them. -/
def Blind {α : Type} (x : Action α) : Prop := ∀ flags, Commutes (withFlags flags) x

namespace Blind

variable {α β : Type}

theorem pure (a : α) : Blind (Pure.pure a : Action α) := fun _ => Commutes.pure a

theorem throw (e : Stop) : Blind (MonadExcept.throw e : Action α) := fun _ => Commutes.throw e

theorem throwScript (code : ScriptError) : Blind (throwScript code : Action α) := throw _

theorem bind {x : Action α} {f : α → Action β} (hx : Blind x) (hf : ∀ a, Blind (f a)) :
    Blind (x >>= f) :=
  fun flags => (hx flags).bind fun a => hf a flags

theorem ite {p : Prop} [Decidable p] {x y : Action α} (hx : Blind x) (hy : Blind y) :
    Blind (if p then x else y) :=
  fun flags => Commutes.ite (hx flags) (hy flags)

/-- A check before an action. -/
theorem guard {p : Prop} [Decidable p] {code : ScriptError} {x : Action α} (hx : Blind x) :
    Blind (if p then Interpreter.throwScript code else x) := ite (throwScript code) hx

theorem get_bind {f : Interpreter → Action α} (hread : ∀ flags s, f (withFlags flags s) = f s)
    (hf : ∀ s, Blind (f s)) : Blind (get >>= f) :=
  fun flags => Commutes.get_bind (hread flags) fun s => hf s flags

theorem modify {f : Interpreter → Interpreter} (h : ∀ flags s, f (withFlags flags s) = withFlags flags (f s)) :
    Blind (modify f : Action PUnit) := fun flags => Commutes.modify (h flags)

theorem lift (x : Except Stop α) : Blind (Interpreter.lift x) := by
  cases x with
  | ok a => exact pure a
  | error e => exact throw e

theorem liftScript (x : Except ScriptError α) : Blind (Interpreter.liftScript x) := lift _

end Blind

section Primitives

theorem ensure_blind (need : ℕ) : Blind (ensureStackHasEnoughFrames need) :=
  Blind.get_bind (fun _ _ => rfl) fun _ => Blind.guard (Blind.pure _)

theorem take_blind : Blind take := by
  rintro flags ⟨ops,_ | ⟨frame,rest⟩,alt,fl,cur,sep⟩ <;> rfl

theorem top_blind : Blind top := by
  rintro flags ⟨ops,_ | ⟨frame,rest⟩,alt,fl,cur,sep⟩ <;> rfl

theorem push_blind (frame : StackFrame) : Blind (push frame) := Blind.modify fun _ _ => rfl

theorem pushNumber_blind (n : ScriptNum) : Blind (pushNumber n) := push_blind _

theorem pushBool_blind (b : Bool) : Blind (pushBool b) := push_blind _

theorem pop_blind : Blind pop := take_blind.bind fun _ => Blind.pure _

theorem takeData_blind : Blind takeData := take_blind.bind fun _ => Blind.pure _

theorem topData_blind : Blind topData :=
  take_blind.bind fun _ => (push_blind _).bind fun _ => Blind.pure _

theorem takeNumber_blind (env : Env) : Blind (takeNumber env) := take_blind.bind fun _ => Blind.liftScript _

theorem takeIndex_blind (env : Env) : Blind (takeIndex env) := (takeNumber_blind env).bind fun _ => Blind.pure _

theorem takeCount_blind (env : Env) (bound : ℕ) (code : ScriptError) : Blind (takeCount env bound code) :=
  (takeNumber_blind env).bind fun _ => Blind.guard (Blind.pure _)

theorem pushAll_blind (frames : List StackFrame) : Blind (pushAll frames) := by
  induction frames with
  | nil => exact Blind.pure _
  | cons frame frames ih => exact (push_blind frame).bind fun _ => ih

theorem takeDatas_blind (n : ℕ) : Blind (takeDatas n) := by
  induction n with
  | zero => exact Blind.pure _
  | succ n ih => exact takeData_blind.bind fun _ => ih.bind fun _ => Blind.pure _

theorem takeToTmp_blind (n : Int32) : Blind (takeToTmp n) := by
  rintro flags ⟨ops,stack,alt,fl,cur,sep⟩
  simp only [takeToTmp_run,withFlags]
  split <;> rfl

theorem countOps_blind (n : ℕ) : Blind (countOps n) := by
  intro flags s
  rw [countOps_run,countOps_run]
  by_cases h : s._opCount + n > Script.MAX_OPS_PER_SCRIPT
  · have h' : (withFlags flags s)._opCount + n > Script.MAX_OPS_PER_SCRIPT := h
    rw [if_pos h,if_pos h']
    rfl
  · have h' : ¬ (withFlags flags s)._opCount + n > Script.MAX_OPS_PER_SCRIPT := h
    rw [if_neg h,if_neg h']
    rfl

theorem verifyTop_blind (code : ScriptError) : Blind (verifyTop code) :=
  top_blind.bind fun _ => Blind.guard pop_blind

theorem rearranges_blind {k : ℕ} {order : List ℕ} {x : Action Unit} (h : Rearranges k order x) : Blind x := by
  intro flags s
  rw [h,h]
  by_cases hk : s._stack.length < k
  · have hk' : (withFlags flags s)._stack.length < k := hk
    rw [if_pos hk,if_pos hk']
    rfl
  · have hk' : ¬ (withFlags flags s)._stack.length < k := hk
    rw [if_neg hk,if_neg hk']
    rfl

theorem sizeLimits_blind : Blind sizeLimits :=
  Blind.get_bind (fun _ _ => rfl) fun _ => Blind.guard (Blind.pure _)

end Primitives

section Handlers

variable (env : Env)

theorem pushNumberOrData_blind (d : ScriptData) : Blind (pushNumberOrData env d) :=
  Blind.ite ((Blind.liftScript _).bind fun _ => pushNumber_blind _) (push_blind _)

theorem opPushData_blind (opCode : OpCode) (d : ScriptData) : Blind (opPushData env opCode d) :=
  Blind.guard (pushNumberOrData_blind env d)

theorem opCheckLockTimeVerify_blind : Blind (opCheckLockTimeVerify env) :=
  Blind.ite (Blind.pure _) ((ensure_blind 1).bind fun _ => topData_blind.bind fun _ =>
    (Blind.liftScript _).bind fun _ => Blind.guard ((Blind.lift _).bind fun _ =>
      Blind.guard (Blind.pure _)))

theorem opCheckSequenceVerify_blind : Blind (opCheckSequenceVerify env) :=
  Blind.ite (Blind.pure _) ((ensure_blind 1).bind fun _ => topData_blind.bind fun _ =>
    (Blind.liftScript _).bind fun _ => Blind.guard (Blind.ite (Blind.pure _)
      ((Blind.lift _).bind fun _ => Blind.guard (Blind.pure _))))

theorem opToAltStack_blind : Blind opToAltStack :=
  (ensure_blind 1).bind fun _ => take_blind.bind fun _ => Blind.modify fun _ _ => rfl

theorem opFromAltStack_blind : Blind opFromAltStack := by
  rintro flags ⟨ops,stack,_ | ⟨frame,rest⟩,fl,cur,sep⟩ <;> rfl

theorem opIfDup_blind : Blind opIfDup :=
  (ensure_blind 1).bind fun _ => top_blind.bind fun _ => Blind.ite (push_blind _) (Blind.pure _)

theorem opDepth_blind : Blind opDepth := Blind.get_bind (fun _ _ => rfl) fun _ => pushNumber_blind _

theorem opPick_blind : Blind (opPick env) :=
  (ensure_blind 2).bind fun _ => (takeIndex_blind env).bind fun _ => (ensure_blind _).bind fun _ =>
    (takeToTmp_blind _).bind fun _ => top_blind.bind fun _ => (pushAll_blind _).bind fun _ => push_blind _

theorem opRoll_blind : Blind (opRoll env) :=
  (ensure_blind 2).bind fun _ => (takeIndex_blind env).bind fun _ => (ensure_blind _).bind fun _ =>
    (takeToTmp_blind _).bind fun _ => take_blind.bind fun _ => (pushAll_blind _).bind fun _ => push_blind _

theorem opSize_blind : Blind opSize :=
  (ensure_blind 1).bind fun _ => topData_blind.bind fun _ => pushNumber_blind _

theorem opEqual_blind : Blind opEqual :=
  (ensure_blind 2).bind fun _ => takeData_blind.bind fun _ => takeData_blind.bind fun _ => pushBool_blind _

theorem unaryNum_blind (f : ScriptNum → Except ScriptError ScriptNum) : Blind (unaryNum env f) :=
  (ensure_blind 1).bind fun _ => (takeNumber_blind env).bind fun _ => (Blind.liftScript _).bind fun _ =>
    pushNumber_blind _

theorem binaryNum_blind (f : ScriptNum → ScriptNum → ScriptNum) : Blind (binaryNum env f) :=
  (ensure_blind 2).bind fun _ => (takeNumber_blind env).bind fun _ => (takeNumber_blind env).bind fun _ =>
    pushNumber_blind _

theorem opWithin_blind : Blind (opWithin env) :=
  (ensure_blind 3).bind fun _ => (takeNumber_blind env).bind fun _ => (takeNumber_blind env).bind fun _ =>
    (takeNumber_blind env).bind fun _ => pushBool_blind _

theorem hashTop_blind (h : Bytes → Bytes) : Blind (hashTop h) :=
  (ensure_blind 1).bind fun _ => takeData_blind.bind fun _ => push_blind _

theorem opCodeSeparator_blind : Blind (opCodeSeparator env) := Blind.guard (Blind.modify fun _ _ => rfl)

theorem dropSignature_blind (scriptCode : Bytes) (sig : ScriptData) : Blind (dropSignature env scriptCode sig) :=
  Blind.ite (Blind.guard (Blind.pure _)) (Blind.pure _)

theorem dropSignatures_blind (sigs : List ScriptData) (scriptCode : Bytes) :
    Blind (dropSignatures env sigs scriptCode) := by
  induction sigs generalizing scriptCode with
  | nil => exact Blind.pure _
  | cons sig sigs ih => exact (dropSignature_blind env scriptCode sig).bind fun _ => ih _

theorem checkSignature_blind (sig pubKey : ScriptData) (scriptCode : Bytes) :
    Blind (checkSignature env sig pubKey scriptCode) :=
  (Blind.lift _).bind fun _ => (Blind.lift _).bind fun _ => Blind.lift _

theorem checkSignatures_blind (scriptCode : Bytes) (sigs keys : List ScriptData) :
    Blind (checkSignatures env scriptCode sigs keys) := by
  induction keys generalizing sigs with
  | nil =>
    cases sigs with
    | nil => exact Blind.pure _
    | cons sig sigs => exact Blind.throw _
  | cons key keys ih =>
    cases sigs with
    | nil => exact Blind.pure _
    | cons sig sigs =>
      exact (checkSignature_blind env sig key scriptCode).bind fun _ => Blind.ite (Blind.pure _) (ih _)

theorem opCheckSig_blind : Blind (opCheckSig env) :=
  (ensure_blind 2).bind fun _ => takeData_blind.bind fun _ => takeData_blind.bind fun _ =>
    Blind.get_bind (fun _ _ => rfl) fun _ => (dropSignature_blind env _ _).bind fun _ =>
      (checkSignature_blind env _ _ _).bind fun _ => Blind.guard (pushBool_blind _)

theorem popDummy_blind : Blind (popDummy env) :=
  (ensure_blind 1).bind fun _ => Blind.ite (topData_blind.bind fun _ => Blind.guard pop_blind) pop_blind

theorem opCheckMultiSig_blind : Blind (opCheckMultiSig env) :=
  (ensure_blind 1).bind fun _ => (takeCount_blind env _ _).bind fun _ => (countOps_blind _).bind fun _ =>
    (ensure_blind _).bind fun _ => (takeDatas_blind _).bind fun _ =>
    (takeCount_blind env _ _).bind fun _ => (countOps_blind _).bind fun _ =>
    (ensure_blind _).bind fun _ => (takeDatas_blind _).bind fun _ =>
    Blind.get_bind (fun _ _ => rfl) fun _ => (dropSignatures_blind env _ _).bind fun _ =>
    (checkSignatures_blind env _ _ _).bind fun _ => (popDummy_blind env).bind fun _ => pushBool_blind _

theorem cases_blind (opCode : OpCode) (d : ScriptData) : ∀ c ∈ cases env opCode d, Blind c.2 := by
  simp only [cases,List.forall_mem_cons,List.not_mem_nil,IsEmpty.forall_iff,implies_true,and_true]
  have order {k o x} (h : Rearranges k o x) : Blind x := rearranges_blind h
  have num (f) : Blind (unaryNum env f) := unaryNum_blind env f
  have nums (f) : Blind (binaryNum env f) := binaryNum_blind env f
  have verify {x : Action Unit} (h : Blind x) (code) : Blind (do x; verifyTop code) :=
    h.bind fun _ => verifyTop_blind code
  have hash (h) : Blind (hashTop h) := hashTop_blind h
  exact ⟨Blind.guard (pushNumberOrData_blind env d),Blind.guard (push_blind _),Blind.guard (push_blind _),
    pushNumber_blind _,Blind.pure _,opCheckLockTimeVerify_blind env,opCheckSequenceVerify_blind env,
    Blind.guard (Blind.pure _),verify (ensure_blind 1) _,Blind.throwScript _,opToAltStack_blind,
    opFromAltStack_blind,order op2Drop_rearranges,order op2Dup_rearranges,order op3Dup_rearranges,
    order op2Over_rearranges,order op2Rot_rearranges,order op2Swap_rearranges,opIfDup_blind,
    opDepth_blind,order opDrop_rearranges,order opDup_rearranges,order opNip_rearranges,
    order opOver_rearranges,opPick_blind env,opRoll_blind env,order opRot_rearranges,
    order opSwap_rearranges,order opTuck_rearranges,opSize_blind,opEqual_blind,verify opEqual_blind _,
    num _,num _,num _,num _,num _,num _,nums _,nums _,nums _,nums _,nums _,verify (nums _) _,nums _,
    nums _,nums _,nums _,nums _,nums _,nums _,opWithin_blind env,hash _,hash _,hash _,hash _,hash _,
    opCodeSeparator_blind env,opCheckSig_blind env,verify (opCheckSig_blind env) _,
    opCheckMultiSig_blind env,verify (opCheckMultiSig_blind env) _⟩

theorem dispatch_blind (opCode : OpCode) (d : ScriptData) : Blind (dispatch env opCode d) :=
  dispatch_induction env (fun c hc _ => cases_blind env opCode d c hc) fun _ => Blind.throwScript _

end Handlers
end Interpreter
end Tkeycoin
