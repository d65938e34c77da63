import Tkeycoin.StackLimit
import Tkeycoin.StackSafety
import Mathlib.Algebra.Group.Action.Defs
import Mathlib.Algebra.Order.BigOperators.Group.List

/-! What a script can hold at any time: the size of the elements, their number and the counted operations. -/
namespace Tkeycoin

open ActionLogic

/-- The sizes of the digests. -/
structure Crypto.Sized (c : Crypto) : Prop where
  ripemd160 : ∀ b, (c.ripemd160 b).length = 20
  sha1 : ∀ b, (c.sha1 b).length = 20
  sha256 : ∀ b, (c.sha256 b).length = 32

namespace ScriptNum

theorem absBytes_length (fuel a : ℕ) : (absBytes fuel a).length ≤ fuel := by
  induction fuel generalizing a with
  | zero => exact Nat.le_refl 0
  | succ fuel ih =>
    unfold absBytes
    split_ifs
    · exact Nat.zero_le _
    · exact Nat.succ_le_succ (ih _)

theorem putSign_length (neg : Bool) (bytes : Bytes) : (putSign neg bytes).length ≤ bytes.length + 1 := by
  induction bytes with
  | nil => exact Nat.zero_le _
  | cons byte rest ih =>
    cases rest with
    | nil =>
      unfold putSign
      split_ifs
      all_goals simp
    | cons next rest => exact Nat.succ_le_succ ih

/-- Eight bytes for the magnitude and one for the sign. -/
theorem getvch_length (n : ScriptNum) : n.getvch.length ≤ 9 := by
  unfold getvch serialize
  split_ifs
  · exact Nat.zero_le _
  · have hmagnitude := absBytes_length 8 n._value.toInt.natAbs
    have hsign := putSign_length (n._value < 0) (absBytes 8 n._value.toInt.natAbs)
    omega

end ScriptNum

namespace Interpreter

/-- As data the frame is no longer than a script may push. -/
def Small (frame : StackFrame) : Prop := frame.asData.length ≤ Script.MAX_SCRIPT_ELEMENT_SIZE

theorem small_number (n : ScriptNum) : Small (.number n) :=
  Nat.le_trans n.getvch_length (by decide)

/-- All frames of both stacks are small. -/
structure SmallFrames (s : Interpreter) : Prop where
  stack : ∀ frame ∈ s._stack, Small frame
  altStack : ∀ frame ∈ s._altStack, Small frame

/-- Within the limits on elements and operations. -/
structure Within (s : Interpreter) : Prop extends SmallFrames s where
  opCount : s._opCount ≤ Script.MAX_OPS_PER_SCRIPT

/-- Within the limits the action stays within them and returns a value of `V`. If it fails, the frames are
small nevertheless. -/
def Keeping {α : Type} (V : α → Prop) (x : Action α) : Prop :=
  Triple Within x (fun a t => V a ∧ Within t) fun _ t => SmallFrames t

namespace Keeping

variable {α β : Type} {V : α → Prop} {W : β → Prop}

theorem bind {x : Action α} {f : α → Action β} (hx : Keeping V x) (hf : ∀ a, V a → Keeping W (f a)) :
    Keeping W (x >>= f) :=
  Triple.bind hx fun a s hs => hf a hs.1 s hs.2

theorem pure {a : α} (h : V a) : Keeping V (Pure.pure a : Action α) := Triple.pure fun _ hs => ⟨h,hs⟩

theorem throw (stop : Stop) : Keeping V (MonadExcept.throw stop : Action α) :=
  Triple.throw fun _ hs => hs.toSmallFrames

theorem ite {p : Prop} [Decidable p] {x y : Action α} (hx : p → Keeping V x) (hy : ¬ p → Keeping V y) :
    Keeping V (if p then x else y) := Triple.ite hx hy

theorem guard {p : Prop} [Decidable p] {code : ScriptError} {y : Action α} (hy : Keeping V y) :
    Keeping V (if p then throwScript code else y) := ite (fun _ => throw _) fun _ => hy

theorem get : Keeping (fun _ => True) (MonadState.get : Action Interpreter) :=
  Triple.get fun _ hs => ⟨trivial,hs⟩

theorem any {x : Action α} (h : Keeping V x) : Keeping (fun _ => True) x :=
  Triple.consequence h (fun _ hs => hs) (fun _ _ hs => ⟨trivial,hs.2⟩) fun _ _ he => he

theorem of_quiet {x : Action α} (h : Quiet x) : Keeping (fun _ => True) x := by
  intro s hs
  rcases h s with ⟨r,hr⟩ | ⟨stop,hr⟩
  · rw [hr]
    exact ⟨trivial,hs⟩
  · rw [hr]
    exact hs.toSmallFrames

end Keeping

section Primitives

variable {α β : Type} {W : β → Prop}

theorem lift_within (x : Except Stop α) : Keeping (fun _ => True) (lift x) := .of_quiet (.lift x)

theorem ensure_within (k : ℕ) : Keeping (fun _ => True) (ensureStackHasEnoughFrames k) :=
  Keeping.get.bind fun _ _ => .guard (.pure trivial)

theorem take_within : Keeping Small take := by
  rintro ⟨n,stack,alt,flags,cur,sep⟩ hs
  cases stack with
  | nil => exact hs.toSmallFrames
  | cons frame rest =>
    obtain ⟨hframe,hrest⟩ := List.forall_mem_cons.mp hs.stack
    exact ⟨hframe,⟨hrest,hs.altStack⟩,hs.opCount⟩

theorem top_within : Keeping Small top := by
  rintro ⟨n,stack,alt,flags,cur,sep⟩ hs
  cases stack with
  | nil => exact hs.toSmallFrames
  | cons frame rest => exact ⟨hs.stack frame List.mem_cons_self,hs⟩

theorem push_within {frame : StackFrame} (h : Small frame) : Keeping (fun _ => True) (push frame) :=
  Triple.modify fun _ hs => ⟨trivial,⟨List.forall_mem_cons.mpr ⟨h,hs.stack⟩,hs.altStack⟩,hs.opCount⟩

theorem pushNumber_within (n : ScriptNum) : Keeping (fun _ => True) (pushNumber n) := push_within (small_number n)

theorem pushBool_within (b : Bool) : Keeping (fun _ => True) (pushBool b) := pushNumber_within _

theorem pop_within : Keeping (fun _ => True) pop := take_within.bind fun _ _ => .pure trivial

theorem takeData_within : Keeping (fun d => d.length ≤ Script.MAX_SCRIPT_ELEMENT_SIZE) takeData :=
  take_within.bind fun _ hframe => .pure hframe

theorem topData_within : Keeping (fun d => d.length ≤ Script.MAX_SCRIPT_ELEMENT_SIZE) topData :=
  take_within.bind fun frame hframe =>
    (push_within (show Small (.data frame.asData) from hframe)).bind fun _ _ => .pure hframe

theorem takeNumber_within (env : Env) : Keeping (fun _ => True) (takeNumber env) :=
  take_within.bind fun _ _ => lift_within _

theorem takeIndex_within (env : Env) : Keeping (fun _ => True) (takeIndex env) :=
  (takeNumber_within env).bind fun _ _ => .pure trivial

theorem takeCount_within (env : Env) (bound : ℕ) (code : ScriptError) :
    Keeping (fun _ => True) (takeCount env bound code) :=
  (takeNumber_within env).bind fun _ _ => .guard (.pure trivial)

theorem pushNumberOrData_within (env : Env) {d : ScriptData} (h : d.length ≤ Script.MAX_SCRIPT_ELEMENT_SIZE) :
    Keeping (fun _ => True) (pushNumberOrData env d) :=
  .ite (fun _ => (lift_within _).bind fun n _ => pushNumber_within n) fun _ => push_within h

theorem verifyTop_within (code : ScriptError) : Keeping (fun _ => True) (verifyTop code) :=
  top_within.bind fun _ _ => .guard pop_within

theorem pushAll_within {frames : List StackFrame} (h : ∀ frame ∈ frames, Small frame) :
    Keeping (fun _ => True) (pushAll frames) := by
  induction frames with
  | nil => exact .pure trivial
  | cons frame frames ih =>
    obtain ⟨hframe,hframes⟩ := List.forall_mem_cons.mp h
    exact (push_within hframe).bind fun _ _ => ih hframes

theorem takeDatas_within (n : ℕ) : Keeping (fun _ => True) (takeDatas n) := by
  induction n with
  | zero => exact .pure trivial
  | succ n ih => exact takeData_within.bind fun _ _ => ih.bind fun _ _ => .pure trivial

theorem takeToTmp_within (n : Int32) : Keeping (fun tmp => ∀ frame ∈ tmp, Small frame) (takeToTmp n) := by
  intro s hs
  rw [takeToTmp_run]
  split_ifs
  · refine ⟨fun frame hframe => ?_,⟨fun frame hframe => ?_,hs.altStack⟩,hs.opCount⟩
    · exact hs.stack frame (List.mem_of_mem_take (List.mem_reverse.mp hframe))
    · exact hs.stack frame (List.mem_of_mem_drop hframe)
  · exact hs.toSmallFrames

/-- Operations over the limit are not carried out. -/
theorem countOps_within (n : ℕ) : Keeping (fun _ => True) (countOps n) := by
  intro s hs
  rw [countOps_run]
  split_ifs with hover
  · exact ⟨hs.stack,hs.altStack⟩
  · exact ⟨trivial,⟨hs.stack,hs.altStack⟩,Nat.le_of_not_lt hover⟩

theorem rearranges_within {k : ℕ} {order : List ℕ} {x : Action Unit} (h : Rearranges k order x) :
    Keeping (fun _ => True) x := by
  intro s hs
  rw [h s]
  split_ifs
  · exact hs.toSmallFrames
  · refine ⟨trivial,⟨fun frame hframe => ?_,hs.altStack⟩,hs.opCount⟩
    rcases List.mem_append.mp hframe with hmem | hmem
    · obtain ⟨i,-,hi⟩ := List.mem_filterMap.mp hmem
      exact hs.stack frame (List.mem_of_getElem? hi)
    · exact hs.stack frame (List.mem_of_mem_drop hmem)

end Primitives

section Handlers

variable (env : Env)

theorem opPushData_within (opCode : OpCode) {d : ScriptData} (h : d.length ≤ Script.MAX_SCRIPT_ELEMENT_SIZE) :
    Keeping (fun _ => True) (opPushData env opCode d) := .guard (pushNumberOrData_within env h)

theorem opCheckLockTimeVerify_within : Keeping (fun _ => True) (opCheckLockTimeVerify env) := by
  refine .ite (fun _ => .pure trivial) fun _ => ?_
  refine (ensure_within 1).bind fun _ _ => topData_within.bind fun data _ => (lift_within _).bind fun n _ => ?_
  exact .guard ((lift_within _).bind fun ok _ => .guard (.pure trivial))

theorem opCheckSequenceVerify_within : Keeping (fun _ => True) (opCheckSequenceVerify env) := by
  refine .ite (fun _ => .pure trivial) fun _ => ?_
  refine (ensure_within 1).bind fun _ _ => topData_within.bind fun data _ => (lift_within _).bind fun n _ => ?_
  refine .guard (.ite (fun _ => .pure trivial) fun _ => ?_)
  exact (lift_within _).bind fun ok _ => .guard (.pure trivial)

theorem opToAltStack_within : Keeping (fun _ => True) opToAltStack := by
  refine (ensure_within 1).bind fun _ _ => take_within.bind fun frame hframe => ?_
  exact Triple.modify fun _ hs => ⟨trivial,⟨hs.stack,List.forall_mem_cons.mpr ⟨hframe,hs.altStack⟩⟩,hs.opCount⟩

theorem opFromAltStack_within : Keeping (fun _ => True) opFromAltStack := by
  rintro ⟨n,stack,alt,flags,cur,sep⟩ hs
  cases alt with
  | nil => exact hs.toSmallFrames
  | cons frame rest =>
    obtain ⟨hframe,hrest⟩ := List.forall_mem_cons.mp hs.altStack
    exact ⟨trivial,⟨List.forall_mem_cons.mpr ⟨hframe,hs.stack⟩,hrest⟩,hs.opCount⟩

theorem opIfDup_within : Keeping (fun _ => True) opIfDup :=
  (ensure_within 1).bind fun _ _ => top_within.bind fun _ hx => .ite (fun _ => push_within hx) fun _ => .pure trivial

theorem opDepth_within : Keeping (fun _ => True) opDepth := Keeping.get.bind fun _ _ => pushNumber_within _

theorem opPick_within : Keeping (fun _ => True) (opPick env) := by
  refine (ensure_within 2).bind fun _ _ => (takeIndex_within env).bind fun n _ => (ensure_within _).bind fun _ _ => ?_
  refine (takeToTmp_within n).bind fun tmp htmp => top_within.bind fun xN hxN => ?_
  exact (pushAll_within htmp).bind fun _ _ => push_within hxN

theorem opRoll_within : Keeping (fun _ => True) (opRoll env) := by
  refine (ensure_within 2).bind fun _ _ => (takeIndex_within env).bind fun n _ => (ensure_within _).bind fun _ _ => ?_
  refine (takeToTmp_within n).bind fun tmp htmp => take_within.bind fun xN hxN => ?_
  exact (pushAll_within htmp).bind fun _ _ => push_within hxN

theorem opSize_within : Keeping (fun _ => True) opSize :=
  (ensure_within 1).bind fun _ _ => topData_within.bind fun _ _ => pushNumber_within _

theorem opEqual_within : Keeping (fun _ => True) opEqual :=
  (ensure_within 2).bind fun _ _ => takeData_within.bind fun _ _ => takeData_within.bind fun _ _ => pushBool_within _

theorem unaryNum_within (f : ScriptNum → Except ScriptError ScriptNum) :
    Keeping (fun _ => True) (unaryNum env f) :=
  (ensure_within 1).bind fun _ _ => (takeNumber_within env).bind fun _ _ =>
    (lift_within _).bind fun _ _ => pushNumber_within _

theorem binaryNum_within (f : ScriptNum → ScriptNum → ScriptNum) : Keeping (fun _ => True) (binaryNum env f) :=
  (ensure_within 2).bind fun _ _ => (takeNumber_within env).bind fun _ _ =>
    (takeNumber_within env).bind fun _ _ => pushNumber_within _

theorem opWithin_within : Keeping (fun _ => True) (opWithin env) :=
  (ensure_within 3).bind fun _ _ => (takeNumber_within env).bind fun _ _ =>
    (takeNumber_within env).bind fun _ _ => (takeNumber_within env).bind fun _ _ => pushBool_within _

theorem hashTop_within {h : Bytes → Bytes} (hlength : ∀ b, (h b).length ≤ Script.MAX_SCRIPT_ELEMENT_SIZE) :
    Keeping (fun _ => True) (hashTop h) :=
  (ensure_within 1).bind fun _ _ => takeData_within.bind fun _ _ => push_within (show Small (.data _) from hlength _)

theorem opCodeSeparator_within : Keeping (fun _ => True) (opCodeSeparator env) :=
  .guard (Triple.modify fun _ hs => ⟨trivial,⟨hs.stack,hs.altStack⟩,hs.opCount⟩)

theorem dropSignature_quiet (scriptCode : Bytes) (sig : ScriptData) : Quiet (dropSignature env scriptCode sig) :=
  .ite (.ite (.throw _) (.pure _)) (.pure _)

theorem opCheckSig_within : Keeping (fun _ => True) (opCheckSig env) := by
  refine (ensure_within 2).bind fun _ _ => takeData_within.bind fun pubKey _ => takeData_within.bind fun sig _ => ?_
  refine Keeping.get.bind fun s _ => (Keeping.of_quiet (dropSignature_quiet env _ sig)).bind fun code _ => ?_
  refine (Keeping.of_quiet (checkSignature_quiet env sig pubKey code)).bind fun isValid _ => ?_
  exact .guard (pushBool_within _)

theorem popDummy_within : Keeping (fun _ => True) (popDummy env) := by
  refine (ensure_within 1).bind fun _ _ => .ite (fun _ => ?_) fun _ => pop_within
  exact topData_within.bind fun _ _ => .guard pop_within

theorem opCheckMultiSig_within : Keeping (fun _ => True) (opCheckMultiSig env) := by
  refine (ensure_within 1).bind fun _ _ => (takeCount_within env _ _).bind fun keysCount _ => ?_
  refine (countOps_within _).bind fun _ _ => (ensure_within _).bind fun _ _ => (takeDatas_within _).bind fun keys _ => ?_
  refine (takeCount_within env _ _).bind fun sigsCount _ => (countOps_within _).bind fun _ _ => ?_
  refine (ensure_within _).bind fun _ _ => (takeDatas_within _).bind fun sigs _ => Keeping.get.bind fun s _ => ?_
  refine (Keeping.of_quiet (dropSignatures_quiet env sigs _)).bind fun code _ => ?_
  refine (Keeping.of_quiet (checkSignatures_quiet env code sigs keys)).bind fun fSuccess _ => ?_
  exact (popDummy_within env).bind fun _ _ => pushBool_within _

/-- A handler and the check of what it leaves on top. -/
theorem verify_within {x : Action Unit} (h : Keeping (fun _ => True) x) (code : ScriptError) :
    Keeping (fun _ => True) (do x; verifyTop code) := h.bind fun _ _ => verifyTop_within code

variable {env}

theorem cases_within (hcrypto : env.crypto.Sized) (opCode : OpCode) {d : ScriptData}
    (hd : d.length ≤ Script.MAX_SCRIPT_ELEMENT_SIZE) :
    ∀ c ∈ cases env opCode d, Keeping (fun _ => True) c.2 := by
  have order {k o x} (h : Rearranges k o x) : Keeping (fun _ => True) x := rearranges_within h
  have num (f) : Keeping (fun _ => True) (unaryNum env f) := unaryNum_within env f
  have nums (f) : Keeping (fun _ => True) (binaryNum env f) := binaryNum_within env f
  have hripemd : ∀ b, (env.crypto.ripemd160 b).length ≤ Script.MAX_SCRIPT_ELEMENT_SIZE :=
    fun b => (hcrypto.ripemd160 b).trans_le (by decide)
  have hsha1 : ∀ b, (env.crypto.sha1 b).length ≤ Script.MAX_SCRIPT_ELEMENT_SIZE :=
    fun b => (hcrypto.sha1 b).trans_le (by decide)
  have hsha256 : ∀ b, (env.crypto.sha256 b).length ≤ Script.MAX_SCRIPT_ELEMENT_SIZE :=
    fun b => (hcrypto.sha256 b).trans_le (by decide)
  simp only [cases,List.forall_mem_cons,List.not_mem_nil,IsEmpty.forall_iff,implies_true,and_true]
  exact ⟨.guard (pushNumberOrData_within env hd),.guard (push_within hd),.guard (push_within hd),pushNumber_within _,
    .pure trivial,opCheckLockTimeVerify_within env,opCheckSequenceVerify_within env,.guard (.pure trivial),
    verify_within (ensure_within 1) _,.throw _,opToAltStack_within,opFromAltStack_within,
    order op2Drop_rearranges,order op2Dup_rearranges,order op3Dup_rearranges,order op2Over_rearranges,
    order op2Rot_rearranges,order op2Swap_rearranges,opIfDup_within,opDepth_within,
    order opDrop_rearranges,order opDup_rearranges,order opNip_rearranges,order opOver_rearranges,
    opPick_within env,opRoll_within env,order opRot_rearranges,order opSwap_rearranges,
    order opTuck_rearranges,opSize_within,opEqual_within,verify_within opEqual_within _,
    num _,num _,num _,num _,num _,num _,nums _,nums _,nums _,nums _,nums _,verify_within (nums _) _,
    nums _,nums _,nums _,nums _,nums _,nums _,nums _,opWithin_within env,hashTop_within hripemd,
    hashTop_within hsha1,hashTop_within hsha256,hashTop_within fun b => hripemd _,hashTop_within fun b => hsha256 _,
    opCodeSeparator_within env,opCheckSig_within env,verify_within (opCheckSig_within env) _,
    opCheckMultiSig_within env,verify_within (opCheckMultiSig_within env) _⟩

theorem dispatch_within (hcrypto : env.crypto.Sized) (opCode : OpCode) {d : ScriptData}
    (hd : d.length ≤ Script.MAX_SCRIPT_ELEMENT_SIZE) : Keeping (fun _ => True) (dispatch env opCode d) :=
  dispatch_induction env (fun c hc _ => cases_within hcrypto opCode hd c hc) fun _ => .throw _

end Handlers

section Runs

variable {env : Env} {script : Bytes} {s₀ s t : Interpreter}

theorem pushFlag_within (flag : Bool) : Keeping (fun _ => True) (pushFlag flag) :=
  Triple.modify fun _ hs => ⟨trivial,⟨hs.stack,hs.altStack⟩,hs.opCount⟩

theorem opIf_within (opCode : OpCode) : Keeping (fun _ => True) (opIf env opCode) := by
  refine Keeping.get.bind fun s _ => .ite (fun _ => pushFlag_within _) fun _ => .guard ?_
  exact take_within.bind fun frame _ => .guard (pushFlag_within _)

theorem conditional_within (opCode : OpCode) : Keeping (fun _ => True) (conditional env opCode) := by
  refine .ite (fun _ => opIf_within opCode) fun _ => .ite (fun _ => ?_) fun _ => .ite (fun _ => ?_) fun _ =>
    .pure trivial
  all_goals
    rintro ⟨n,stack,alt,_ | ⟨flag,flags⟩,cur,sep⟩ hs
  · exact hs.toSmallFrames
  · exact ⟨trivial,⟨hs.stack,hs.altStack⟩,hs.opCount⟩
  · exact hs.toSmallFrames
  · exact ⟨trivial,⟨hs.stack,hs.altStack⟩,hs.opCount⟩

theorem sizeLimits_within : Keeping (fun _ => True) sizeLimits := Keeping.get.bind fun _ _ => .guard (.pure trivial)

/-- No instruction is fetched with more data than an element may have, executed or not. -/
theorem fetch_within : Keeping (fun i => i.2.length ≤ Script.MAX_SCRIPT_ELEMENT_SIZE) fetch := by
  intro s hs
  rw [fetch_run]
  rcases Script.getScriptOp s._curScriptPosition with ⟨_ | i,next⟩
  · exact hs.toSmallFrames
  · simp only [fetched]
    split_ifs with hsize hcounted hover
    · exact ⟨hs.stack,hs.altStack⟩
    · exact ⟨hs.stack,hs.altStack⟩
    · exact ⟨Nat.le_of_not_lt hsize,⟨hs.stack,hs.altStack⟩,Nat.le_of_not_lt hover⟩
    · exact ⟨Nat.le_of_not_lt hsize,⟨hs.stack,hs.altStack⟩,hs.opCount⟩

theorem carryOut_within (hcrypto : env.crypto.Sized) (opCode : OpCode) {d : ScriptData}
    (hd : d.length ≤ Script.MAX_SCRIPT_ELEMENT_SIZE) : Keeping (fun _ => True) (carryOut env opCode d) := by
  refine Keeping.get.bind fun s _ => .ite (fun _ => ?_) fun _ => .ite (fun _ => ?_) fun _ => sizeLimits_within
  · exact (conditional_within opCode).bind fun _ _ => sizeLimits_within
  · refine .ite (fun _ => opPushData_within env opCode hd) fun _ => ?_
    exact (dispatch_within hcrypto opCode hd).bind fun _ _ => sizeLimits_within

theorem step_within (hcrypto : env.crypto.Sized) : Keeping (fun _ => True) (step env) :=
  fetch_within.bind fun i hi => carryOut_within hcrypto i.1 hi

theorem loop_within (hcrypto : env.crypto.Sized) (fuel : ℕ) :
    Keeping (fun _ => True) (loop more (step env) fuel) := by
  induction fuel with
  | zero => exact .pure trivial
  | succ fuel ih =>
    exact Keeping.get.bind fun _ _ => .ite (fun _ => (step_within hcrypto).bind fun _ _ => ih) fun _ => .pure trivial

theorem body_within (hcrypto : env.crypto.Sized) (script : Bytes) : Keeping (fun _ => True) (body env script) := by
  refine .guard ((loop_within hcrypto _).bind fun _ _ => Keeping.get.bind fun _ _ => ?_)
  exact .guard (.pure trivial)

theorem start_within (h₀ : SmallFrames s₀) : Within (start script s₀) :=
  ⟨⟨h₀.stack,h₀.altStack⟩,Nat.zero_le _⟩

theorem reached_within (hcrypto : env.crypto.Sized) (h₀ : SmallFrames s₀) (h : Reached env script s₀ s) :
    Within s := by
  refine rounds_invariant (fun s t hs hround => ?_) (start_within h₀) h.2
  have hstep := step_within hcrypto s hs
  rw [hround.2] at hstep
  exact hstep.2

/-- The frames are small behind a call that returns, whatever it returns. -/
theorem execute_small (hcrypto : env.crypto.Sized) (h₀ : SmallFrames s₀) {result : Bool} {code : ScriptError}
    (h : execute env script s₀ = .returned result code t) : SmallFrames t := by
  have hbody := body_within hcrypto script (start script s₀) (start_within h₀)
  unfold execute at h
  rcases hrun : (body env script).run (start script s₀) with ⟨_,u⟩ | ⟨_ | _ | fault,u⟩
  all_goals
    rw [hrun] at hbody h
    simp only [Outcome.returned.injEq,reduceCtorEq] at h
  · obtain ⟨-,-,rfl⟩ := h
    exact hbody.2.toSmallFrames
  · obtain ⟨-,-,rfl⟩ := h
    exact hbody
  · obtain ⟨-,-,rfl⟩ := h
    exact hbody

/-- Frames on both stacks and bytes of the script that are left: direct pushes turn these into those, and no
other instruction leaves more frames than the limit. -/
theorem depth_left (h : Reached env script s₀ s) :
    depth s + left s ≤ max (depth s₀) Script.MAX_STACK_SIZE + script.length := by
  have hall : left s ≤ script.length ∧
      depth s + left s ≤ max (depth s₀) Script.MAX_STACK_SIZE + script.length := by
    refine rounds_invariant (I := fun s => left s ≤ script.length ∧
      depth s + left s ≤ max (depth s₀) Script.MAX_STACK_SIZE + script.length) (fun s t hs hround => ?_) ?_ h.2
    · have hleft := left_decreases env s t hround
      rcases step_depth hround.2 with ⟨hdepth,-⟩ | ⟨hdepth,-⟩
      all_goals omega
    · exact ⟨Nat.le_refl _,Nat.add_le_add_right (Nat.le_max_left _ _) _⟩
  exact hall.2

/-- The bytes of all frames. -/
def held (s : Interpreter) : ℕ := ((s._stack ++ s._altStack).map fun frame => frame.asData.length).sum

theorem held_le (h : SmallFrames s) : held s ≤ Script.MAX_SCRIPT_ELEMENT_SIZE * depth s := by
  have hsum := List.sum_le_card_nsmul ((s._stack ++ s._altStack).map fun frame => frame.asData.length)
    Script.MAX_SCRIPT_ELEMENT_SIZE (fun n hn => by
      obtain ⟨frame,hframe,rfl⟩ := List.mem_map.mp hn
      rcases List.mem_append.mp hframe with hmem | hmem
      · exact h.stack frame hmem
      · exact h.altStack frame hmem)
  simp only [List.length_map,List.length_append,smul_eq_mul] at hsum
  rw [Nat.mul_comm]
  exact hsum

/-- One call behind another on the same interpreter, which keeps its stacks. -/
def Called (env : Env) (s t : Interpreter) : Prop :=
  ∃ script result code, execute env script s = .returned result code t

theorem called_small (hcrypto : env.crypto.Sized) (h : Relation.ReflTransGen (Called env) fresh s) :
    SmallFrames s := by
  induction h with
  | refl => exact ⟨nofun,nofun⟩
  | tail _ hcall ih =>
    obtain ⟨script,result,code,hcall⟩ := hcall
    exact execute_small hcrypto ih hcall

/-- What a script can hold. In any state that a call reaches, behind any calls before it, no frame has more
bytes than the source allows an element, no more operations than allowed were counted, and there are at most
as many frames as the script has read bytes beyond those at its start or the limit. -/
theorem resources_limited (env : Env) (hcrypto : env.crypto.Sized) (script : Bytes) (s₀ s : Interpreter)
    (hcalls : Relation.ReflTransGen (Called env) fresh s₀) (hr : Reached env script s₀ s) :
    (∀ frame ∈ s._stack ++ s._altStack, frame.asData.length ≤ Script.MAX_SCRIPT_ELEMENT_SIZE) ∧
      s._opCount ≤ Script.MAX_OPS_PER_SCRIPT ∧
      depth s + left s ≤ max (depth s₀) Script.MAX_STACK_SIZE + script.length ∧
      held s ≤ Script.MAX_SCRIPT_ELEMENT_SIZE *
        (max (depth s₀) Script.MAX_STACK_SIZE + Script.MAX_SCRIPT_SIZE) := by
  have hs := reached_within hcrypto (called_small hcrypto hcalls) hr
  have hdepth := depth_left hr
  have hsize := hr.1
  refine ⟨fun frame hframe => ?_,hs.opCount,hdepth,(held_le hs.toSmallFrames).trans ?_⟩
  · rcases List.mem_append.mp hframe with hmem | hmem
    · exact hs.stack frame hmem
    · exact hs.altStack frame hmem
  · exact Nat.mul_le_mul_left _ (by omega)

/-- Digests of zeros. -/
def zeros : Env := ⟨fun _ => false,refusing,.base,⟨fun _ => .replicate 20 0,fun _ => .replicate 20 0,
  fun _ => .replicate 32 0⟩⟩

theorem resources_limited_op0 : depth (start [0x00] fresh) + left (start [0x00] fresh) ≤
    max (depth fresh) Script.MAX_STACK_SIZE + 1 :=
  (resources_limited zeros ⟨fun _ => rfl,fun _ => rfl,fun _ => rfl⟩ [0x00] fresh (start [0x00] fresh) .refl
    ⟨by decide,.refl⟩).2.2.1

end Runs

end Interpreter
end Tkeycoin
