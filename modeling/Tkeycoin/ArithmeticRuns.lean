import Tkeycoin.NumericRange

/-! Runs and the range of operands: when every operand of an arithmetic opcode is
in the range, and where the operands outside of it come from. -/
namespace Tkeycoin

open ActionLogic

namespace Interpreter

open ScriptNum

section Step

variable (env : Env)

theorem pushFlag_keeps (flag : Bool) : KeepsRange (pushFlag flag) :=
  Triple.modify fun _ hs => ⟨trivial,hs.stack,hs.alt⟩

theorem opIf_keeps (opCode : OpCode) : KeepsRange (opIf env opCode) :=
  Keeps.get.bind fun _ _ => Keeps.ite (pushFlag_keeps _) (Keeps.ite (Keeps.throw _)
    (take_keeps.bind fun _ _ => Keeps.guard (pushFlag_keeps _)))

theorem opElse_keeps : KeepsRange opElse := by
  rintro ⟨n,stack,alt,_ | ⟨flag,fl⟩,cur,sep⟩ hs
  · exact trivial
  · exact ⟨trivial,hs.stack,hs.alt⟩

theorem opEndIf_keeps : KeepsRange opEndIf := by
  rintro ⟨n,stack,alt,_ | ⟨flag,fl⟩,cur,sep⟩ hs
  · exact trivial
  · exact ⟨trivial,hs.stack,hs.alt⟩

theorem conditional_keeps (opCode : OpCode) : KeepsRange (conditional env opCode) :=
  Keeps.ite (opIf_keeps env opCode) (Keeps.ite opElse_keeps (Keeps.ite opEndIf_keeps (Keeps.pure trivial)))

theorem sizeLimits_keeps : KeepsRange sizeLimits := Keeps.get.bind fun _ _ => Keeps.guard (Keeps.pure trivial)

theorem dispatch_keeps (opCode : OpCode) (d : ScriptData) : KeepsUnless env opCode (dispatch env opCode d) :=
  dispatch_induction env (cases_keeps env opCode d) fun _ => .of_keeps env (Keeps.throw _)

/-- Stacks past their limit do not get through the check behind a dispatch. -/
theorem dispatch_sizeLimits_keeps (opCode : OpCode) (d : ScriptData) :
    Triple (fun s => Bounded s ∧ ¬ LeavesRange env opCode s) (do dispatch env opCode d; sizeLimits)
      (fun _ t => Bounded t) fun _ _ => True := by
  refine Triple.bind (dispatch_keeps env opCode d) fun _ s hs => ?_
  rw [sizeLimits_run]
  split_ifs with h
  · exact trivial
  · exact hs.resolve_right h

/-- An executed instruction is about to leave a number outside the range. -/
def LeavesAhead (s : Interpreter) : Prop :=
  ∃ i t, fetch.run s = .ok i t ∧ mustExecuted t = true ∧ LeavesRange env i.1 t

variable {script : Bytes} {s₀ s t : Interpreter}

theorem fetch_bounded {i : OpCode × ScriptData} (h : fetch.run s = .ok i t) (hs : Bounded s) : Bounded t := by
  rw [(fetch_ok h).2]
  exact ⟨hs.stack,hs.alt⟩

/-- Carrying an instruction out keeps the range unless the instruction leaves it. -/
theorem carryOut_bounded (opCode : OpCode) (d : ScriptData) :
    Triple (fun s => Bounded s ∧ (mustExecuted s = true → ¬ LeavesRange env opCode s))
      (carryOut env opCode d) (fun _ t => Bounded t) fun _ _ => True := by
  have plain {x : Action Unit} (h : KeepsRange x) : Triple Bounded x (fun _ t => Bounded t) fun _ _ => True :=
    Triple.consequence h (fun _ hs => hs) (fun _ _ ht => ht.2) fun _ _ he => he
  rintro s ⟨hs,hleaves⟩
  rw [carryOut_run]
  by_cases hcond : OpCode.opIf ≤ opCode ∧ opCode ≤ OpCode.opEndIf
  · rw [if_pos hcond]
    exact plain ((conditional_keeps env opCode).bind fun _ _ => sizeLimits_keeps) s hs
  rw [if_neg hcond]
  by_cases hm : mustExecuted s = true
  · rw [if_pos hm]
    by_cases hpush : opCode < OpCode.opPushData1
    · rw [if_pos hpush]
      exact plain (opPushData_keeps env opCode d) s hs
    · rw [if_neg hpush]
      exact dispatch_sizeLimits_keeps env opCode d s ⟨hs,hleaves hm⟩
  · rw [if_neg hm]
    exact plain sizeLimits_keeps s hs

variable {env}

/-- A round keeps the range unless its instruction leaves it. -/
theorem step_bounded (hs : Bounded s) (hleaves : ¬ LeavesAhead env s) (h : (step env).run s = .ok () t) :
    Bounded t := by
  rw [step,run_bind_andThen] at h
  cases hf : fetch.run s with
  | error e v => rw [hf] at h; cases h
  | ok i v =>
    rw [hf] at h
    change (carryOut env i.1 i.2).run v = .ok () t at h
    have hcarry := carryOut_bounded env i.1 i.2 v
      ⟨fetch_bounded hf hs,fun hm hl => hleaves ⟨i,v,hf,hm,hl⟩⟩
    rw [h] at hcarry
    exact hcarry

/-- A run in which no instruction leaves the range stays within it. -/
theorem reached_bounded (h₀ : Bounded s₀) (hleaves : ∀ s, Reached env script s₀ s → ¬ LeavesAhead env s)
    (h : Reached env script s₀ s) : Bounded s := by
  obtain ⟨hlen,hr⟩ := h
  induction hr with
  | refl => exact ⟨h₀.stack,h₀.alt⟩
  | @tail s t hr hround ih => exact step_bounded ih (hleaves s ⟨hlen,hr⟩) hround.2

end Step

section Operands

variable (env : Env)

/-- The next instruction is an arithmetic opcode with `k` operands, to be executed in `t`. -/
def ArithmeticAhead (s : Interpreter) (opCode : OpCode) (k : ℕ) (t : Interpreter) : Prop :=
  (∃ d, fetch.run s = .ok (opCode,d) t) ∧ mustExecuted t = true ∧ arity opCode = some k

/-- In a run every arithmetic opcode has its operands in the range and its result
within 64 bits, or the script is rejected for want of operands. -/
def OperandsInRange (script : Bytes) (s₀ : Interpreter) : Prop :=
  ∀ s opCode k t, Reached env script s₀ s → ArithmeticAhead s opCode k t →
    match numbers env k t._stack with
    | none => ∃ code u, execute env script s₀ = .returned false code u
    | some vs => (∀ v ∈ vs, ScriptNum.InRange v._value.toInt) ∧ InInt64 (exactResult opCode vs)

/-- An arithmetic opcode with its operands is about to take a frame that holds a
number outside the range. -/
def TakesWide (s : Interpreter) : Prop :=
  ∃ opCode k t, ArithmeticAhead s opCode k t ∧ (numbers env k t._stack).isSome ∧
    ∃ n, StackFrame.number n ∈ t._stack.take k ∧ ¬ ScriptNum.InRange n._value.toInt

variable {env}

/-- The operands are in the range exactly when the frames they come from are. -/
theorem numbers_inRange_iff {k : ℕ} {stack : Stack} {vs : List ScriptNum} (h : numbers env k stack = some vs) :
    (∀ v ∈ vs, ScriptNum.InRange v._value.toInt) ↔ ∀ frame ∈ stack.take k, frame.InRange := by
  induction k generalizing stack vs with
  | zero =>
    obtain rfl : [] = vs := by simpa [numbers] using h
    simp
  | succ k ih =>
    cases stack with
    | nil => simp [numbers] at h
    | cons frame rest =>
      rw [numbers] at h
      cases hn : frame.asNumber (env.isSet .minimalData) with
      | error code => simp [hn] at h
      | ok n =>
        obtain ⟨ns,hns,rfl⟩ : ∃ ns, numbers env k rest = some ns ∧ n :: ns = vs := by simpa [hn] using h
        have hframe : ScriptNum.InRange n._value.toInt ↔ frame.InRange := by
          refine ⟨fun hr => ?_,fun hr => asNumber_inRange hr hn⟩
          cases frame with
          | number m =>
            obtain rfl : m = n := by simpa [StackFrame.asNumber] using hn
            exact hr
          | data d => exact trivial
        simp [hframe,ih hns]

theorem ite_inInt64 {p : Prop} [Decidable p] {a b : ℤ} (ha : InInt64 a) (hb : InInt64 b) :
    InInt64 (if p then a else b) := by
  split_ifs
  · exact ha
  · exact hb

theorem truth_inInt64 (p : Prop) [Decidable p] : InInt64 (truth p) := ite_inInt64 (by decide) (by decide)

theorem abs_inRange {n : ℤ} (h : ScriptNum.InRange n) : ScriptNum.InRange |n| := by
  have habs : |n| ≤ 2^31-1 := abs_le.mpr h
  exact ⟨(by decide : -(2^31-1 : ℤ) ≤ 0).trans (abs_nonneg n),habs⟩

/-- With operands in the range no result comes near the ends of 64 bits. -/
theorem exactResult_inInt64 (opCode : OpCode) {vs : List ScriptNum}
    (h : ∀ v ∈ vs, ScriptNum.InRange v._value.toInt) : InInt64 (exactResult opCode vs) := by
  rcases vs with _ | ⟨v3,_ | ⟨v2,_ | ⟨v1,_ | ⟨v0,rest⟩⟩⟩⟩
  · exact (by decide : InInt64 0)
  · have h3 : ScriptNum.InRange v3._value.toInt := h v3 (by simp)
    have hadd : InInt64 (v3._value.toInt + 1) := by simp only [ScriptNum.InRange,InInt64] at *; omega
    have hsub : InInt64 (v3._value.toInt - 1) := by simp only [ScriptNum.InRange,InInt64] at *; omega
    have hneg : InInt64 (-v3._value.toInt) := by simp only [ScriptNum.InRange,InInt64] at *; omega
    exact ite_inInt64 hadd (ite_inInt64 hsub (ite_inInt64 hneg (ite_inInt64 (abs_inRange h3).inInt64
      (ite_inInt64 (truth_inInt64 _) (truth_inInt64 _)))))
  · have h2 : ScriptNum.InRange v3._value.toInt := h v3 (by simp)
    have h1 : ScriptNum.InRange v2._value.toInt := h v2 (by simp)
    have hadd : InInt64 (v2._value.toInt + v3._value.toInt) := by
      simp only [ScriptNum.InRange,InInt64] at *
      omega
    have hsub : InInt64 (v2._value.toInt - v3._value.toInt) := by
      simp only [ScriptNum.InRange,InInt64] at *
      omega
    have hmin : InInt64 (min v2._value.toInt v3._value.toInt) := by
      rw [min_def]
      exact ite_inInt64 h1.inInt64 h2.inInt64
    have hmax : InInt64 (max v2._value.toInt v3._value.toInt) := by
      rw [max_def]
      exact ite_inInt64 h2.inInt64 h1.inInt64
    exact ite_inInt64 hadd (ite_inInt64 hsub (ite_inInt64 (truth_inInt64 _) (ite_inInt64 (truth_inInt64 _)
      (ite_inInt64 (truth_inInt64 _) (ite_inInt64 (truth_inInt64 _) (ite_inInt64 (truth_inInt64 _)
      (ite_inInt64 (truth_inInt64 _) (ite_inInt64 (truth_inInt64 _) (ite_inInt64 (truth_inInt64 _)
      (ite_inInt64 hmin hmax))))))))))
  · exact truth_inInt64 _
  · exact (by decide : InInt64 0)

/-- Arithmetic opcodes are dispatched. -/
theorem arity_dispatched {opCode : OpCode} {k : ℕ} (h : arity opCode = some k) :
    ¬ (OpCode.opIf ≤ opCode ∧ opCode ≤ OpCode.opEndIf) ∧ ¬ opCode < OpCode.opPushData1 := by
  have hall : ∀ c : OpCode, (arity c).isSome = true →
      ¬ (OpCode.opIf ≤ c ∧ c ≤ OpCode.opEndIf) ∧ ¬ c < OpCode.opPushData1 :=
    ScriptNum.forall_byte (by decide)
  exact hall opCode (by simp [h])

theorem step_of_arithmetic (env : Env) {s t : Interpreter} {opCode : OpCode} {k : ℕ} (h : ArithmeticAhead s opCode k t) :
    ∃ d, (step env).run s = (do dispatch env opCode d; sizeLimits).run t := by
  obtain ⟨⟨d,hf⟩,hm,hk⟩ := h
  have hstep : (step env).run s = (carryOut env opCode d).run t := run_bind_ok hf
  refine ⟨d,?_⟩
  rw [hstep,carryOut_run,if_neg (arity_dispatched hk).1,if_pos hm,if_neg (arity_dispatched hk).2]

variable {script : Bytes} {s₀ : Interpreter}

/-- Operands that cannot be had end the call. -/
theorem execute_without_operands {s t : Interpreter} {opCode : OpCode} {k : ℕ}
    (hr : Reached env script s₀ s) (h : ArithmeticAhead s opCode k t)
    (hn : numbers env k t._stack = none) : ∃ code u, execute env script s₀ = .returned false code u := by
  obtain ⟨d,hstep⟩ := step_of_arithmetic env h
  have hcomputes := dispatch_computes env d h.2.2 t
  simp only [hn] at hcomputes
  obtain ⟨code,u,hu⟩ := hcomputes
  have herr : (step env).run s = .error (.script code) u := by
    rw [hstep]
    exact run_bind_error hu
  obtain ⟨⟨_,hf⟩,-⟩ := h
  exact ⟨code,u,execute_of_step_error hr (more_of_fetch hf) herr⟩

theorem operandsInRange_of_narrow (h : ∀ s, Reached env script s₀ s → ¬ TakesWide env s) :
    OperandsInRange env script s₀ := by
  intro s opCode k t hr hahead
  cases hn : numbers env k t._stack with
  | none => exact execute_without_operands hr hahead hn
  | some vs =>
    have hframes : ∀ frame ∈ t._stack.take k, frame.InRange := by
      intro frame hf
      cases frame with
      | data d => exact trivial
      | number n =>
        by_contra hc
        exact h s hr ⟨opCode,k,t,hahead,by simp [hn],n,hf,hc⟩
    have hrange := (numbers_inRange_iff hn).mpr hframes
    exact ⟨hrange,exactResult_inInt64 opCode hrange⟩

theorem narrow_of_operandsInRange (h : OperandsInRange env script s₀) {s : Interpreter}
    (hr : Reached env script s₀ s) : ¬ TakesWide env s := by
  rintro ⟨opCode,k,t,hahead,hsome,n,hn,hwide⟩
  obtain ⟨vs,hvs⟩ := Option.isSome_iff_exists.mp hsome
  have hp := h s opCode k t hr hahead
  simp only [hvs] at hp
  exact hwide ((numbers_inRange_iff hvs).mp hp.1 _ hn)

theorem not_takesWide_of_bounded {s : Interpreter} (h : Bounded s) : ¬ TakesWide env s := by
  rintro ⟨opCode,k,t,⟨⟨d,hf⟩,-⟩,-,n,hn,hwide⟩
  exact hwide ((fetch_bounded hf h).stack _ (List.mem_of_mem_take hn))

end Operands

section Restriction

/-- Arithmetic is restricted to the range exactly when no arithmetic opcode takes a
number that is outside of it already. No such number is there as long as 1ADD, 1SUB,
ADD, SUB and SIZE leave none. -/
theorem operandsInRange_iff (env : Env) (script : Bytes) (s₀ : Interpreter) (h₀ : Bounded s₀) :
    (OperandsInRange env script s₀ ↔ ∀ s, Reached env script s₀ s → ¬ TakesWide env s) ∧
      ((∀ s, Reached env script s₀ s → ¬ LeavesAhead env s) → OperandsInRange env script s₀) := by
  refine ⟨⟨fun h s hr => narrow_of_operandsInRange h hr,operandsInRange_of_narrow⟩,fun h => ?_⟩
  exact operandsInRange_of_narrow fun s hr => not_takesWide_of_bounded (reached_bounded h₀ h hr)

theorem operandsInRange_iff_op1Add :
    (OperandsInRange (.ofFlags .empty refusing .base ⟨id,id,id⟩) [OpCode.op1,OpCode.op1Add] fresh ↔
        ∀ s, Reached (.ofFlags .empty refusing .base ⟨id,id,id⟩) [OpCode.op1,OpCode.op1Add] fresh s →
          ¬ TakesWide (.ofFlags .empty refusing .base ⟨id,id,id⟩) s) ∧
      ((∀ s, Reached (.ofFlags .empty refusing .base ⟨id,id,id⟩) [OpCode.op1,OpCode.op1Add] fresh s →
          ¬ LeavesAhead (.ofFlags .empty refusing .base ⟨id,id,id⟩) s) →
        OperandsInRange (.ofFlags .empty refusing .base ⟨id,id,id⟩) [OpCode.op1,OpCode.op1Add] fresh) :=
  operandsInRange_iff _ _ fresh ⟨nofun,nofun⟩

/-- `n` times DUP ADD. -/
def doublings : ℕ → Bytes
  | 0 => []
  | n+1 => OpCode.opDup :: OpCode.opAdd :: doublings n

/-- An executed opcode without data, within the limit of operations. -/
theorem step_plain (env : Env) {opCode : OpCode} (ops : ℕ) (stack : Stack) (rest sep : Bytes)
    (hread : Script.getScriptOp (opCode :: rest) = (some (opCode,[]),rest)) (hop : opCode > OpCode.opEndIf)
    (hops : ops + 1 ≤ Script.MAX_OPS_PER_SCRIPT) :
    (step env).run ⟨ops,stack,[],[],opCode :: rest,sep⟩ =
      (do dispatch env opCode []; sizeLimits).run ⟨ops+1,stack,[],[],rest,sep⟩ := by
  have hlarge : opCode > OpCode.op16 := UInt8.lt_trans (by decide) hop
  have hcond : ¬ (OpCode.opIf ≤ opCode ∧ opCode ≤ OpCode.opEndIf) := fun h => UInt8.not_lt.mpr h.2 hop
  have hpush : ¬ opCode < OpCode.opPushData1 := fun h =>
    UInt8.lt_irrefl _ (UInt8.lt_trans (UInt8.lt_trans h (by decide)) hop)
  have hf : fetch.run ⟨ops,stack,[],[],opCode :: rest,sep⟩ = .ok (opCode,[]) ⟨ops+1,stack,[],[],rest,sep⟩ := by
    have hlimit : ¬ ops + 1 > Script.MAX_OPS_PER_SCRIPT := by omega
    simp only [fetch_run,hread,fetched,if_pos hlarge,if_neg hlimit]
    rfl
  have hstep : (step env).run ⟨ops,stack,[],[],opCode :: rest,sep⟩ =
      (carryOut env opCode []).run ⟨ops+1,stack,[],[],rest,sep⟩ := run_bind_ok hf
  have hm : mustExecuted ⟨ops+1,stack,[],[],rest,sep⟩ = true := rfl
  rw [hstep,carryOut_run,if_neg hcond,if_pos hm,if_neg hpush]

/-- One doubling of the number on the stack. -/
theorem rounds_double (env : Env) (ops : ℕ) (v : Int64) (rest sep : Bytes)
    (h : ops + 2 ≤ Script.MAX_OPS_PER_SCRIPT) :
    Rounds more (step env) ⟨ops,[.number ⟨v⟩],[],[],OpCode.opDup :: OpCode.opAdd :: rest,sep⟩
      ⟨ops+2,[.number ⟨v+v⟩],[],[],rest,sep⟩ := by
  have hdup := step_plain env ops [.number ⟨v⟩] (OpCode.opAdd :: rest) sep
    (show Script.getScriptOp (OpCode.opDup :: OpCode.opAdd :: rest) = _ from rfl) (by decide) (by omega)
  have hadd := step_plain env (ops+1) [.number ⟨v⟩,.number ⟨v⟩] rest sep
    (show Script.getScriptOp (OpCode.opAdd :: rest) = _ from rfl) (by decide) (by omega)
  exact .tail (.tail .refl ⟨rfl,hdup⟩) ⟨rfl,hadd⟩

/-- The numbers double as they do in 64 bits. -/
theorem rounds_doublings (env : Env) (n ops : ℕ) (z : ℤ) (rest sep : Bytes)
    (h : ops + 2 * n ≤ Script.MAX_OPS_PER_SCRIPT) :
    Rounds more (step env) ⟨ops,[.number ⟨Int64.ofInt z⟩],[],[],doublings n ++ rest,sep⟩
      ⟨ops+2*n,[.number ⟨Int64.ofInt (z*2^n)⟩],[],[],rest,sep⟩ := by
  induction n generalizing ops z with
  | zero => simpa [doublings] using Relation.ReflTransGen.refl
  | succ n ih =>
    have hfirst := rounds_double env ops (Int64.ofInt z) (doublings n ++ rest) sep (by omega)
    have hrest := ih (ops+2) (z+z) (by omega)
    rw [← Int64.ofInt_add] at hfirst
    have hops : ops + 2 + 2 * n = ops + 2 * (n+1) := by omega
    have hz : (z + z) * 2^n = z * 2^(n+1) := by ring
    rw [hops,hz] at hrest
    exact hfirst.trans hrest

/-- The largest operand, doubled thirty-three times. -/
def doublingScript : Bytes := [0x04,0xff,0xff,0xff,0x7f] ++ doublings 33

/-- Behind the push and the first `n` doublings. -/
theorem reached_doublings (n : ℕ) (rest : Bytes) (h : doublings n ++ rest = doublings 33)
    (hops : 2 * n ≤ Script.MAX_OPS_PER_SCRIPT) :
    Reached (.ofFlags .empty refusing .base ⟨id,id,id⟩) doublingScript fresh
      ⟨0+2*n,[.number ⟨Int64.ofInt (2147483647 * 2^n)⟩],[],[],rest,doublingScript⟩ := by
  have hpush : Round more (step (.ofFlags .empty refusing .base ⟨id,id,id⟩)) (start doublingScript fresh)
      ⟨0,[.number ⟨Int64.ofInt 2147483647⟩],[],[],doublings n ++ rest,doublingScript⟩ := by
    rw [h]
    exact ⟨rfl,rfl⟩
  exact ⟨by decide,.head hpush (rounds_doublings _ n 0 2147483647 rest doublingScript (by omega))⟩

/-- Once the largest operand is incremented, the next increment works on `2^31`. After
thirty-two doublings of it the next sum does not fit 64 bits. Both scripts are accepted. -/
theorem wide_operand_accepted :
    (¬ OperandsInRange (.ofFlags .empty refusing .base ⟨id,id,id⟩)
        [0x04,0xff,0xff,0xff,0x7f,OpCode.op1Add,OpCode.op1Add] fresh ∧
      ∃ t, execute (.ofFlags .empty refusing .base ⟨id,id,id⟩)
        [0x04,0xff,0xff,0xff,0x7f,OpCode.op1Add,OpCode.op1Add] fresh = .returned true .ok t) ∧
    ∃ s t vs, Reached (.ofFlags .empty refusing .base ⟨id,id,id⟩) doublingScript fresh s ∧
      ArithmeticAhead s OpCode.opAdd 2 t ∧
      numbers (.ofFlags .empty refusing .base ⟨id,id,id⟩) 2 t._stack = some vs ∧
      ¬ InInt64 (exactResult OpCode.opAdd vs) ∧
      ∃ u, execute (.ofFlags .empty refusing .base ⟨id,id,id⟩) doublingScript fresh = .returned true .ok u := by
  refine ⟨⟨fun h => ?_,_,rfl⟩,?_⟩
  · have hp := h ⟨1,[.number ⟨2147483648⟩],[],[],[OpCode.op1Add],
        [0x04,0xff,0xff,0xff,0x7f,OpCode.op1Add,OpCode.op1Add]⟩ OpCode.op1Add 1
      ⟨2,[.number ⟨2147483648⟩],[],[],[],[0x04,0xff,0xff,0xff,0x7f,OpCode.op1Add,OpCode.op1Add]⟩
      ⟨by decide,.tail (.tail .refl ⟨rfl,rfl⟩) ⟨rfl,rfl⟩⟩ ⟨⟨[],rfl⟩,rfl,rfl⟩
    exact absurd (hp.1 ⟨2147483648⟩ (by decide)) (by decide)
  · have hbefore := reached_doublings 32 [OpCode.opDup,OpCode.opAdd] rfl (by decide)
    have hend := reached_doublings 33 [] rfl (by decide)
    have hdup : Round more (step (.ofFlags .empty refusing .base ⟨id,id,id⟩))
        ⟨0+2*32,[.number ⟨Int64.ofInt (2147483647 * 2^32)⟩],[],[],[OpCode.opDup,OpCode.opAdd],doublingScript⟩
        ⟨65,[.number ⟨Int64.ofInt (2147483647 * 2^32)⟩,.number ⟨Int64.ofInt (2147483647 * 2^32)⟩],[],[],
          [OpCode.opAdd],doublingScript⟩ := ⟨rfl,rfl⟩
    exact ⟨_,⟨66,_,[],[],[],doublingScript⟩,_,⟨hbefore.1,hbefore.2.tail hdup⟩,⟨⟨[],rfl⟩,rfl,rfl⟩,rfl,
      by decide,_,execute_of_end hend rfl rfl⟩

end Restriction
end Interpreter
end Tkeycoin
