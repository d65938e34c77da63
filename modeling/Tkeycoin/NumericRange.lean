import Tkeycoin.Arithmetic
import Tkeycoin.StackLimit

/-! Which numbers reach the arithmetic opcodes: bytes are checked when they are
converted, a frame that holds a number already is not. -/
namespace Tkeycoin

open ActionLogic

/-- A number in a frame is in the range. Bytes are none yet. -/
def StackFrame.InRange : StackFrame → Prop
  | .number n => ScriptNum.InRange n._value.toInt
  | .data _ => True

namespace Interpreter

open ScriptNum

/-- Every number on the two stacks is in the range. -/
structure Bounded (s : Interpreter) : Prop where
  stack : ∀ frame ∈ s._stack, frame.InRange
  alt : ∀ frame ∈ s._altStack, frame.InRange

/-- The action keeps numbers in the range, and what it returns satisfies `V`. -/
def Keeps {α : Type} (V : α → Prop) (x : Action α) : Prop :=
  Triple Bounded x (fun r t => V r ∧ Bounded t) fun _ _ => True

namespace Keeps

variable {α β : Type} {V : α → Prop} {W : β → Prop}

theorem bind {x : Action α} {f : α → Action β} (hx : Keeps V x) (hf : ∀ r, V r → Keeps W (f r)) :
    Keeps W (x >>= f) :=
  Triple.bind hx fun r s hs => hf r hs.1 s hs.2

theorem mono {V' : α → Prop} {x : Action α} (h : Keeps V x) (hV : ∀ r, V r → V' r) : Keeps V' x :=
  Triple.consequence h (fun _ hs => hs) (fun r _ hs => ⟨hV r hs.1,hs.2⟩) fun _ _ he => he

theorem pure {r : α} (h : V r) : Keeps V (Pure.pure r : Action α) := Triple.pure fun _ hs => ⟨h,hs⟩

theorem throw (stop : Stop) : Keeps V (MonadExcept.throw stop : Action α) := Triple.throw fun _ _ => trivial

theorem get : Keeps Bounded (MonadState.get : Action Interpreter) := Triple.get fun _ hs => ⟨hs,hs⟩

theorem ite {p : Prop} [Decidable p] {x y : Action α} (hx : Keeps V x) (hy : Keeps V y) :
    Keeps V (if p then x else y) :=
  Triple.ite (fun _ => hx) fun _ => hy

theorem guard {p : Prop} [Decidable p] {code : ScriptError} {y : Action α} (hy : Keeps V y) :
    Keeps V (if p then throwScript code else y) :=
  ite (throw _) hy

theorem lift (x : Except Stop α) : Keeps (x = .ok ·) (Interpreter.lift x) := by
  cases x with
  | ok r => exact pure rfl
  | error stop => exact throw stop

theorem liftScript (x : Except ScriptError α) : Keeps (x = .ok ·) (Interpreter.liftScript x) := by
  cases x with
  | ok r => exact pure rfl
  | error code => exact throw _

/-- An action that leaves the state alone. -/
theorem of_quiet {x : Action α} (h : Quiet x) : Keeps (fun _ => True) x := by
  intro s hs
  rcases h s with ⟨r,hr⟩ | ⟨stop,hr⟩
  · simpa [hr] using hs
  · simp [hr]

end Keeps

/-- What is kept by an action without a result. -/
abbrev KeepsRange (x : Action Unit) : Prop := Keeps (fun _ => True) x

section Primitives

theorem ensure_keeps (k : ℕ) : KeepsRange (ensureStackHasEnoughFrames k) :=
  Keeps.get.bind fun _ _ => Keeps.guard (Keeps.pure trivial)

theorem take_keeps : Keeps StackFrame.InRange take := by
  rintro ⟨n,_ | ⟨frame,rest⟩,alt,fl,cur,sep⟩ hs
  · exact trivial
  · exact ⟨hs.stack frame (by simp),fun f hf => hs.stack f (List.mem_cons_of_mem _ hf),hs.alt⟩

theorem top_keeps : Keeps StackFrame.InRange top := by
  rintro ⟨n,_ | ⟨frame,rest⟩,alt,fl,cur,sep⟩ hs
  · exact trivial
  · exact ⟨hs.stack frame (by simp),hs⟩

theorem push_keeps {frame : StackFrame} (h : frame.InRange) : KeepsRange (push frame) :=
  Triple.modify fun _ hs => ⟨trivial,by simpa [h] using hs.stack,hs.alt⟩

theorem pushData_keeps (d : ScriptData) : KeepsRange (push (.data d)) := push_keeps trivial

theorem pushAll_keeps {frames : List StackFrame} (h : ∀ frame ∈ frames, frame.InRange) :
    KeepsRange (pushAll frames) := by
  induction frames with
  | nil => exact Keeps.pure trivial
  | cons frame frames ih =>
    exact (push_keeps (h frame (by simp))).bind fun _ _ => ih fun f hf => h f (List.mem_cons_of_mem _ hf)

theorem pop_keeps : KeepsRange pop := take_keeps.bind fun _ _ => Keeps.pure trivial

theorem takeData_keeps : Keeps (fun _ => True) takeData := take_keeps.bind fun _ _ => Keeps.pure trivial

theorem topData_keeps : Keeps (fun _ => True) topData :=
  take_keeps.bind fun _ _ => (pushData_keeps _).bind fun _ _ => Keeps.pure trivial

theorem pushBool_keeps (b : Bool) : KeepsRange (pushBool b) := push_keeps (ofBool_inRange b)

theorem countOps_keeps (n : ℕ) : KeepsRange (countOps n) := by
  intro s hs
  rw [countOps_run]
  split_ifs
  · exact trivial
  · exact ⟨trivial,hs.stack,hs.alt⟩

/-- A frame within the range yields a number within it. -/
theorem asNumber_inRange {frame : StackFrame} {minimal : Bool} {n : ScriptNum} (h : frame.InRange)
    (hn : frame.asNumber minimal = .ok n) : ScriptNum.InRange n._value.toInt := by
  cases frame with
  | number m =>
    obtain rfl : m = n := by simpa [StackFrame.asNumber] using hn
    exact h
  | data d => exact ofData_inRange hn

theorem takeNumber_keeps (env : Env) : Keeps (fun n => ScriptNum.InRange n._value.toInt) (takeNumber env) :=
  take_keeps.bind fun _ h => (Keeps.liftScript _).mono fun _ hn => asNumber_inRange h hn

theorem takeIndex_keeps (env : Env) : Keeps (fun _ => True) (takeIndex env) :=
  (takeNumber_keeps env).bind fun _ _ => Keeps.pure trivial

theorem takeCount_keeps (env : Env) (bound : ℕ) (code : ScriptError) :
    Keeps (fun _ => True) (takeCount env bound code) :=
  (takeNumber_keeps env).bind fun _ _ => Keeps.guard (Keeps.pure trivial)

theorem takeDatas_keeps (n : ℕ) : Keeps (fun _ => True) (takeDatas n) := by
  induction n with
  | zero => exact Keeps.pure trivial
  | succ n ih => exact takeData_keeps.bind fun _ _ => ih.bind fun _ _ => Keeps.pure trivial

theorem takeToTmp_keeps (n : Int32) :
    Keeps (fun frames => ∀ frame ∈ frames, StackFrame.InRange frame) (takeToTmp n) := by
  intro s hs
  rw [takeToTmp_run]
  split_ifs
  · exact ⟨fun f hf => hs.stack f (List.mem_of_mem_take (List.mem_reverse.mp hf)),
      fun f hf => hs.stack f (List.mem_of_mem_drop hf),hs.alt⟩
  · exact trivial

theorem verifyTop_keeps (code : ScriptError) : KeepsRange (verifyTop code) :=
  top_keeps.bind fun _ _ => Keeps.guard pop_keeps

/-- The frames an opcode rearranges come from the stack. -/
theorem rearranges_keeps {k : ℕ} {order : List ℕ} {x : Action Unit} (h : Rearranges k order x) :
    KeepsRange x := by
  intro s hs
  rw [h s]
  split_ifs
  · exact trivial
  · refine ⟨trivial,fun frame hf => ?_,hs.alt⟩
    rcases List.mem_append.mp hf with hf | hf
    · obtain ⟨i,-,hi⟩ := List.mem_filterMap.mp hf
      exact hs.stack frame (List.mem_of_getElem? hi)
    · exact hs.stack frame (List.mem_of_mem_drop hf)

end Primitives

section Handlers

variable (env : Env)

theorem pushNumberOrData_keeps (d : ScriptData) : KeepsRange (pushNumberOrData env d) :=
  Keeps.ite ((Keeps.liftScript _).bind fun _ hn => push_keeps (ofData_inRange hn)) (pushData_keeps d)

theorem opPushData_keeps (opCode : OpCode) (d : ScriptData) : KeepsRange (opPushData env opCode d) :=
  Keeps.guard (pushNumberOrData_keeps env d)

theorem opPushData1_keeps (d : ScriptData) : KeepsRange (opPushData1 env d) :=
  Keeps.guard (pushNumberOrData_keeps env d)

theorem opPushData2_keeps (d : ScriptData) : KeepsRange (opPushData2 env d) :=
  Keeps.guard (pushData_keeps d)

theorem opPushData4_keeps (d : ScriptData) : KeepsRange (opPushData4 env d) :=
  Keeps.guard (pushData_keeps d)

/-- An opcode is a byte, so the small numbers are small whatever it is. -/
theorem opN_keeps (opCode : OpCode) : KeepsRange (opN opCode) := by
  have hbyte : ∀ c : OpCode, ScriptNum.InRange (Int64.ofInt ((c.toNat : ℤ) - OpCode.op1.toNat + 1)).toInt :=
    ScriptNum.forall_byte (by decide)
  exact push_keeps (hbyte opCode)

theorem opCheckLockTimeVerify_keeps : KeepsRange (opCheckLockTimeVerify env) :=
  Keeps.ite (Keeps.pure trivial) ((ensure_keeps 1).bind fun _ _ => topData_keeps.bind fun _ _ =>
    (Keeps.liftScript _).bind fun _ _ => Keeps.guard ((Keeps.lift _).bind fun _ _ =>
      Keeps.guard (Keeps.pure trivial)))

theorem opCheckSequenceVerify_keeps : KeepsRange (opCheckSequenceVerify env) :=
  Keeps.ite (Keeps.pure trivial) ((ensure_keeps 1).bind fun _ _ => topData_keeps.bind fun _ _ =>
    (Keeps.liftScript _).bind fun _ _ => Keeps.guard (Keeps.ite (Keeps.pure trivial)
      ((Keeps.lift _).bind fun _ _ => Keeps.guard (Keeps.pure trivial))))

theorem opNoop_keeps : KeepsRange (opNoop env) := Keeps.guard (Keeps.pure trivial)

theorem opToAltStack_keeps : KeepsRange opToAltStack :=
  (ensure_keeps 1).bind fun _ _ => take_keeps.bind fun _ hf =>
    Triple.modify fun _ hs => ⟨trivial,hs.stack,by simpa [hf] using hs.alt⟩

theorem opFromAltStack_keeps : KeepsRange opFromAltStack := by
  rintro ⟨n,stack,_ | ⟨frame,rest⟩,fl,cur,sep⟩ hs
  · exact trivial
  · have hf := hs.alt frame (by simp)
    exact ⟨trivial,by simpa [hf] using hs.stack,fun f hm => hs.alt f (List.mem_cons_of_mem _ hm)⟩

theorem opIfDup_keeps : KeepsRange opIfDup :=
  (ensure_keeps 1).bind fun _ _ => top_keeps.bind fun _ hf => Keeps.ite (push_keeps hf) (Keeps.pure trivial)

theorem opPick_keeps : KeepsRange (opPick env) :=
  (ensure_keeps 2).bind fun _ _ => (takeIndex_keeps env).bind fun _ _ => (ensure_keeps _).bind fun _ _ =>
    (takeToTmp_keeps _).bind fun _ htmp => top_keeps.bind fun _ hf =>
      (pushAll_keeps htmp).bind fun _ _ => push_keeps hf

theorem opRoll_keeps : KeepsRange (opRoll env) :=
  (ensure_keeps 2).bind fun _ _ => (takeIndex_keeps env).bind fun _ _ => (ensure_keeps _).bind fun _ _ =>
    (takeToTmp_keeps _).bind fun _ htmp => take_keeps.bind fun _ hf =>
      (pushAll_keeps htmp).bind fun _ _ => push_keeps hf

theorem opEqual_keeps : KeepsRange opEqual :=
  (ensure_keeps 2).bind fun _ _ => takeData_keeps.bind fun _ _ => takeData_keeps.bind fun _ _ =>
    pushBool_keeps _

theorem hashTop_keeps (h : Bytes → Bytes) : KeepsRange (hashTop h) :=
  (ensure_keeps 1).bind fun _ _ => takeData_keeps.bind fun _ _ => pushData_keeps _

theorem opCodeSeparator_keeps : KeepsRange (opCodeSeparator env) :=
  Keeps.guard (Triple.modify fun _ hs => ⟨trivial,hs.stack,hs.alt⟩)

theorem unaryNum_keeps {f : ScriptNum → Except ScriptError ScriptNum}
    (hf : ∀ x r, ScriptNum.InRange x._value.toInt → f x = .ok r → ScriptNum.InRange r._value.toInt) :
    KeepsRange (unaryNum env f) :=
  (ensure_keeps 1).bind fun _ _ => (takeNumber_keeps env).bind fun x hx =>
    (Keeps.liftScript _).bind fun r hr => push_keeps (hf x r hx hr)

theorem binaryNum_keeps {f : ScriptNum → ScriptNum → ScriptNum}
    (hf : ∀ x1 x2, ScriptNum.InRange x1._value.toInt → ScriptNum.InRange x2._value.toInt →
      ScriptNum.InRange (f x1 x2)._value.toInt) : KeepsRange (binaryNum env f) :=
  (ensure_keeps 2).bind fun _ _ => (takeNumber_keeps env).bind fun x2 h2 =>
    (takeNumber_keeps env).bind fun x1 h1 => push_keeps (hf x1 x2 h1 h2)

theorem test_keeps (f : ScriptNum → ScriptNum → Bool) :
    KeepsRange (binaryNum env fun x1 x2 => ScriptNum.ofBool (f x1 x2)) :=
  binaryNum_keeps env fun _ _ _ _ => ofBool_inRange _

/-- The opposite of a number in the range is in the range. -/
theorem neg_inRange {x r : ScriptNum} (h : ScriptNum.InRange x._value.toInt) (hr : x.neg = .ok r) :
    ScriptNum.InRange r._value.toInt := by
  have hopp : ScriptNum.InRange (-x._value.toInt) := by
    simp only [ScriptNum.InRange] at *
    omega
  obtain ⟨r',hr',hval⟩ := neg_exact hopp.inInt64
  obtain rfl : r = r' := by simpa [hr] using hr'
  rwa [hval]

theorem opNegate_keeps : KeepsRange (opNegate env) := unaryNum_keeps env fun _ _ h hr => neg_inRange h hr

theorem opAbs_keeps : KeepsRange (opAbs env) := by
  refine unaryNum_keeps env fun x r h hr => ?_
  by_cases hneg : x._value < 0
  · exact neg_inRange h (by simpa [hneg] using hr)
  · obtain rfl : x = r := by simpa [hneg] using hr
    exact h

theorem opNot_keeps : KeepsRange (opNot env) :=
  unaryNum_keeps env fun _ _ _ hr => (Except.ok.inj hr) ▸ ofBool_inRange _

theorem op0NotEqual_keeps : KeepsRange (op0NotEqual env) :=
  unaryNum_keeps env fun _ _ _ hr => (Except.ok.inj hr) ▸ ofBool_inRange _

theorem opMin_keeps : KeepsRange (opMin env) := binaryNum_keeps env fun _ _ h1 h2 => by
  split_ifs
  · exact h1
  · exact h2

theorem opMax_keeps : KeepsRange (opMax env) := binaryNum_keeps env fun _ _ h1 h2 => by
  split_ifs
  · exact h1
  · exact h2

theorem opWithin_keeps : KeepsRange (opWithin env) :=
  (ensure_keeps 3).bind fun _ _ => (takeNumber_keeps env).bind fun _ _ => (takeNumber_keeps env).bind fun _ _ =>
    (takeNumber_keeps env).bind fun _ _ => pushBool_keeps _

theorem dropSignature_keeps (scriptCode : Bytes) (sig : ScriptData) :
    Keeps (fun _ => True) (dropSignature env scriptCode sig) :=
  Keeps.ite (Keeps.guard (Keeps.pure trivial)) (Keeps.pure trivial)

theorem opCheckSig_keeps : KeepsRange (opCheckSig env) :=
  (ensure_keeps 2).bind fun _ _ => takeData_keeps.bind fun _ _ => takeData_keeps.bind fun _ _ =>
    Keeps.get.bind fun _ _ => (dropSignature_keeps env _ _).bind fun _ _ =>
      (Keeps.of_quiet (checkSignature_quiet env _ _ _)).bind fun _ _ => Keeps.guard (pushBool_keeps _)

theorem popDummy_keeps : KeepsRange (popDummy env) :=
  (ensure_keeps 1).bind fun _ _ => Keeps.ite (topData_keeps.bind fun _ _ => Keeps.guard pop_keeps) pop_keeps

theorem opCheckMultiSig_keeps : KeepsRange (opCheckMultiSig env) :=
  (ensure_keeps 1).bind fun _ _ => (takeCount_keeps env _ _).bind fun _ _ => (countOps_keeps _).bind fun _ _ =>
    (ensure_keeps _).bind fun _ _ => (takeDatas_keeps _).bind fun _ _ =>
    (takeCount_keeps env _ _).bind fun _ _ => (countOps_keeps _).bind fun _ _ =>
    (ensure_keeps _).bind fun _ _ => (takeDatas_keeps _).bind fun _ _ => Keeps.get.bind fun _ _ =>
    (Keeps.of_quiet (dropSignatures_quiet env _ _)).bind fun _ _ =>
    (Keeps.of_quiet (checkSignatures_quiet env _ _ _)).bind fun _ _ =>
    (popDummy_keeps env).bind fun _ _ => pushBool_keeps _

/-- A number outside the range is about to be left: by one of the four opcodes whose
results may go past it, or by SIZE for a frame of `2^31` bytes and more. -/
def LeavesRange (opCode : OpCode) (s : Interpreter) : Prop :=
  (opCode ∈ [OpCode.op1Add,OpCode.op1Sub,OpCode.opAdd,OpCode.opSub] ∧ ∃ k vs,
      arity opCode = some k ∧ numbers env k s._stack = some vs ∧
      ¬ ScriptNum.InRange (exactResult opCode vs)) ∨
    (opCode = OpCode.opSize ∧ ∃ frame rest, s._stack = frame :: rest ∧
      ¬ ScriptNum.InRange frame.asData.length)

/-- The action keeps the range where the opcode does not leave it, unless the stacks
grow past their limit. -/
def KeepsUnless (opCode : OpCode) (x : Action Unit) : Prop :=
  Triple (fun s => Bounded s ∧ ¬ LeavesRange env opCode s) x
    (fun _ t => Bounded t ∨ Script.MAX_STACK_SIZE < depth t) fun _ _ => True

theorem KeepsUnless.of_keeps {opCode : OpCode} {x : Action Unit} (h : KeepsRange x) :
    KeepsUnless env opCode x :=
  Triple.consequence h (fun _ hs => hs.1) (fun _ _ ht => .inl ht.2) fun _ _ he => he

/-- The four opcodes, by what they compute. -/
theorem KeepsUnless.of_computes {opCode : OpCode} {k : ℕ} {x : Action Unit} (h : Computes env opCode k x)
    (hk : arity opCode = some k) (hafter : afterResult opCode = pure ())
    (hmem : opCode ∈ [OpCode.op1Add,OpCode.op1Sub,OpCode.opAdd,OpCode.opSub]) :
    KeepsUnless env opCode x := by
  rintro s ⟨hs,hleaves⟩
  have hrun := h s
  cases hn : numbers env k s._stack with
  | none =>
    simp only [hn] at hrun
    obtain ⟨code,u,hu⟩ := hrun
    simp [hu]
  | some vs =>
    have hrange : ScriptNum.InRange (exactResult opCode vs) := by
      by_contra hc
      exact hleaves (.inl ⟨hmem,k,vs,hk,hn,hc⟩)
    simp only [hn] at hrun
    obtain ⟨r,hr,hu⟩ := hrun hrange.inInt64
    rw [hu,hafter]
    refine .inl ⟨fun frame hf => ?_,hs.alt⟩
    rcases List.mem_cons.mp hf with rfl | hf
    · simpa [StackFrame.InRange,hr] using hrange
    · exact hs.stack frame (List.mem_of_mem_drop hf)

theorem ofNat_inRange {n : ℕ} (h : ScriptNum.InRange n) : ScriptNum.InRange (ScriptNum.ofNat n)._value.toInt := by
  have hn : n < 2^63 := by
    simp only [ScriptNum.InRange] at h
    omega
  rwa [ScriptNum.ofNat,Int64.toInt_ofNat_of_lt hn]

theorem opSize_keeps : KeepsUnless env OpCode.opSize opSize := by
  rintro ⟨n,_ | ⟨frame,rest⟩,alt,fl,cur,sep⟩ ⟨hs,hleaves⟩
  · simp [opSize,EStateM.run_bind,ensure_starved]
  · have hlen : ScriptNum.InRange frame.asData.length := by
      by_contra hc
      exact hleaves (.inr ⟨rfl,frame,rest,rfl,hc⟩)
    refine .inl ⟨fun f hf => ?_,hs.alt⟩
    rcases List.mem_cons.mp hf with rfl | hf
    · exact ofNat_inRange hlen
    rcases List.mem_cons.mp hf with rfl | hf
    · exact trivial
    · exact hs.stack f (List.mem_cons_of_mem _ hf)

/-- A depth outside the range is far past the limit of the stacks. -/
theorem opDepth_keeps (opCode : OpCode) : KeepsUnless env opCode opDepth := by
  rintro s ⟨hs,-⟩
  by_cases hd : s._stack.length ≤ Script.MAX_STACK_SIZE
  · have hlen : ScriptNum.InRange s._stack.length := by
      simp only [ScriptNum.InRange,Script.MAX_STACK_SIZE] at *
      omega
    exact .inl ⟨by simpa [StackFrame.InRange,ofNat_inRange hlen] using hs.stack,hs.alt⟩
  · refine .inr ?_
    simp only [depth,List.length_cons]
    omega

theorem cases_keeps (opCode : OpCode) (d : ScriptData) :
    ∀ c ∈ cases env opCode d, opCode ∈ c.1 → KeepsUnless env opCode c.2 := by
  simp only [cases,List.forall_mem_cons,List.not_mem_nil,IsEmpty.forall_iff,implies_true,and_true]
  simp only [List.mem_cons,List.not_mem_nil,or_false]
  have keeps {x : Action Unit} (h : KeepsRange x) : KeepsUnless env opCode x := .of_keeps env h
  have order {k o x} (h : Rearranges k o x) : KeepsUnless env opCode x := keeps (rearranges_keeps h)
  have test (f : ScriptNum → ScriptNum → Bool) :
      KeepsUnless env opCode (binaryNum env fun x1 x2 => ScriptNum.ofBool (f x1 x2)) :=
    keeps (test_keeps env f)
  have verify {x : Action Unit} (h : KeepsRange x) (code) : KeepsUnless env opCode (do x; verifyTop code) :=
    keeps (h.bind fun _ _ => verifyTop_keeps code)
  have hash (h) : KeepsUnless env opCode (hashTop h) := keeps (hashTop_keeps h)
  have wide {c k x} (h : Computes env c k x) (hk : arity c = some k) (hafter : afterResult c = pure ())
      (hmem : c ∈ [OpCode.op1Add,OpCode.op1Sub,OpCode.opAdd,OpCode.opSub]) (hc : opCode = c) :
      KeepsUnless env opCode x := hc ▸ .of_computes env h hk hafter hmem
  exact ⟨fun _ => keeps (opPushData1_keeps env d),fun _ => keeps (opPushData2_keeps env d),
    fun _ => keeps (opPushData4_keeps env d),fun _ => keeps (opN_keeps opCode),
    fun _ => keeps (Keeps.pure trivial),fun _ => keeps (opCheckLockTimeVerify_keeps env),
    fun _ => keeps (opCheckSequenceVerify_keeps env),fun _ => keeps (opNoop_keeps env),
    fun _ => verify (ensure_keeps 1) _,fun _ => keeps (Keeps.throw _),
    fun _ => keeps opToAltStack_keeps,fun _ => keeps opFromAltStack_keeps,
    fun _ => order op2Drop_rearranges,fun _ => order op2Dup_rearranges,
    fun _ => order op3Dup_rearranges,fun _ => order op2Over_rearranges,
    fun _ => order op2Rot_rearranges,fun _ => order op2Swap_rearranges,
    fun _ => keeps opIfDup_keeps,fun _ => opDepth_keeps env opCode,
    fun _ => order opDrop_rearranges,fun _ => order opDup_rearranges,
    fun _ => order opNip_rearranges,fun _ => order opOver_rearranges,
    fun _ => keeps (opPick_keeps env),fun _ => keeps (opRoll_keeps env),
    fun _ => order opRot_rearranges,fun _ => order opSwap_rearranges,
    fun _ => order opTuck_rearranges,fun h => h ▸ opSize_keeps env,
    fun _ => keeps opEqual_keeps,fun _ => verify opEqual_keeps _,
    wide (dispatch_computes env d rfl) rfl rfl (by decide),
    wide (dispatch_computes env d rfl) rfl rfl (by decide),
    fun _ => keeps (opNegate_keeps env),fun _ => keeps (opAbs_keeps env),
    fun _ => keeps (opNot_keeps env),fun _ => keeps (op0NotEqual_keeps env),
    wide (dispatch_computes env d rfl) rfl rfl (by decide),
    wide (dispatch_computes env d rfl) rfl rfl (by decide),
    fun _ => test _,fun _ => test _,fun _ => test _,fun _ => verify (test_keeps env _) _,
    fun _ => test _,fun _ => test _,fun _ => test _,fun _ => test _,fun _ => test _,
    fun _ => keeps (opMin_keeps env),fun _ => keeps (opMax_keeps env),
    fun _ => keeps (opWithin_keeps env),fun _ => hash _,fun _ => hash _,fun _ => hash _,
    fun _ => hash _,fun _ => hash _,fun _ => keeps (opCodeSeparator_keeps env),
    fun _ => keeps (opCheckSig_keeps env),fun _ => verify (opCheckSig_keeps env) _,
    fun _ => keeps (opCheckMultiSig_keeps env),fun _ => verify (opCheckMultiSig_keeps env) _⟩

end Handlers
end Interpreter
end Tkeycoin
