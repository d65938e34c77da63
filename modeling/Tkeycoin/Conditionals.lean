import Tkeycoin.Nesting
import Tkeycoin.FlagIndependence
import Tkeycoin.MinimalIf

/-! The loop of `execute` with its conditional flags, and the evaluation of a script as nested
conditionals. -/
namespace Tkeycoin

open ActionLogic Nesting

namespace Interpreter

/-- An instruction, and the bytes of the script behind it. -/
structure Instruction where
  opCode : OpCode
  data : ScriptData
  next : Bytes

/-- The instructions of a script up to its end, or to bytes that cannot be read. -/
def instructionsFrom : ℕ → Bytes → List Instruction × Bool
  | 0, _ => ([],true)
  | fuel+1, p =>
    if p = [] then ([],true)
    else
      match Script.getScriptOp p with
      | (none,_) => ([],false)
      | (some i,next) =>
        (⟨i.1,i.2,next⟩ :: (instructionsFrom fuel next).1,(instructionsFrom fuel next).2)

def instructions (script : Bytes) : List Instruction := (instructionsFrom script.length script).1

/-- The script can be read to its end. -/
def readable (script : Bytes) : Bool := (instructionsFrom script.length script).2

def classify (i : Instruction) : Token Instruction :=
  if i.opCode = OpCode.opIf ∨ i.opCode = OpCode.opNotIf then .opening i
  else if i.opCode = OpCode.opElse then .middle i
  else if i.opCode = OpCode.opEndIf then .closing i
  else .plain i

/-- The nested conditionals of a script. -/
def form (script : Bytes) : Form Instruction := parse ((instructions script).map classify)

section Machine

variable (env : Env)

/-- What is done of every instruction first: the position moves on, and the limits that do not look at
the stack are applied. -/
def readLimits (i : Instruction) : Action Unit := do
  modify fun s => { s with _curScriptPosition := i.next }
  if i.data.length > Script.MAX_SCRIPT_ELEMENT_SIZE then throwScript .pushSize
  else if i.opCode > OpCode.op16 then countOps 1
  else pure ()

/-- The operand of an opening that is executed, as the choice of its first branch. -/
def condition (opCode : OpCode) : Action Bool := do
  let s ← get
  if s._stack = [] then throwScript .unbalancedConditional
  else
    let stackFrame ← take
    if env.sigversion = .witnessV0 ∧ env.isSet .minimalIf ∧ notMinimalIf stackFrame then
      throwScript .minimalIf
    else
      let executionFlag := stackFrame.castToBool
      pure (if opCode = OpCode.opNotIf then !executionFlag else executionFlag)

/-- The effect of an instruction other than the four. `OP_VERIF` and `OP_VERNOTIF` have none. -/
def effect (opCode : OpCode) (data : ScriptData) : Action Unit :=
  if OpCode.opIf ≤ opCode ∧ opCode ≤ OpCode.opEndIf then sizeLimits
  else if opCode < OpCode.opPushData1 then opPushData env opCode data
  else do
    dispatch env opCode data
    sizeLimits

/-- Instructions as a machine with conditionals. -/
def machine (readable : Bool) : Machine Instruction Stop Interpreter where
  exec i := do
    readLimits i
    effect env i.opCode i.data
  pass i := do
    readLimits i
    sizeLimits
  enter i := do
    readLimits i
    let chosen ← condition env i.opCode
    sizeLimits
    pure chosen
  misplaced i := readLimits i
  finish := if readable then pure () else throwScript .badOpCode
  unbalanced := .script .unbalancedConditional

/-- A script as the recursive evaluation of its conditionals. -/
def evaluation (script : Bytes) : Action Unit :=
  if script.length > Script.MAX_SCRIPT_SIZE then throwScript .scriptSize
  else (form script).eval (machine env (readable script))

end Machine

section Split

/-- An outcome with the conditional flags taken out of the state. -/
def split : EStateM.Result Stop Interpreter Unit → EStateM.Result Stop Interpreter (List Bool)
  | .ok _ t => .ok t._conditionalExecutionFlags (withFlags [] t)
  | .error e t => .error e (withFlags [] t)

/-- From these flags on, the action does what the other one does with the flags beside the state. -/
def Separates (flags : List Bool) (x : Action Unit) (y : Action (List Bool)) : Prop :=
  ∀ s, s._conditionalExecutionFlags = flags → split (x.run s) = y.run (withFlags [] s)

variable {α : Type} {flags flags' : List Bool}

theorem withFlags_self {s : Interpreter} (h : s._conditionalExecutionFlags = flags) :
    s = withFlags flags (withFlags [] s) := by
  rw [← h]
  rfl

/-- What a blind action leaves of a state without flags has none. -/
theorem Blind.onState_nil {x : Action α} (hx : Blind x) (s : Interpreter) :
    onState (withFlags []) (x.run (withFlags [] s)) = x.run (withFlags [] s) := by
  have h := hx [] (withFlags [] s)
  exact h.symm

theorem Separates.bind {x : Action α} {f : α → Action Unit} {g : α → Action (List Bool)} (hx : Blind x)
    (hf : ∀ a, Separates flags (f a) (g a)) : Separates flags (x >>= f) (x >>= g) := by
  intro s hs
  have hrun := hx flags (withFlags [] s)
  rw [← withFlags_self hs] at hrun
  have hnil := hx.onState_nil s
  rw [EStateM.run_bind,EStateM.run_bind,hrun]
  cases hresult : x.run (withFlags [] s) with
  | ok a t =>
    rw [hresult] at hnil
    have ht : withFlags [] t = t := by
      simpa using hnil
    have hstep := hf a (withFlags flags t) rfl
    have hclear : withFlags [] (withFlags flags t) = t := ht
    rw [hclear] at hstep
    exact hstep
  | error e t =>
    rw [hresult] at hnil
    have ht : withFlags [] t = t := by
      simpa using hnil
    have hclear : withFlags [] (withFlags flags t) = t := ht
    change (.error e (withFlags [] (withFlags flags t)) : EStateM.Result Stop Interpreter (List Bool)) = _
    rw [hclear]

theorem Separates.pure : Separates flags (Pure.pure ()) (Pure.pure flags) := by
  intro s hs
  change (.ok s._conditionalExecutionFlags (withFlags [] s) : EStateM.Result Stop Interpreter (List Bool)) = _
  rw [hs]
  rfl

/-- A blind action leaves the flags. -/
theorem Separates.of_blind {x : Action Unit} (hx : Blind x) :
    Separates flags x (do x; Pure.pure flags) := by
  have h : Separates flags (x >>= fun _ => Pure.pure ()) (x >>= fun _ => Pure.pure flags) :=
    Separates.bind hx fun _ => Separates.pure
  rw [bind_pure] at h
  exact h

/-- The flags are changed, and a blind action follows. -/
theorem Separates.change {change x : Action Unit}
    (hchange : ∀ s, s._conditionalExecutionFlags = flags → change.run s = .ok () (withFlags flags' s))
    (hx : Blind x) : Separates flags (do change; x) (do x; Pure.pure flags') := by
  intro s hs
  rw [run_bind_ok (hchange s hs)]
  exact Separates.of_blind hx (withFlags flags' s) rfl

end Split

section Step

variable {env : Env} {flags : List Bool} {opCode : OpCode} {d : ScriptData} {i : Instruction}

theorem readLimits_blind (i : Instruction) : Blind (readLimits i) :=
  (Blind.modify fun _ _ => rfl).bind fun _ => Blind.guard (Blind.ite (countOps_blind 1) (Blind.pure _))

theorem condition_blind (opCode : OpCode) : Blind (condition env opCode) :=
  Blind.get_bind (fun _ _ => rfl) fun _ => Blind.guard (take_blind.bind fun _ => Blind.guard (Blind.pure _))

theorem effect_blind (opCode : OpCode) (d : ScriptData) : Blind (effect env opCode d) :=
  Blind.ite sizeLimits_blind (Blind.ite (opPushData_blind env opCode d)
    ((dispatch_blind env opCode d).bind fun _ => sizeLimits_blind))

/-- All flags are set exactly if none is not. -/
theorem mustExecuted_iff {s : Interpreter} (hs : s._conditionalExecutionFlags = flags) :
    mustExecuted s = flags.all id := by
  subst hs
  rw [mustExecuted]
  generalize s._conditionalExecutionFlags = fl
  induction fl with
  | nil => rfl
  | cons flag fl ih =>
    cases flag with
    | false => simp
    | true => simpa using ih

/-- What follows a check follows its other branch. -/
theorem guard_bind {α β : Type} {p : Prop} [Decidable p] (code : ScriptError) (x : Action α)
    (f : α → Action β) :
    (if p then throwScript code else x) >>= f = if p then throwScript code else x >>= f := by
  split
  · rfl
  · rfl

/-- An executed opening pushes the choice that its operand makes. -/
theorem opIf_run (opCode : OpCode) {s : Interpreter} (hm : mustExecuted s = true) :
    (opIf env opCode).run s = (condition env opCode >>= pushFlag).run s := by
  have hget {α : Type} (f : Interpreter → Action α) : (get >>= f).run s = (f s).run s := rfl
  simp only [opIf,condition,bind_assoc,hget,hm,guard_bind,pure_bind]
  rfl

variable {readable : Bool}

theorem Separates.congr {x x' : Action Unit} {y : Action (List Bool)}
    (h : ∀ s, s._conditionalExecutionFlags = flags → x.run s = x'.run s) (hx : Separates flags x' y) :
    Separates flags x y := by
  intro s hs
  rw [h s hs]
  exact hx s hs

/-- An opening, executed or not. -/
theorem opIf_separates (opCode : OpCode) :
    Separates flags (do opIf env opCode; sizeLimits)
      (do
        let chosen ← if flags.all id then (do let chosen ← condition env opCode; sizeLimits; pure chosen)
          else (do sizeLimits; pure false)
        pure (chosen :: flags)) := by
  cases hall : flags.all id with
  | true =>
    have hopIf (s : Interpreter) (hs : s._conditionalExecutionFlags = flags) :
        (do opIf env opCode; sizeLimits).run s =
          (do let chosen ← condition env opCode; pushFlag chosen; sizeLimits).run s := by
      have hm : mustExecuted s = true := (mustExecuted_iff hs).trans hall
      rw [← bind_assoc,EStateM.run_bind,EStateM.run_bind,opIf_run opCode hm]
    have hpush (chosen : Bool) : Separates flags (do pushFlag chosen; sizeLimits)
        (do sizeLimits; pure (chosen :: flags)) := by
      apply Separates.change _ sizeLimits_blind
      intro s hs
      rw [← hs]
      rfl
    have h := Separates.congr hopIf (Separates.bind (condition_blind opCode) hpush)
    simpa using h
  | false =>
    have hopIf (s : Interpreter) (hs : s._conditionalExecutionFlags = flags) :
        (opIf env opCode).run s = .ok () (withFlags (false :: flags) s) := by
      have hm : mustExecuted s = false := (mustExecuted_iff hs).trans hall
      subst hs
      simp only [opIf,EStateM.run_bind,EStateM.run_get,hm]
      rfl
    have hchange := Separates.change hopIf sizeLimits_blind
    simpa using hchange

/-- An action on the innermost flag, which must be there. -/
def Turns (x : Action Unit) (f : Bool → List Bool → List Bool) : Prop :=
  ∀ s, x.run s = match s._conditionalExecutionFlags with
    | [] => .error (.script .unbalancedConditional) s
    | flag :: flags => .ok () (withFlags (f flag flags) s)

theorem opElse_turns : Turns opElse fun flag flags => (!flag) :: flags := by
  rintro ⟨ops,stack,alt,_ | ⟨flag,flags⟩,cur,sep⟩ <;> rfl

theorem opEndIf_turns : Turns opEndIf fun _ flags => flags := by
  rintro ⟨ops,stack,alt,_ | ⟨flag,flags⟩,cur,sep⟩ <;> rfl

section Turns

variable {x : Action Unit} {f : Bool → List Bool → List Bool}

theorem Turns.separates (h : Turns x f) (flag : Bool) :
    Separates (flag :: flags) (do x; sizeLimits) (do sizeLimits; pure (f flag flags)) := by
  apply Separates.change _ sizeLimits_blind
  intro s hs
  have hrun := h s
  simpa only [hs] using hrun

theorem Turns.unbalanced (h : Turns x f) :
    Separates [] (do x; sizeLimits) (throw (.script .unbalancedConditional)) := by
  intro s hs
  have hrun := h s
  simp only [hs] at hrun
  rw [run_bind_error hrun]
  rfl

end Turns

/-- The limits are applied before anything else is done of an instruction. -/
theorem Separates.behind_readLimits {x : Action Unit} {y : Action (List Bool)} (h : Separates flags x y)
    (i : Instruction) : Separates flags (do readLimits i; x) (do readLimits i; y) :=
  Separates.bind (readLimits_blind i) fun _ => h

theorem opening_separates (hi : IsIf i.opCode) :
    Separates flags (do readLimits i; conditional env i.opCode; sizeLimits)
      ((machine env readable).step (.opening i) flags) := by
  have hopIf : Separates flags (do opIf env i.opCode; sizeLimits) _ := opIf_separates i.opCode
  have h := hopIf.behind_readLimits i
  rw [conditional_if hi]
  cases hall : flags.all id <;>
    simpa [Machine.step,Machine.choose,machine,hall] using h

theorem middle_separates (hi : i.opCode = OpCode.opElse) :
    Separates flags (do readLimits i; conditional env i.opCode; sizeLimits)
      ((machine env readable).step (.middle i) flags) := by
  have hcond : conditional env i.opCode = opElse := by
    rw [hi]
    rfl
  rw [hcond]
  cases flags with
  | nil => exact opElse_turns.unbalanced.behind_readLimits i
  | cons flag flags =>
    have hturn : Separates (flag :: flags) (do opElse; sizeLimits) _ := opElse_turns.separates flag
    have h := hturn.behind_readLimits i
    simpa [Machine.step,machine] using h

theorem closing_separates (hi : i.opCode = OpCode.opEndIf) :
    Separates flags (do readLimits i; conditional env i.opCode; sizeLimits)
      ((machine env readable).step (.closing i) flags) := by
  have hcond : conditional env i.opCode = opEndIf := by
    rw [hi]
    rfl
  rw [hcond]
  cases flags with
  | nil => exact opEndIf_turns.unbalanced.behind_readLimits i
  | cons flag flags =>
    have hturn : Separates (flag :: flags) (do opEndIf; sizeLimits) _ := opEndIf_turns.separates flag
    have h := hturn.behind_readLimits i
    simpa [Machine.step,machine] using h

/-- Any other instruction, executed or not. -/
theorem plain_separates (hif : ¬ (i.opCode = OpCode.opIf ∨ i.opCode = OpCode.opNotIf))
    (helse : i.opCode ≠ OpCode.opElse) (hend : i.opCode ≠ OpCode.opEndIf) :
    Separates flags (do readLimits i; carryOut env i.opCode i.data)
      ((machine env readable).step (.plain i) flags) := by
  have hcarry (s : Interpreter) (hs : s._conditionalExecutionFlags = flags) :
      (carryOut env i.opCode i.data).run s =
        (if flags.all id then effect env i.opCode i.data else sizeLimits).run s := by
    have hconditional : conditional env i.opCode = pure () := by
      rw [conditional,if_neg hif,if_neg helse,if_neg hend]
    rw [carryOut_run,mustExecuted_iff hs,hconditional]
    cases hall : flags.all id with
    | true =>
      simp only [effect,ite_true]
      split_ifs <;> rfl
    | false =>
      simp only [Bool.false_eq_true,ite_false]
      split_ifs <;> rfl
  have hblind : Blind (if flags.all id then effect env i.opCode i.data else sizeLimits) :=
    Blind.ite (effect_blind i.opCode i.data) sizeLimits_blind
  have h := ((Separates.of_blind hblind).congr hcarry).behind_readLimits i
  cases hall : flags.all id <;>
    simpa [Machine.step,Machine.act,machine,hall] using h

theorem carryOut_conditional (h : OpCode.opIf ≤ opCode ∧ opCode ≤ OpCode.opEndIf) :
    carryOut env opCode d = (do conditional env opCode; sizeLimits) := by
  funext s
  have hrun := carryOut_run env opCode d s
  rw [if_pos h] at hrun
  exact hrun

/-- What is done of an instruction, as the step of the machine. -/
theorem carryOut_separates (i : Instruction) :
    Separates flags (do readLimits i; carryOut env i.opCode i.data)
      ((machine env readable).step (classify i) flags) := by
  by_cases hif : i.opCode = OpCode.opIf ∨ i.opCode = OpCode.opNotIf
  · rw [classify,if_pos hif,carryOut_conditional (isIf_between hif)]
    exact opening_separates hif
  by_cases helse : i.opCode = OpCode.opElse
  · have hcond : OpCode.opIf ≤ i.opCode ∧ i.opCode ≤ OpCode.opEndIf := by
      rw [helse]
      decide
    rw [classify,if_neg hif,if_pos helse,carryOut_conditional hcond]
    exact middle_separates helse
  by_cases hend : i.opCode = OpCode.opEndIf
  · have hcond : OpCode.opIf ≤ i.opCode ∧ i.opCode ≤ OpCode.opEndIf := by
      rw [hend]
      decide
    rw [classify,if_neg hif,if_neg helse,if_pos hend,carryOut_conditional hcond]
    exact closing_separates hend
  · rw [classify,if_neg hif,if_neg helse,if_neg hend]
    exact plain_separates hif helse hend

/-- A round on an instruction that can be read. -/
theorem step_separates {s : Interpreter} (hs : s._conditionalExecutionFlags = flags)
    (hread : Script.getScriptOp s._curScriptPosition = (some (i.opCode,i.data),i.next)) :
    split ((step env).run s) = ((machine env readable).step (classify i) flags).run (withFlags [] s) := by
  have hfetch : fetch.run s = (do readLimits i; pure (i.opCode,i.data)).run s := by
    simp only [fetch,readLimits,EStateM.run_bind,EStateM.run_get,hread]
    split_ifs <;> rfl
  have hstep : (step env).run s = (do readLimits i; carryOut env i.opCode i.data).run s := by
    rw [step,EStateM.run_bind,hfetch,EStateM.run_bind,EStateM.run_bind]
    cases (readLimits i).run s <;> rfl
  rw [hstep]
  exact carryOut_separates i s hs

end Step

section Loop

variable {env : Env} {s : Interpreter} {fuel : ℕ}

/-- The loop is the machine on the instructions left, with the flags beside the state. -/
theorem loop_separates (hfuel : s._curScriptPosition.length ≤ fuel) :
    split ((loop more (step env) fuel).run s) =
      (do
        let flags ← (machine env (instructionsFrom fuel s._curScriptPosition).2).steps
          ((instructionsFrom fuel s._curScriptPosition).1.map classify) s._conditionalExecutionFlags
        (machine env (instructionsFrom fuel s._curScriptPosition).2).finish
        pure flags).run (withFlags [] s) := by
  induction fuel generalizing s with
  | zero =>
    have hcur : s._curScriptPosition = [] := List.length_eq_zero_iff.mp (Nat.le_zero.mp hfuel)
    rw [hcur]
    rfl
  | succ fuel ih =>
    by_cases hcur : s._curScriptPosition = []
    · have hmore : more s = false := by simp [more,hcur]
      rw [loop_done _ _ _ _ hmore,hcur]
      rfl
    · have hmore : more s = true := by simp [more,hcur]
      rw [loop_succ_run,if_pos hmore,instructionsFrom,if_neg hcur]
      rcases hread : Script.getScriptOp s._curScriptPosition with ⟨_ | ⟨opCode,d⟩,next⟩
      · have hfetch : (step env).run s = .error (.script .badOpCode) s := by
          rw [step]
          apply run_bind_error
          rw [fetch_run,hread]
        rw [hfetch]
        rfl
      · have hstep : split ((step env).run s) =
            ((machine env (instructionsFrom fuel next).2).step (classify ⟨opCode,d,next⟩)
              s._conditionalExecutionFlags).run (withFlags [] s) := step_separates rfl hread
        simp only [List.map_cons,Machine.steps,bind_assoc]
        rw [EStateM.run_bind,← hstep]
        cases hrun : (step env).run s with
        | error e t => rfl
        | ok _ t =>
          have hlt : left t < left s := left_decreases env s t ⟨hmore,hrun⟩
          have hnext : t._curScriptPosition = next := by
            obtain ⟨_,_,_,_,hahead⟩ := ahead_of_step hrun
            rw [hread] at hahead
            exact (congrArg Prod.snd hahead).symm
          have h := ih (Nat.le_of_lt_succ (hlt.trans_le hfuel))
          rw [hnext] at h
          exact h

end Loop

section Execute

variable {env : Env} {script : Bytes}

/-- The `try` block, but for the flags in the state, is the evaluation of the nested conditionals. -/
theorem body_evaluation {s : Interpreter} (hs : s._conditionalExecutionFlags = [])
    (hcur : s._curScriptPosition = script) :
    onState (withFlags []) ((body env script).run s) = (evaluation env script).run (withFlags [] s) := by
  by_cases hlong : script.length > Script.MAX_SCRIPT_SIZE
  · rw [body_long hlong,evaluation,if_pos hlong]
    rfl
  · have hloop : split ((loop more (step env) script.length).run s) = _ :=
      loop_separates (by rw [hcur])
    rw [hcur,hs] at hloop
    have hrun (M : Machine Instruction Stop Interpreter) (tokens : List (Token Instruction)) :
        M.run tokens [] = (do let flags ← M.steps tokens []; M.finish; pure flags) >>= fun flags =>
          if flags = [] then pure () else throw M.unbalanced := by
      simp [Machine.run,Machine.balance]
    rw [body_run (Nat.le_of_not_lt hlong),evaluation,if_neg hlong,form,← run_eq_eval,hrun,
      EStateM.run_bind]
    simp only [instructions,readable]
    rw [← hloop]
    cases (loop more (step env) script.length).run s with
    | error e t => rfl
    | ok _ t =>
      by_cases hflags : t._conditionalExecutionFlags = []
      · simp only [split,hflags]
        rfl
      · simp only [split,ne_eq,hflags]
        rfl

/-- An outcome, but for the conditional flags it leaves. -/
def Outcome.cleared : Outcome → Outcome
  | .returned result code t => .returned result code (withFlags [] t)
  | .aborted fault => .aborted fault

/-- What comes of a call that evaluates the nested conditionals of its script. -/
def evaluate (env : Env) (script : Bytes) (s : Interpreter) : Outcome :=
  match (evaluation env script).run (start script s) with
  | .ok () t => .returned true .ok t
  | .error stop t => ended stop t

theorem execute_cleared {s : Interpreter} (hs : s._conditionalExecutionFlags = []) :
    (execute env script s).cleared = evaluate env script s := by
  have hstart : withFlags [] (start script s) = start script s := by
    rw [← hs]
    rfl
  have hbody : onState _ ((body env script).run (start script s)) = _ := body_evaluation hs rfl
  rw [hstart] at hbody
  rw [execute,evaluate,← hbody]
  cases (body env script).run (start script s) with
  | ok _ t => rfl
  | error stop t => cases stop <;> rfl

/-- `1 IF 0 IF 2 ELSE 3 ELSE 4 ENDIF ELSE 5 ENDIF`: the second of three branches is evaluated. -/
example :
    evaluate (.ofSet [] refusing .base ⟨id,id,id⟩)
        [0x51,0x63,0x00,0x63,0x52,0x67,0x53,0x67,0x54,0x68,0x67,0x55,0x68] fresh =
      .returned true .ok ⟨7,[.number ⟨3⟩],[],[],[],
        [0x51,0x63,0x00,0x63,0x52,0x67,0x53,0x67,0x54,0x68,0x67,0x55,0x68]⟩ := by
  decide +kernel

/-- Success means that the script was read to its end and that its conditionals are closed. -/
theorem evaluate_true {s t : Interpreter} {code : ScriptError}
    (h : evaluate env script s = .returned true code t) : (form script).Complete ∧ readable script = true := by
  rw [evaluate,evaluation] at h
  split_ifs at h with hlong
  · cases h
  cases heval : ((form script).eval (machine env (readable script))).run (start script s) with
  | error stop u =>
    rw [heval] at h
    cases stop <;> cases h
  | ok _ u =>
    obtain ⟨hcomplete,v,hfinish⟩ := Form.eval_ok heval
    cases hreadable : readable script with
    | true => exact ⟨hcomplete,rfl⟩
    | false =>
      simp only [machine,hreadable] at hfinish
      cases hfinish

/-- The execution with flags is the evaluation of the nested conditionals that the instructions of the
script form, and it succeeds only if each of them is closed and nothing else lies outside. -/
theorem execute_nested (env : Env) (script : Bytes) (s : Interpreter)
    (hs : s._conditionalExecutionFlags = []) :
    (form script).tokens = (instructions script).map classify ∧
      (execute env script s).cleared = evaluate env script s ∧
      ∀ code t, execute env script s = .returned true code t →
        (form script).Complete ∧ readable script = true := by
  have hexecute : (execute env script s).cleared = _ := execute_cleared hs
  refine ⟨parse_tokens _,hexecute,fun code t h => ?_⟩
  rw [h] at hexecute
  exact evaluate_true hexecute.symm

/-- The script of the example above. -/
theorem execute_nested_branches :
    (execute (.ofSet [] refusing .base ⟨id,id,id⟩)
        [0x51,0x63,0x00,0x63,0x52,0x67,0x53,0x67,0x54,0x68,0x67,0x55,0x68] fresh).cleared =
      evaluate (.ofSet [] refusing .base ⟨id,id,id⟩)
        [0x51,0x63,0x00,0x63,0x52,0x67,0x53,0x67,0x54,0x68,0x67,0x55,0x68] fresh :=
  (execute_nested (.ofSet [] refusing .base ⟨id,id,id⟩) _ fresh rfl).2.1

end Execute
end Interpreter
end Tkeycoin
