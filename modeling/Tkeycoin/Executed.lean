import Tkeycoin.Runs
import Tkeycoin.ScriptReading

/-! The instructions a run comes to: which of them it executes, and that a script it accepts is read
to its end. -/
namespace Tkeycoin

open ActionLogic

/-- The members, with the flags that are set as a list. -/
def Env.ofSet (flags : List ScriptVerifyFlags) (checker : SignatureChecker) (sigversion : SigVersion)
    (crypto : Crypto) : Env :=
  ⟨fun flag => flags.contains flag,checker,sigversion,crypto⟩

namespace Interpreter

/-- The instruction at the position, and the state it is carried out in. -/
def Ahead (s : Interpreter) (opCode : OpCode) (d : ScriptData) (t : Interpreter) : Prop :=
  fetch.run s = .ok (opCode,d) t

/-- The same in an executed branch. -/
def ExecutedAhead (s : Interpreter) (opCode : OpCode) (d : ScriptData) (t : Interpreter) : Prop :=
  Ahead s opCode d t ∧ mustExecuted t = true

section Step

variable {env : Env} {s t u : Interpreter} {opCode : OpCode} {d : ScriptData}

theorem step_of_ahead (h : Ahead s opCode d t) : (step env).run s = (carryOut env opCode d).run t := by
  rw [step,run_bind_ok h]

theorem step_of_conditional (h : Ahead s opCode d t)
    (hcond : OpCode.opIf ≤ opCode ∧ opCode ≤ OpCode.opEndIf) :
    (step env).run s = (do conditional env opCode; sizeLimits).run t := by
  rw [step_of_ahead h,carryOut_run,if_pos hcond]

theorem step_of_dispatch (h : ExecutedAhead s opCode d t)
    (hcond : ¬ (OpCode.opIf ≤ opCode ∧ opCode ≤ OpCode.opEndIf)) (hpush : ¬ opCode < OpCode.opPushData1) :
    (step env).run s = (do dispatch env opCode d; sizeLimits).run t := by
  rw [step_of_ahead h.1,carryOut_run,if_neg hcond,if_pos h.2,if_neg hpush]

theorem sizeLimits_error {e : Stop} (h : sizeLimits.run s = .error e u) : e = .script .stackSize := by
  rw [sizeLimits_run] at h
  split at h
  · cases h
    rfl
  · cases h

/-- A round reads one instruction, and the position behind it is where it ends. -/
theorem ahead_of_step (h : (step env).run s = .ok () u) :
    ∃ opCode d t, Ahead s opCode d t ∧
      Script.getScriptOp s._curScriptPosition = (some (opCode,d),u._curScriptPosition) := by
  rw [step,run_bind_andThen] at h
  cases hf : fetch.run s with
  | error e t =>
    rw [hf] at h
    cases h
  | ok i t =>
    rw [hf] at h
    have hcarry := carryOut_triple env i.1 i.2 t t rfl
    change (carryOut env i.1 i.2).run t = .ok () u at h
    rw [h] at hcarry
    have hcur : u._curScriptPosition = t._curScriptPosition := hcarry
    rw [hcur]
    exact ⟨i.1,i.2,t,hf,(fetch_ok hf).1⟩

/-- The position of the state an instruction is carried out in lies behind it. -/
theorem Ahead.read (h : Ahead s opCode d t) :
    Script.getScriptOp s._curScriptPosition = (some (opCode,d),t._curScriptPosition) :=
  (fetch_ok h).1

theorem Ahead.more (h : Ahead s opCode d t) : more s = true := more_of_fetch h

end Step

section Accepted

variable {env : Env} {script : Bytes} {s₀ s t : Interpreter} {code : ScriptError}

/-- In a run that succeeds every round does. -/
theorem step_of_accepted (h : execute env script s₀ = .returned true code t)
    (hr : Reached env script s₀ s) (hm : more s = true) : ∃ u, (step env).run s = .ok () u := by
  cases hstep : (step env).run s with
  | ok _ u => exact ⟨u,rfl⟩
  | error e u =>
    rw [execute_of_stop hr hm hstep] at h
    cases e <;> simp [ended] at h

/-- The positions a run comes to are boundaries. -/
theorem Reached.boundary (hr : Reached env script s₀ s) : Script.Boundary script s._curScriptPosition := by
  refine rounds_invariant (I := fun s => Script.Boundary script s._curScriptPosition)
    (fun s u hs hround => ?_) .refl hr.2
  obtain ⟨opCode,d,_,_,hread⟩ := ahead_of_step hround.2
  exact hs.tail ⟨_,hread⟩

/-- In a run that succeeds what can be read is carried out. -/
theorem carried_of_accepted (h : execute env script s₀ = .returned true code t)
    (hr : Reached env script s₀ s) {i : OpCode × ScriptData} {q : Bytes}
    (hread : Script.getScriptOp s._curScriptPosition = (some i,q)) :
    ∃ u v, Ahead s i.1 i.2 v ∧ Reached env script s₀ u ∧ u._curScriptPosition = q := by
  have hm : more s = true := by
    rw [more]
    cases hcur : s._curScriptPosition with
    | nil => simp [hcur,Script.getScriptOp] at hread
    | cons => rfl
  obtain ⟨u,hstep⟩ := step_of_accepted h hr hm
  obtain ⟨opCode,d,v,hahead,hu⟩ := ahead_of_step hstep
  rw [hread] at hu
  obtain rfl : i = (opCode,d) := Option.some.inj (congrArg Prod.fst hu)
  exact ⟨u,v,hahead,⟨hr.1,hr.2.tail ⟨hm,hstep⟩⟩,(congrArg Prod.snd hu).symm⟩

/-- A run that succeeds comes to every boundary. -/
theorem visited_of_accepted (h : execute env script s₀ = .returned true code t) {p : Bytes}
    (hb : Script.Boundary script p) : ∃ s, Reached env script s₀ s ∧ s._curScriptPosition = p := by
  induction hb with
  | refl => exact ⟨start script s₀,⟨(execute_true h).1.1,.refl⟩,rfl⟩
  | tail _ hfollows ih =>
    obtain ⟨s,hr,rfl⟩ := ih
    obtain ⟨i,hread⟩ := hfollows
    obtain ⟨u,_,_,hu,hcur⟩ := carried_of_accepted h hr hread
    exact ⟨u,hu,hcur⟩

/-- Every instruction at a boundary of an accepted script is one the run came to. -/
theorem ahead_of_accepted (h : execute env script s₀ = .returned true code t) {p q : Bytes}
    {i : OpCode × ScriptData} (hb : Script.Boundary script p) (hread : Script.getScriptOp p = (some i,q)) :
    ∃ s v, Reached env script s₀ s ∧ Ahead s i.1 i.2 v := by
  obtain ⟨s,hr,rfl⟩ := visited_of_accepted h hb
  obtain ⟨_,v,hahead,_,_⟩ := carried_of_accepted h hr hread
  exact ⟨s,v,hr,hahead⟩

/-- A round that fails is how its run ends, and no run that succeeds has one. -/
theorem not_accepted_of_step {stop : Stop} (hr : Reached env script s₀ s) (hm : more s = true)
    (hstep : (step env).run s = .error stop t) {u : Interpreter} :
    execute env script s₀ ≠ .returned true code u := by
  intro h
  obtain ⟨v,hok⟩ := step_of_accepted h hr hm
  rw [hstep] at hok
  cases hok

end Accepted
end Interpreter
end Tkeycoin
