import Mathlib.Tactic
import Tkeycoin.AlarmHistory
import Tkeycoin.Stepping

/-! A timer of the task manager: the alarm wanted, the wake-ups queued for it and the handler. -/
namespace Tkeycoin
namespace Timer

open AlarmHistory

/-- The latest time point of the steady clock. -/
def maxTime : Int := 2 ^ 63 - 1

/-- The members of a timer. `refCounter` is its helper's, which the first start makes with 0. -/
structure Members where
  actualAlarmTime : Int
  nextAlarmTime : Int
  refCounter : Nat
  deriving DecidableEq

/-- A timer with the clock, its tasks in the task manager's queue and what it has done. -/
structure State where
  now : Int
  shutingdown : Bool
  timer : Members
  queue : List Int
  history : List (Entry Int)
  deriving DecidableEq

/-- The constructor. -/
def init (now : Int) : State where
  now := now
  shutingdown := false
  timer := ⟨now,maxTime,0⟩
  queue := []
  history := []

/-- `Helper::start` queues a wake-up. -/
def start (s : State) (time : Int) : State :=
  { s with
    timer := { s.timer with refCounter := s.timer.refCounter + 1 }
    queue := time :: s.queue }

/-- The alarm time is another one from now on. -/
def setAlarm (s : State) (alarmTime : Int) : State :=
  { s with
    timer := { s.timer with actualAlarmTime := alarmTime }
    history := .appointed s.now alarmTime :: s.history }

def setNext (s : State) (time : Int) : State :=
  { s with timer := { s.timer with nextAlarmTime := time } }

def appoint (s : State) (currentTime alarmTime : Int) (once : Bool) : State × Int :=
  if once then
    if s.timer.actualAlarmTime > currentTime then
      (s,s.timer.actualAlarmTime)
    else
      (start (setNext (setAlarm s alarmTime) alarmTime) alarmTime,alarmTime)
  else
    let prevExpireTime := s.timer.nextAlarmTime
    let latest := max currentTime prevExpireTime
    let next := if alarmTime < latest then alarmTime else latest
    let s := setNext (setAlarm s alarmTime) next
    if prevExpireTime ≤ next then (s,alarmTime) else (start s next,alarmTime)

def startOnce (s : State) (duration : Int) : State × Int :=
  appoint s s.now (s.now + duration) true

def restart (s : State) (duration : Int) : State × Int :=
  appoint s s.now (s.now + duration) false

def prolong (s : State) (duration : Int) : State × Int :=
  let alarmTime := s.now + duration
  if s.timer.actualAlarmTime ≥ alarmTime then (s,s.timer.actualAlarmTime)
  else appoint s s.now alarmTime false

/-- The clock is read twice, the second time `lag` later. -/
def shorten (s : State) (duration : Int) (lag : Nat) : State × Int :=
  let now := s.now
  let s := { s with now := s.now + lag }
  let alarmTime := s.now + duration
  if s.timer.actualAlarmTime ≤ alarmTime then (s,s.timer.actualAlarmTime)
  else appoint s now alarmTime false

/-- Runs the handler if it is time. The handler runs without the timer's lock, so the calls it
makes are events of their own. -/
def alarm (s : State) : State × Bool :=
  if s.timer.actualAlarmTime > s.now ∧ ¬ s.shutingdown then (s,false)
  else ({ s with history := .handled s.now s.shutingdown :: s.history },true)

/-- `Helper::onTime`. -/
def onTime (s : State) : State :=
  let s := { s with timer := { s.timer with refCounter := s.timer.refCounter - 1 } }
  match alarm s with
  | (s,true) => s
  | (s,false) => if s.timer.refCounter = 0 then start s s.timer.actualAlarmTime else s

/-- What can happen next. -/
inductive Event
  | tick (duration : Nat)
  | shutdown
  | startOnce (duration : Int)
  | restart (duration : Int)
  | prolong (duration : Int)
  | shorten (duration : Int) (lag : Nat)
  | wakeup (time : Int)
  deriving DecidableEq

/-- A task is executed when it is due, and at any time while shutting down. -/
def step (s : State) : Event → Option State
  | .tick duration => some { s with now := s.now + duration }
  | .shutdown => some { s with shutingdown := true }
  | .startOnce duration => some (startOnce s duration).1
  | .restart duration => some (restart s duration).1
  | .prolong duration => some (prolong s duration).1
  | .shorten duration lag => some (shorten s duration lag).1
  | .wakeup time =>
    if time ∈ s.queue ∧ (time ≤ s.now ∨ s.shutingdown) then
      some (onTime { s with queue := s.queue.erase time })
    else none

/-- What a timer is to keep: an alarm time that lies ahead and is not handled has a task no later,
one that has come is handled or has a task due, and the handler runs as appointed. -/
structure Sound (s : State) : Prop where
  queued : s.now < s.timer.actualAlarmTime → handledSince s.history = 0 →
    ∃ time ∈ s.queue, time ≤ s.timer.actualAlarmTime
  answered : ∀ alarm, awaited s.history = some alarm → alarm ≤ s.now →
    ∃ time ∈ s.queue, time ≤ s.now
  kept : Kept s.history

/-- What a timer keeps in every run. -/
structure Books (s : State) : Prop where
  counted : s.timer.refCounter = s.queue.length
  idle : appointedLast s.history = none → s.timer.actualAlarmTime ≤ s.now ∧ s.queue = []
  last : ∀ alarm, appointedLast s.history = some alarm → s.timer.actualAlarmTime = alarm
  ahead : s.now < s.timer.actualAlarmTime → handledSince s.history = 0 →
    awaited s.history = some s.timer.actualAlarmTime
  served : handledSince s.history ≠ 0 → s.timer.actualAlarmTime ≤ s.now ∨ s.shutingdown

/-- An alarm time that lies ahead comes before the wake-up noted last, or a task is queued for no
later. -/
def Covered (s : State) (alarmTime : Int) : Prop :=
  s.now < alarmTime → alarmTime < s.timer.nextAlarmTime ∨ ∃ time ∈ s.queue, time ≤ alarmTime

/-- A wake-up whose alarm time has come is the first to find it so, and one that comes before
it is the last queued or leaves another no later. -/
def Leaves (s : State) (queue : List Int) : Prop :=
  if s.timer.actualAlarmTime > s.now ∧ ¬ s.shutingdown then
    queue = [] ∨ ∃ time ∈ queue, time ≤ s.timer.actualAlarmTime
  else handledSince s.history = 0

/-- The steps that go right. -/
def Safe (s : State) : Event → Prop
  | .restart duration => Covered s (s.now + duration)
  | .prolong duration => s.timer.actualAlarmTime < s.now + duration → Covered s (s.now + duration)
  | .shorten duration lag => s.now + lag + duration < s.timer.actualAlarmTime →
      Covered { s with now := s.now + lag } (s.now + lag + duration)
  | .wakeup time => Leaves s (s.queue.erase time)
  | _ => True

section Steps

variable {s t : State} {currentTime alarmTime time : Int} {e : Event}

/-- An appointment that is not made only once queues a wake-up where its time comes before the
one noted last. -/
theorem appoint_again (s : State) (currentTime alarmTime : Int) :
    ∃ next, (appoint s currentTime alarmTime false).1 =
      { s with
        timer := ⟨alarmTime,next,s.timer.refCounter + if alarmTime < s.timer.nextAlarmTime then 1 else 0⟩
        queue := if alarmTime < s.timer.nextAlarmTime then alarmTime :: s.queue else s.queue
        history := .appointed s.now alarmTime :: s.history } := by
  by_cases hnext : alarmTime < s.timer.nextAlarmTime
  · have hlatest : alarmTime < max currentTime s.timer.nextAlarmTime := lt_max_of_lt_right hnext
    refine ⟨alarmTime,?_⟩
    simp [appoint,hnext,not_le.mpr hnext,start,setNext,setAlarm]
  · have hstays : s.timer.nextAlarmTime ≤
        if alarmTime < max currentTime s.timer.nextAlarmTime then alarmTime
        else max currentTime s.timer.nextAlarmTime := by
      split
      · exact not_lt.mp hnext
      · exact le_max_right currentTime s.timer.nextAlarmTime
    refine ⟨if alarmTime < max currentTime s.timer.nextAlarmTime then alarmTime
      else max currentTime s.timer.nextAlarmTime,?_⟩
    simp only [appoint,Bool.false_eq_true,if_false,hstays,if_true,hnext,setNext,setAlarm,
      Nat.add_zero]

theorem tick_books (duration : Nat) (hb : Books s) :
    Books { s with now := s.now + duration } := by
  have hlater : s.now ≤ s.now + duration := by omega
  constructor
  · exact hb.counted
  · intro hnone
    exact ⟨(hb.idle hnone).1.trans hlater,(hb.idle hnone).2⟩
  · exact hb.last
  · intro hahead hserved
    exact hb.ahead (hlater.trans_lt hahead) hserved
  · intro hserved
    exact (hb.served hserved).imp_left fun hdue => hdue.trans hlater

/-- Time that passes leaves the tasks where they are. -/
theorem tick_sound (duration : Nat) (hb : Books s) (hs : Sound s) :
    Sound { s with now := s.now + duration } := by
  have hlater : s.now ≤ s.now + duration := by omega
  constructor
  · intro hahead hserved
    exact hs.queued (hlater.trans_lt hahead) hserved
  · intro alarm halarm hdue
    by_cases hnow : alarm ≤ s.now
    · obtain ⟨time,hmem,htime⟩ := hs.answered alarm halarm hnow
      exact ⟨time,hmem,htime.trans hlater⟩
    · obtain ⟨hlast,hserved⟩ := awaited_some halarm
      have hactual := hb.last alarm hlast
      obtain ⟨time,hmem,htime⟩ := hs.queued (by omega) hserved
      exact ⟨time,hmem,by dsimp only at hdue ⊢; omega⟩
  · exact hs.kept

theorem appoint_books (currentTime alarmTime : Int) (hb : Books s) :
    Books (appoint s currentTime alarmTime false).1 := by
  obtain ⟨next,hnext⟩ := appoint_again s currentTime alarmTime
  rw [hnext]
  constructor
  · simp only [hb.counted]
    split <;> simp
  · simp
  · simp
  · intro hahead _
    simpa using hahead
  · simp

/-- Another appointment keeps the alarm exactly if its time is covered. -/
theorem appoint_sound (currentTime alarmTime : Int) (hs : Sound s) :
    Sound (appoint s currentTime alarmTime false).1 ↔ Covered s alarmTime := by
  obtain ⟨next,hnext⟩ := appoint_again s currentTime alarmTime
  rw [hnext]
  constructor
  · intro h hahead
    obtain ⟨time,hmem,htime⟩ := h.queued hahead rfl
    by_cases hearlier : alarmTime < s.timer.nextAlarmTime
    · exact Or.inl hearlier
    · simp only [hearlier,if_false] at hmem
      exact Or.inr ⟨time,hmem,htime⟩
  · intro hcovered
    constructor
    · intro hahead _
      by_cases hearlier : alarmTime < s.timer.nextAlarmTime
      · exact ⟨alarmTime,by simp [hearlier],le_rfl⟩
      · obtain ⟨time,hmem,htime⟩ := (hcovered hahead).resolve_left hearlier
        exact ⟨time,by simpa [hearlier] using hmem,htime⟩
    · intro alarm halarm hdue
      simp only [awaited_appointed,Option.ite_none_right_eq_some,Option.some.injEq] at halarm
      dsimp only at hdue
      omega
    · exact kept_appointed.mpr hs.kept

theorem startOnce_books (duration : Int) (hb : Books s) : Books (startOnce s duration).1 := by
  by_cases hahead : s.timer.actualAlarmTime > s.now
  · simpa [startOnce,appoint,hahead] using hb
  · simp only [startOnce,appoint,hahead,if_true,if_false,start,setNext,setAlarm]
    constructor
    · simp [hb.counted]
    · simp
    · simp
    · intro hahead _
      simpa using hahead
    · simp

/-- An appointment made only once finds another alarm time ahead or has its own wake-up. -/
theorem startOnce_sound (duration : Int) (hs : Sound s) : Sound (startOnce s duration).1 := by
  by_cases hahead : s.timer.actualAlarmTime > s.now
  · simpa [startOnce,appoint,hahead] using hs
  · simp only [startOnce,appoint,hahead,if_true,if_false,start,setNext,setAlarm]
    constructor
    · intro _ _
      exact ⟨s.now + duration,by simp,le_rfl⟩
    · intro alarm halarm hdue
      simp only [awaited_appointed,Option.ite_none_right_eq_some,Option.some.injEq] at halarm
      dsimp only at hdue
      omega
    · exact kept_appointed.mpr hs.kept

/-- A wake-up that comes before the alarm time. -/
theorem onTime_early (hahead : s.timer.actualAlarmTime > s.now ∧ ¬ s.shutingdown)
    (hb : Books s) (hmem : time ∈ s.queue) :
    onTime { s with queue := s.queue.erase time } =
      if s.queue.erase time = [] then
        { s with timer := { s.timer with refCounter := 1 }, queue := [s.timer.actualAlarmTime] }
      else
        { s with
          timer := { s.timer with refCounter := (s.queue.erase time).length }
          queue := s.queue.erase time } := by
  have hcount : s.timer.refCounter - 1 = (s.queue.erase time).length := by
    rw [hb.counted,List.length_erase_of_mem hmem]
  by_cases hempty : s.queue.erase time = []
  · simp [onTime,alarm,hahead.1,hahead.2,hcount,hempty,start]
  · simp [onTime,alarm,hahead.1,hahead.2,hcount,hempty]

/-- A wake-up that finds the alarm time come, or the shutting down. -/
theorem onTime_due (hdue : ¬ (s.timer.actualAlarmTime > s.now ∧ ¬ s.shutingdown))
    (hb : Books s) (hmem : time ∈ s.queue) :
    onTime { s with queue := s.queue.erase time } =
      { s with
        timer := { s.timer with refCounter := (s.queue.erase time).length }
        queue := s.queue.erase time
        history := .handled s.now s.shutingdown :: s.history } := by
  have hcount : s.timer.refCounter - 1 = (s.queue.erase time).length := by
    rw [hb.counted,List.length_erase_of_mem hmem]
  simp only [onTime,alarm,hdue,if_false,hcount]

theorem come_of_due (hdue : ¬ (s.timer.actualAlarmTime > s.now ∧ ¬ s.shutingdown)) :
    s.timer.actualAlarmTime ≤ s.now ∨ s.shutingdown := by
  by_cases hshut : s.shutingdown
  · exact Or.inr hshut
  · exact Or.inl (not_lt.mp fun hlt => hdue ⟨hlt,hshut⟩)

/-- Tasks are queued for appointments only. -/
theorem appointed_of_mem (hb : Books s) (hmem : time ∈ s.queue) :
    ∃ alarm, appointedLast s.history = some alarm ∧ s.timer.actualAlarmTime = alarm := by
  cases hlast : appointedLast s.history with
  | none => exact absurd hmem (by simp [(hb.idle hlast).2])
  | some alarm => exact ⟨alarm,rfl,hb.last alarm hlast⟩

theorem wakeup_books (hb : Books s) (hmem : time ∈ s.queue) :
    Books (onTime { s with queue := s.queue.erase time }) := by
  obtain ⟨alarm,hlast,hactual⟩ := appointed_of_mem hb hmem
  by_cases hahead : s.timer.actualAlarmTime > s.now ∧ ¬ s.shutingdown
  · rw [onTime_early hahead hb hmem]
    split
    · exact ⟨rfl,by simp [hlast],hb.last,hb.ahead,hb.served⟩
    · exact ⟨rfl,by simp [hlast],hb.last,hb.ahead,hb.served⟩
  · rw [onTime_due hahead hb hmem]
    constructor
    · rfl
    · simp [hlast]
    · exact hb.last
    · simp
    · exact fun _ => come_of_due hahead

theorem wakeup_early (hahead : s.timer.actualAlarmTime > s.now ∧ ¬ s.shutingdown)
    (hb : Books s) (hs : Sound s) (hmem : time ∈ s.queue) :
    Sound (onTime { s with queue := s.queue.erase time }) ↔ Leaves s (s.queue.erase time) := by
  have hserved : handledSince s.history = 0 := by
    by_contra hserved
    exact (hb.served hserved).elim (not_le.mpr hahead.1) hahead.2
  have hnotdue : ∀ alarm, awaited s.history = some alarm → ¬ alarm ≤ s.now := by
    intro alarm halarm
    rw [← hb.last alarm (awaited_some halarm).1]
    exact not_le.mpr hahead.1
  rw [onTime_early hahead hb hmem,Leaves,if_pos hahead]
  by_cases hempty : s.queue.erase time = []
  · simp only [hempty,if_true,true_or,iff_true]
    constructor
    · intro _ _
      exact ⟨s.timer.actualAlarmTime,by simp,le_rfl⟩
    · intro alarm halarm hdue
      exact absurd hdue (hnotdue alarm halarm)
    · exact hs.kept
  · simp only [hempty,if_false,false_or]
    constructor
    · intro h
      exact h.queued hahead.1 hserved
    · intro hleft
      constructor
      · intro _ _
        exact hleft
      · intro alarm halarm hdue
        exact absurd hdue (hnotdue alarm halarm)
      · exact hs.kept

theorem wakeup_due (hdue : ¬ (s.timer.actualAlarmTime > s.now ∧ ¬ s.shutingdown))
    (hb : Books s) (hs : Sound s) (hmem : time ∈ s.queue) :
    Sound (onTime { s with queue := s.queue.erase time }) ↔ Leaves s (s.queue.erase time) := by
  obtain ⟨alarm,hlast,hactual⟩ := appointed_of_mem hb hmem
  rw [onTime_due hdue hb hmem,Leaves,if_neg hdue]
  constructor
  · intro h
    exact (kept_handled.mp h.kept).2.1
  · intro hfirst
    constructor
    · simp
    · simp
    · refine kept_handled.mpr ⟨hs.kept,hfirst,alarm,hlast,fun hforced => ?_⟩
      have hcome := come_of_due hdue
      rw [hforced] at hcome
      simpa [hactual] using hcome

theorem step_books (hb : Books s) (hstep : step s e = some t) : Books t := by
  cases e with
  | tick duration =>
    obtain rfl := Option.some.inj hstep
    exact tick_books duration hb
  | shutdown =>
    obtain rfl := Option.some.inj hstep
    exact ⟨hb.counted,hb.idle,hb.last,hb.ahead,fun _ => Or.inr rfl⟩
  | startOnce duration =>
    obtain rfl := Option.some.inj hstep
    exact startOnce_books duration hb
  | restart duration =>
    obtain rfl := Option.some.inj hstep
    exact appoint_books s.now (s.now + duration) hb
  | prolong duration =>
    obtain rfl := Option.some.inj hstep
    simp only [prolong]
    split
    · exact hb
    · exact appoint_books s.now (s.now + duration) hb
  | shorten duration lag =>
    obtain rfl := Option.some.inj hstep
    simp only [shorten]
    split
    · exact tick_books lag hb
    · exact appoint_books s.now (s.now + lag + duration) (tick_books lag hb)
  | wakeup time =>
    simp only [step,Option.ite_none_right_eq_some,Option.some.injEq] at hstep
    obtain ⟨⟨hmem,_⟩,rfl⟩ := hstep
    exact wakeup_books hb hmem

/-- A step keeps what a timer is to keep exactly if it goes right. -/
theorem step_sound (hb : Books s) (hs : Sound s) (hstep : step s e = some t) :
    Sound t ↔ Safe s e := by
  cases e with
  | tick duration =>
    obtain rfl := Option.some.inj hstep
    exact iff_of_true (tick_sound duration hb hs) trivial
  | shutdown =>
    obtain rfl := Option.some.inj hstep
    exact iff_of_true ⟨hs.queued,hs.answered,hs.kept⟩ trivial
  | startOnce duration =>
    obtain rfl := Option.some.inj hstep
    exact iff_of_true (startOnce_sound duration hs) trivial
  | restart duration =>
    obtain rfl := Option.some.inj hstep
    exact appoint_sound s.now (s.now + duration) hs
  | prolong duration =>
    obtain rfl := Option.some.inj hstep
    by_cases hstays : s.timer.actualAlarmTime ≥ s.now + duration
    · simp only [prolong,hstays,if_true,Safe,not_lt.mpr hstays,false_imp_iff,iff_true]
      exact hs
    · simp only [prolong,hstays,if_false,Safe,not_le.mp hstays,true_imp_iff]
      exact appoint_sound s.now (s.now + duration) hs
  | shorten duration lag =>
    obtain rfl := Option.some.inj hstep
    have hs' := tick_sound lag hb hs
    by_cases hstays : s.timer.actualAlarmTime ≤ s.now + lag + duration
    · simp only [shorten,hstays,if_true,Safe,not_lt.mpr hstays,false_imp_iff,iff_true]
      exact hs'
    · simp only [shorten,hstays,if_false,Safe,not_le.mp hstays,true_imp_iff]
      exact appoint_sound s.now (s.now + lag + duration) hs'
  | wakeup time =>
    simp only [step,Option.ite_none_right_eq_some,Option.some.injEq] at hstep
    obtain ⟨⟨hmem,_⟩,rfl⟩ := hstep
    by_cases hahead : s.timer.actualAlarmTime > s.now ∧ ¬ s.shutingdown
    · exact wakeup_early hahead hb hs hmem
    · exact wakeup_due hahead hb hs hmem

end Steps

open Stepping

theorem init_books (now : Int) : Books (init now) := by
  constructor <;> simp [init,appointedLast,handledSince]

theorem init_sound (now : Int) : Sound (init now) := by
  constructor
  · simp [init]
  · simp [init,awaited]
  · exact Kept.nil

/-- A timer keeps its alarms in every state of a run exactly if the steps of the run go right. -/
theorem sound_iff (now : Int) (events : List Event) :
    (∀ before, before <+: events → ∀ t, run step (init now) before = some t → Sound t) ↔
      Along step Safe (init now) events :=
  run_iff_within (fun _ _ _ => step_books) (fun _ _ _ => step_sound) (init_books now) (init_sound now)

/-- A timer that is prolonged by its own handler, as the one that pings a peer is, has the alarm
but nothing to wake it after the first time. -/
theorem prolonged_lost : ∃ t, run step (init 0) [.prolong 10,.tick 10,.wakeup 10,.prolong 10] = some t ∧
    ¬ Sound t := by
  refine ⟨_,rfl,fun h => ?_⟩
  obtain ⟨time,hmem,_⟩ := h.queued (by decide) rfl
  exact List.not_mem_nil hmem

end Timer
end Tkeycoin
