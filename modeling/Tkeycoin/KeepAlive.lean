import Tkeycoin.Stepping
import Mathlib.Tactic.Common

/-! How a peer is kept alive: the ping timer, the pings that are sent and the pongs that are received. -/
namespace Tkeycoin

/-- What a peer remembers of its last ping, when `_pingTimer` runs out if there is one yet, and whether
the peer was closed. -/
structure KeepAlive where
  _pingNonce : UInt64
  alarm : Option ℕ
  now : ℕ
  closed : Bool
  deriving DecidableEq

namespace KeepAlive

/-- Why `close` is called. -/
inductive Reason
  | shutingDown | pongTimeout | wrongNonce
  deriving DecidableEq

inductive Action
  | ping (nonce : UInt64)
  | alive
  | close (reason : Reason)
  deriving DecidableEq

/-- What can happen: time goes by, the timer runs out (`rand` is what `GetRand` would give), and a pong
is received. -/
inductive Event
  | tick (duration : ℕ)
  | expire (shutingdown : Bool) (rand : UInt64)
  | pong (nonce : UInt64)

section Definitions

variable (p : KeepAlive)

def pingInterval : ℕ := 300

/-- `_pingTimer->prolong(pingInterval())`, which never brings the alarm forward. -/
def prolong : KeepAlive := { p with alarm := some (max (p.alarm.getD 0) (p.now + pingInterval)) }

/-- `alive`. The timer is made when it is called first. -/
def alive : KeepAlive := prolong { p with _pingNonce := 0 }

/-- The handler of `_pingTimer`. -/
def onPingTimer (shutingdown : Bool) (rand : UInt64) : KeepAlive × List Action :=
  if p._pingNonce ≠ 0 then
    (prolong { p with closed := true },[.close (if shutingdown then .shutingDown else .pongTimeout)])
  else (prolong { p with _pingNonce := rand },[.ping rand])

/-- `pong`. -/
def pong (nonce : UInt64) : KeepAlive × List Action :=
  if nonce ≠ p._pingNonce then ({ p with closed := true },[.close .wrongNonce]) else (p.alive,[.alive])

/-- A peer that was closed takes part in nothing. -/
def step : Event → Option (KeepAlive × List Action)
  | .tick duration => some ({ p with now := p.now + duration },[])
  | .expire shutingdown rand =>
    if p.closed = false ∧ p.alarm.any (fun time => time ≤ p.now ∨ shutingdown) then
      some (p.onPingTimer shutingdown rand)
    else none
  | .pong nonce => if p.closed then none else some (p.pong nonce)

end Definitions

/-- The nonce of the ping that is outstanding behind an event: that of the last one sent, until it comes
back. -/
def outstanding (was : Option UInt64) (event : Event) (actions : List Action) : Option UInt64 :=
  let was := match event with
    | .pong nonce => if was = some nonce then none else was
    | _ => was
  actions.foldl (fun was action => match action with
    | .ping nonce => some nonce
    | _ => was) was

/-- A peer, and the ping that is outstanding. -/
abbrev Watched := KeepAlive × Option UInt64

def watch (w : Watched) (event : Event) : Option Watched :=
  (w.1.step event).map fun (p,actions) => (p,outstanding w.2 event actions)

/-- A new peer behind `initialSetup`, which sends the ping of the nonce that the constructor draws. -/
def start (now : ℕ) (rand : UInt64) : Watched := (⟨rand,none,now,false⟩,some rand)

/-- Only the pong for the ping that is outstanding makes a peer alive again, any other one is of no avail,
and a ping that is outstanding when the timer runs out ends the connection. -/
structure Rightful (was : Option UInt64) (event : Event) (p t : KeepAlive) (actions : List Action) : Prop where
  alive : .alive ∈ actions → ∃ nonce, event = .pong nonce ∧ was = some nonce
  pong : ∀ nonce, event = .pong nonce → was ≠ some nonce → t._pingNonce = p._pingNonce ∧ t.alarm = p.alarm
  expire : ∀ shutingdown rand, event = .expire shutingdown rand → was ≠ none → ∃ reason, .close reason ∈ actions

/-- The step that follows is as it should be. -/
def StepsRightfully (w : Watched) (event : Event) : Prop :=
  ∀ t actions, w.1.step event = some (t,actions) → Rightful w.2 event w.1 t actions

/-- No pong of nonce zero comes while no ping is outstanding, and the timer does not run out on a ping of
nonce zero. -/
def NoZero (w : Watched) : Event → Prop
  | .pong nonce => w.2 = none → nonce ≠ 0
  | .expire _ _ => w.2 ≠ some 0
  | .tick _ => True

/-- Zero stands for no ping. -/
def Marked (w : Watched) : Prop := w.1._pingNonce = w.2.getD 0

section Steps

variable {w w' : Watched} {p t : KeepAlive} {was : Option UInt64} {event : Event} {actions : List Action}

/-- All that a step can do. -/
theorem step_cases (h : p.step event = some (t,actions)) :
    (∃ duration, event = .tick duration ∧ t = { p with now := p.now + duration } ∧ actions = []) ∨
    (∃ shutingdown rand reason, event = .expire shutingdown rand ∧ p._pingNonce ≠ 0 ∧
      t = prolong { p with closed := true } ∧ actions = [.close reason]) ∨
    (∃ shutingdown rand, event = .expire shutingdown rand ∧ p._pingNonce = 0 ∧
      t = prolong { p with _pingNonce := rand } ∧ actions = [.ping rand]) ∨
    (∃ nonce, event = .pong nonce ∧ nonce ≠ p._pingNonce ∧ t = { p with closed := true } ∧
      actions = [.close .wrongNonce]) ∨
    event = .pong p._pingNonce ∧ t = p.alive ∧ actions = [.alive] := by
  cases event with
  | tick duration =>
    obtain ⟨rfl,rfl⟩ := Prod.mk.inj (Option.some.inj h)
    exact .inl ⟨duration,rfl,rfl,rfl⟩
  | expire shutingdown rand =>
    rw [step] at h
    split_ifs at h
    have ht := Option.some.inj h
    rw [onPingTimer] at ht
    by_cases hnonce : p._pingNonce ≠ 0
    · rw [if_pos hnonce] at ht
      obtain ⟨rfl,rfl⟩ := Prod.mk.inj ht
      exact .inr (.inl ⟨shutingdown,rand,_,rfl,hnonce,rfl,rfl⟩)
    · rw [if_neg hnonce] at ht
      obtain ⟨rfl,rfl⟩ := Prod.mk.inj ht
      exact .inr (.inr (.inl ⟨shutingdown,rand,rfl,not_not.mp hnonce,rfl,rfl⟩))
  | pong nonce =>
    rw [step] at h
    split_ifs at h
    have ht := Option.some.inj h
    rw [KeepAlive.pong] at ht
    by_cases hnonce : nonce ≠ p._pingNonce
    · rw [if_pos hnonce] at ht
      obtain ⟨rfl,rfl⟩ := Prod.mk.inj ht
      exact .inr (.inr (.inr (.inl ⟨nonce,rfl,hnonce,rfl,rfl⟩)))
    · rw [if_neg hnonce] at ht
      obtain ⟨rfl,rfl⟩ := Prod.mk.inj ht
      obtain rfl := not_not.mp hnonce
      exact .inr (.inr (.inr (.inr ⟨rfl,rfl,rfl⟩)))

theorem step_marked (hmark : p._pingNonce = was.getD 0) (h : p.step event = some (t,actions)) :
    t._pingNonce = (outstanding was event actions).getD 0 := by
  rcases step_cases h with ⟨duration,rfl,rfl,rfl⟩ | ⟨shutingdown,rand,reason,rfl,hne,rfl,rfl⟩ |
    ⟨shutingdown,rand,rfl,hzero,rfl,rfl⟩ | ⟨nonce,rfl,hne,rfl,rfl⟩ | ⟨rfl,rfl,rfl⟩
  · exact hmark
  · exact hmark
  · rfl
  · have hother : ¬ was = some nonce := by
      rintro rfl
      exact hne hmark.symm
    have hsame : outstanding was (.pong nonce) [.close .wrongNonce] = was := if_neg hother
    rw [hsame]
    exact hmark
  · -- the ping that comes back is the one that is outstanding, if there is one
    have hnone : outstanding was (.pong p._pingNonce) [.alive] = none := by
      cases was with
      | none => simp [outstanding]
      | some nonce => exact if_pos (congrArg some hmark.symm)
    rw [hnone]
    rfl

theorem rightful_step_iff (hmark : p._pingNonce = was.getD 0) (h : p.step event = some (t,actions)) :
    Rightful was event p t actions ↔ NoZero (p,was) event := by
  rcases step_cases h with ⟨duration,rfl,rfl,rfl⟩ | ⟨shutingdown,rand,reason,rfl,hne,rfl,rfl⟩ |
    ⟨shutingdown,rand,rfl,hzero,rfl,rfl⟩ | ⟨nonce,rfl,hne,rfl,rfl⟩ | ⟨rfl,rfl,rfl⟩
  · exact iff_of_true ⟨nofun,nofun,nofun⟩ trivial
  · refine iff_of_true ⟨by simp,nofun,fun _ _ _ _ => ⟨reason,List.mem_singleton_self _⟩⟩ ?_
    rintro rfl
    exact hne hmark
  · constructor
    · rintro hright rfl
      obtain ⟨reason,hclose⟩ := hright.expire shutingdown rand rfl (Option.some_ne_none 0)
      simp at hclose
    · intro hsome
      refine ⟨by simp,nofun,fun _ _ _ hne => absurd ?_ hne⟩
      cases was with
      | none => rfl
      | some nonce =>
        have hnonce : nonce = 0 := hmark.symm.trans hzero
        exact absurd (congrArg some hnonce) hsome
  · refine iff_of_true ⟨by simp,fun _ _ _ => ⟨rfl,rfl⟩,nofun⟩ ?_
    rintro rfl rfl
    exact hne hmark.symm
  · constructor
    · rintro hright rfl
      obtain ⟨nonce,-,hsome⟩ := hright.alive (List.mem_singleton_self _)
      contradiction
    · intro hnonzero
      have hsome : was = some p._pingNonce := by
        cases was with
        | none => exact absurd hmark (hnonzero rfl)
        | some nonce => exact congrArg some hmark.symm
      exact ⟨fun _ => ⟨_,rfl,hsome⟩,fun nonce heq hne => absurd (Event.pong.inj heq ▸ hsome) hne,nofun⟩

theorem Marked.step (h : Marked w) (hw : watch w event = some w') : Marked w' := by
  obtain ⟨⟨t,actions⟩,hstep,rfl⟩ := Option.map_eq_some_iff.mp hw
  exact step_marked h hstep

theorem stepsRightfully_iff (h : Marked w) (hw : watch w event = some w') :
    StepsRightfully w event ↔ NoZero w event := by
  obtain ⟨⟨t,actions⟩,hstep,rfl⟩ := Option.map_eq_some_iff.mp hw
  rw [← rightful_step_iff h hstep]
  constructor
  · exact fun hright => hright t actions hstep
  · intro hright t' actions' hstep'
    obtain ⟨rfl,rfl⟩ := Prod.mk.inj (Option.some.inj (hstep.symm.trans hstep'))
    exact hright

end Steps

/-- In a run of a peer every step is as it should be exactly if no pong of nonce zero comes while no ping
is outstanding, and the timer does not run out while a ping of nonce zero is. -/
theorem rightful_iff (now : ℕ) (rand : UInt64) (events : List Event) :
    Stepping.Along watch StepsRightfully (start now rand) events ↔
      Stepping.Along watch NoZero (start now rand) events :=
  Stepping.along_congr (fun _ _ _ h hw => h.step hw) (fun _ _ _ h hw => stepsRightfully_iff h hw) rfl

/-- A pong of nonce zero prolongs the timer of a peer whose last ping was answered. -/
theorem zero_pong_alive : ¬ ∀ (now : ℕ) (rand : UInt64) (events : List Event),
    Stepping.Along watch StepsRightfully (start now rand) events := by
  intro h
  have hsteps := h 0 7 [.pong 7,.tick 200,.pong 0]
  have hpong := ((((hsteps _ rfl).2 _ rfl).2 _ rfl).1 _ _ rfl).pong 0 rfl nofun
  exact absurd hpong.2 (by decide)

end KeepAlive
end Tkeycoin
