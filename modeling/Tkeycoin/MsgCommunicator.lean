import Tkeycoin.Stepping

/-! `MsgCommunicator`: an outgoing connection up to the end of its handshake, and the handlers it
calls then. -/
namespace Tkeycoin

/-- What `getContext` of a connection gives: nothing, a `MsgContext`, or another context. -/
inductive ConnectionContext
  | missing | message | foreign
  deriving DecidableEq

namespace MsgCommunicator

inductive State
  | INIT | CONNECT | CONNECTED | SUBMIT | SUBMITED | ESTABLISHED | ERROR
  deriving DecidableEq

/-- The states that are not left any more. -/
def State.final : State → Bool
  | ESTABLISHED | ERROR => true
  | _ => false

end MsgCommunicator

open MsgCommunicator (State)

/-- The fields that the callbacks read, whether there are handlers, and a record of the calls of
`done` and of the handlers. A call of `done` is cleaned up once its handler has returned. -/
structure MsgCommunicator where
  _state : State
  _error : String
  _connection : Option ConnectionContext
  _onSuccessHandler : Bool
  _onFailHandler : Bool
  dones : ℕ
  successCalls : ℕ
  failCalls : ℕ
  cleanups : ℕ
  deriving DecidableEq

namespace MsgCommunicator

/-- The constructor. -/
def create (onSuccessHandler onFailHandler : Bool) : MsgCommunicator :=
  ⟨.INIT,"No run",none,onSuccessHandler,onFailHandler,0,0,0,0⟩

/-- How `submit` gets on between its two states: it may fail before the message is under way, and
behind that. -/
inductive Submission
  | sent
  | failed (what : String)
  | unwatched (what : String)

/-- What the callbacks are called with. Handlers may call back, so what happens before the cleanup
is like other events; `assign` is a connected handler that has not got the lock yet. -/
inductive Event
  | start (failure : Option String)
  | assign (connection : ConnectionContext)
  | connected (connection : ConnectionContext) (submission : Submission)
  | failConnect
  | exceptionAtConnect
  | exceptionAtSubmit
  | submit (submission : Submission)
  | complete (established : Bool)
  | failProcessing
  | onComplete
  | onError
  | badStep
  | cleanup

section Definitions

variable (c : MsgCommunicator)

/-- `done` up to the return of the handler. `none` is a null pointer or a failed assertion. -/
def done : Option MsgCommunicator :=
  let c := { c with dones := c.dones + 1, cleanups := c.cleanups + 1 }
  if c._error = "" then
    match c._connection with
    | none => none
    | some .foreign => none
    | some _ => some { c with
        _connection := some .message
        successCalls := if c._onSuccessHandler then c.successCalls + 1 else c.successCalls }
  else some { c with failCalls := if c._onFailHandler then c.failCalls + 1 else c.failCalls }

/-- The rest of `done`. -/
def cleanup : MsgCommunicator :=
  if c.cleanups = 0 then c
  else { c with
    cleanups := c.cleanups - 1
    _connection := if c._state ≠ .ESTABLISHED then none else c._connection }

/-- What all ways into the error state have in common. -/
def fail (error : String) : Option MsgCommunicator :=
  { c with _state := .ERROR, _error := if c._error = "" then error else c._error }.done

def badStep : Option MsgCommunicator :=
  if c._state = .ERROR ∨ c._state = .ESTABLISHED then some c else c.fail "Processing order error"

def exceptionAtConnect : Option MsgCommunicator :=
  if c._state ≠ .CONNECT then c.badStep else c.fail "Exception at connect"

/-- `operator()`, which may fail where the connector is made or handed over. -/
def start (failure : Option String) : Option MsgCommunicator :=
  if c._state ≠ .INIT then c.badStep
  else
    let c := { c with _error := "", _state := .CONNECT }
    match failure with
    | none => some c
    | some what => { c with _error := "Exception at connect ← " ++ what }.exceptionAtConnect

def failConnect : Option MsgCommunicator :=
  if c._state ≠ .CONNECT then c.badStep else c.fail "Fail connect"

def exceptionAtSubmit : Option MsgCommunicator :=
  if c._state ≠ .SUBMIT then c.badStep else c.fail "Exception at submit"

/-- The handler of exceptions in `submit`. -/
def uncatchedAtSubmit (what : String) : Option MsgCommunicator :=
  { c with _error := "Internal error: Uncatched exception at submit ← " ++ what }.exceptionAtSubmit

def submit (submission : Submission) : Option MsgCommunicator :=
  if c._state ≠ .CONNECTED then c.badStep
  else
    let c := { c with _state := .SUBMIT }
    match c._connection with
    | none => none
    | some .missing | some .foreign => c.uncatchedAtSubmit "Bad context"
    | some .message =>
      match submission with
      | .failed what => c.uncatchedAtSubmit what
      | .sent => some { c with _state := .SUBMITED }
      | .unwatched what => { c with _state := .SUBMITED }.uncatchedAtSubmit what

/-- `onConnected`, which throws where the context is another one. -/
def onConnected (submission : Submission) : Option MsgCommunicator :=
  if c._state ≠ .CONNECT then c.badStep
  else
    let c := { c with _state := .CONNECTED }
    match c._connection with
    | none => none
    | some .foreign => some c
    | some _ => { c with _connection := some .message }.submit submission

/-- The handler that the connector calls with its connection. -/
def connected (connection : ConnectionContext) (submission : Submission) : Option MsgCommunicator :=
  { c with _connection := some connection }.onConnected submission

def failProcessing : Option MsgCommunicator :=
  if c._state ≠ .CONNECTED ∧ c._state ≠ .SUBMIT ∧ c._state ≠ .SUBMITED then c.badStep
  else c.fail "Exception after connected"

/-- `onComplete`, which throws where the context is no `MsgContext`. -/
def onComplete : Option MsgCommunicator :=
  if c._state = .ESTABLISHED then some c
  else if c._state ≠ .SUBMITED then c.badStep
  else
    match c._connection with
    | none => none
    | some .message => { c with _error := "", _state := .ESTABLISHED }.done
    | some _ => some c

def onError : Option MsgCommunicator :=
  if c._state ≠ .CONNECTED ∧ c._state ≠ .SUBMIT ∧ c._state ≠ .SUBMITED then c.badStep
  else
    -- the connection is given a short life before `done`
    match c._connection with
    | none => none
    | some _ => c.fail "Error at processing"

/-- One callback. The mutex is held all through it, up to what the handlers do. -/
def step : Event → Option MsgCommunicator
  | .start failure => c.start failure
  | .assign connection => some { c with _connection := some connection }
  | .connected connection submission => c.connected connection submission
  | .failConnect => c.failConnect
  | .exceptionAtConnect => c.exceptionAtConnect
  | .exceptionAtSubmit => c.exceptionAtSubmit
  | .submit submission => c.submit submission
  | .complete established => if established then some c else c.failProcessing
  | .failProcessing => c.failProcessing
  | .onComplete => c.onComplete
  | .onError => c.onError
  | .badStep => c.badStep
  | .cleanup => some c.cleanup

end Definitions

/-- What the callbacks have led to. -/
abbrev run (c : MsgCommunicator) (events : List Event) : Option MsgCommunicator :=
  Stepping.run step c events

section Invariant

variable {c t : MsgCommunicator}

/-- No handler has been called. -/
structure Untouched (c : MsgCommunicator) : Prop where
  dones : c.dones = 0
  successCalls : c.successCalls = 0
  failCalls : c.failCalls = 0
  cleanups : c.cleanups = 0

/-- What each state says about the calls, and about the connection. -/
structure Valid (onSuccessHandler onFailHandler : Bool) (c : MsgCommunicator) : Prop where
  success : c._onSuccessHandler = onSuccessHandler
  failure : c._onFailHandler = onFailHandler
  untouched : c._state.final = false → Untouched c
  error : c._state = .ERROR → c.dones = 1 ∧ c.successCalls = 0 ∧ c.failCalls = onFailHandler.toNat
  established : c._state = .ESTABLISHED →
    c.dones = 1 ∧ c.successCalls = onSuccessHandler.toNat ∧ c.failCalls = 0
  connection : c._state = .CONNECTED ∨ c._state = .SUBMIT ∨ c._state = .SUBMITED → c._connection ≠ none

variable {onSuccessHandler onFailHandler : Bool}

theorem create_valid : Valid onSuccessHandler onFailHandler (create onSuccessHandler onFailHandler) where
  success := rfl
  failure := rfl
  untouched := fun _ => ⟨rfl,rfl,rfl,rfl⟩
  error := nofun
  established := nofun
  connection := by simp [create]

/-- In states that may be left nothing depends on the error text, and on the connection only that
there is one. -/
theorem Valid.move (h : Valid onSuccessHandler onFailHandler c) (hopen : c._state.final = false) {state : State}
    (hstate : state.final = false) (error : String) {connection : Option ConnectionContext}
    (hconnection : state = .CONNECTED ∨ state = .SUBMIT ∨ state = .SUBMITED → connection ≠ none) :
    Valid onSuccessHandler onFailHandler { c with
      _state := state, _error := error, _connection := connection } where
  success := h.success
  failure := h.failure
  untouched := fun _ =>
    have hc := h.untouched hopen
    ⟨hc.dones,hc.successCalls,hc.failCalls,hc.cleanups⟩
  error := by
    rintro rfl
    contradiction
  established := by
    rintro rfl
    contradiction
  connection := hconnection

/-- A state that may be left becomes the error state, with one call of `done`. -/
theorem Valid.fail (h : Valid onSuccessHandler onFailHandler c) (hopen : c._state.final = false) {error : String}
    (herror : error ≠ "") : ∃ t, c.fail error = some t ∧ Valid onSuccessHandler onFailHandler t := by
  have htext : (if c._error = "" then error else c._error) ≠ "" := by split_ifs <;> assumption
  obtain ⟨hdones,hsuccess,hfail,-⟩ := h.untouched hopen
  refine ⟨_,by rw [MsgCommunicator.fail,done]; exact if_neg htext,?_⟩
  constructor
  · exact h.success
  · exact h.failure
  · nofun
  · intro _
    have hhandler := h.failure
    cases onFailHandler <;> simp [hdones,hsuccess,hfail,hhandler]
  · nofun
  · simp

theorem badStep_final (h : c._state.final = true) : c.badStep = some c := by
  have hstate : c._state = .ERROR ∨ c._state = .ESTABLISHED := by
    cases hc : c._state <;> simp_all [State.final]
  exact if_pos hstate

theorem Valid.badStep (h : Valid onSuccessHandler onFailHandler c) :
    ∃ t, c.badStep = some t ∧ Valid onSuccessHandler onFailHandler t := by
  by_cases hfinal : c._state.final = true
  · exact ⟨c,badStep_final hfinal,h⟩
  · have hopen : c._state.final = false := by simpa using hfinal
    have hstate : ¬ (c._state = .ERROR ∨ c._state = .ESTABLISHED) := by
      rintro (hc | hc) <;> rw [hc] at hopen <;> contradiction
    rw [MsgCommunicator.badStep,if_neg hstate]
    exact h.fail hopen (by decide)

theorem Valid.fail_or_badStep (h : Valid onSuccessHandler onFailHandler c) {refused : Prop} [Decidable refused]
    (hopen : ¬ refused → c._state.final = false) {error : String} (herror : error ≠ "") :
    ∃ t, (if refused then c.badStep else c.fail error) = some t ∧
      Valid onSuccessHandler onFailHandler t := by
  split_ifs with hrefused
  · exact h.badStep
  · exact h.fail (hopen hrefused) herror

theorem final_of_state {state : State} (hstate : state.final = false) (h : ¬ c._state ≠ state) :
    c._state.final = false := by
  rw [not_not.mp h]
  exact hstate

theorem Valid.exceptionAtConnect (h : Valid onSuccessHandler onFailHandler c) :
    ∃ t, c.exceptionAtConnect = some t ∧ Valid onSuccessHandler onFailHandler t :=
  h.fail_or_badStep (final_of_state rfl) (by decide)

theorem Valid.failConnect (h : Valid onSuccessHandler onFailHandler c) :
    ∃ t, c.failConnect = some t ∧ Valid onSuccessHandler onFailHandler t :=
  h.fail_or_badStep (final_of_state rfl) (by decide)

theorem Valid.exceptionAtSubmit (h : Valid onSuccessHandler onFailHandler c) :
    ∃ t, c.exceptionAtSubmit = some t ∧ Valid onSuccessHandler onFailHandler t :=
  h.fail_or_badStep (final_of_state rfl) (by decide)

theorem open_of_processing
    (h : ¬ (c._state ≠ .CONNECTED ∧ c._state ≠ .SUBMIT ∧ c._state ≠ .SUBMITED)) :
    (c._state = .CONNECTED ∨ c._state = .SUBMIT ∨ c._state = .SUBMITED) ∧ c._state.final = false := by
  have hstate : c._state = .CONNECTED ∨ c._state = .SUBMIT ∨ c._state = .SUBMITED := by
    by_contra hnot
    push Not at hnot
    exact h hnot
  refine ⟨hstate,?_⟩
  rcases hstate with hc | hc | hc <;> rw [hc] <;> rfl

theorem Valid.failProcessing (h : Valid onSuccessHandler onFailHandler c) :
    ∃ t, c.failProcessing = some t ∧ Valid onSuccessHandler onFailHandler t :=
  h.fail_or_badStep (fun hopen => (open_of_processing hopen).2) (by decide)

theorem Valid.onError (h : Valid onSuccessHandler onFailHandler c) :
    ∃ t, c.onError = some t ∧ Valid onSuccessHandler onFailHandler t := by
  rw [MsgCommunicator.onError]
  split_ifs with hrefused
  · exact h.badStep
  · obtain ⟨hstate,hopen⟩ := open_of_processing hrefused
    cases hconnection : c._connection with
    | none => exact absurd hconnection (h.connection hstate)
    | some context => exact h.fail hopen (by decide)

theorem Valid.start (h : Valid onSuccessHandler onFailHandler c) (failure : Option String) :
    ∃ t, c.start failure = some t ∧ Valid onSuccessHandler onFailHandler t := by
  rw [MsgCommunicator.start]
  split_ifs with hrefused
  · exact h.badStep
  · have hopen : c._state.final = false := final_of_state rfl hrefused
    have hconnect (error : String) : Valid onSuccessHandler onFailHandler { c with
        _error := error, _state := .CONNECT } := h.move hopen rfl error (by simp)
    cases failure with
    | none => exact ⟨_,rfl,hconnect ""⟩
    | some what => exact (hconnect _).exceptionAtConnect

theorem Valid.uncatchedAtSubmit (h : Valid onSuccessHandler onFailHandler c) (hopen : c._state.final = false)
    (what : String) : ∃ t, c.uncatchedAtSubmit what = some t ∧ Valid onSuccessHandler onFailHandler t :=
  (h.move hopen hopen _ h.connection).exceptionAtSubmit

theorem Valid.submit (h : Valid onSuccessHandler onFailHandler c) (submission : Submission) :
    ∃ t, c.submit submission = some t ∧ Valid onSuccessHandler onFailHandler t := by
  rw [MsgCommunicator.submit]
  split_ifs with hrefused
  · exact h.badStep
  · have hopen : c._state.final = false := final_of_state rfl hrefused
    have hconnection := h.connection (.inl (not_not.mp hrefused))
    have hmove (state : State) (hstate : state.final = false) : Valid onSuccessHandler onFailHandler
        { c with _state := state } := h.move hopen hstate c._error fun _ => hconnection
    have hsubmit := hmove .SUBMIT rfl
    dsimp only
    split
    · contradiction
    · exact hsubmit.uncatchedAtSubmit rfl _
    · exact hsubmit.uncatchedAtSubmit rfl _
    · cases submission with
      | sent => exact ⟨_,rfl,hmove _ rfl⟩
      | failed what => exact hsubmit.uncatchedAtSubmit rfl _
      | unwatched what => exact (hmove .SUBMITED rfl).uncatchedAtSubmit rfl _

theorem Valid.assign (h : Valid onSuccessHandler onFailHandler c) (connection : ConnectionContext) :
    Valid onSuccessHandler onFailHandler { c with _connection := some connection } where
  success := h.success
  failure := h.failure
  untouched := fun hopen =>
    have hc := h.untouched hopen
    ⟨hc.dones,hc.successCalls,hc.failCalls,hc.cleanups⟩
  error := h.error
  established := h.established
  connection := by simp

theorem Valid.connected (h : Valid onSuccessHandler onFailHandler c) (connection : ConnectionContext)
    (submission : Submission) :
    ∃ t, c.connected connection submission = some t ∧ Valid onSuccessHandler onFailHandler t := by
  rw [MsgCommunicator.connected,onConnected]
  split_ifs with hrefused
  · exact (h.assign connection).badStep
  · have hopen : c._state.final = false := final_of_state rfl hrefused
    have hmove (context : ConnectionContext) : Valid onSuccessHandler onFailHandler
        { c with _state := .CONNECTED, _connection := some context } :=
      h.move hopen rfl c._error (by simp)
    cases connection with
    | foreign => exact ⟨_,rfl,hmove _⟩
    | missing => exact (hmove _).submit submission
    | message => exact (hmove _).submit submission

/-- Success is told with the connection that is there, and its context. -/
theorem Valid.onComplete (h : Valid onSuccessHandler onFailHandler c) :
    ∃ t, c.onComplete = some t ∧ Valid onSuccessHandler onFailHandler t := by
  rw [MsgCommunicator.onComplete]
  split_ifs with hdone hrefused
  · exact ⟨c,rfl,h⟩
  · exact h.badStep
  · have hopen : c._state.final = false := final_of_state rfl hrefused
    obtain ⟨hdones,hsuccess,hfail,-⟩ := h.untouched hopen
    have hconnection := h.connection (.inr (.inr (not_not.mp hrefused)))
    have hhandler := h.success
    cases hcontext : c._connection with
    | none => contradiction
    | some context =>
      cases context with
      | missing => exact ⟨c,rfl,h⟩
      | foreign => exact ⟨c,rfl,h⟩
      | message =>
        refine ⟨_,by rw [done]; exact if_pos rfl,?_⟩
        constructor
        · exact h.success
        · exact h.failure
        · nofun
        · nofun
        · intro _
          cases onSuccessHandler <;> simp [hdones,hsuccess,hfail,hhandler]
        · simp

theorem Valid.cleanup (h : Valid onSuccessHandler onFailHandler c) :
    Valid onSuccessHandler onFailHandler c.cleanup := by
  rw [MsgCommunicator.cleanup]
  by_cases hcleanups : c.cleanups = 0
  · rwa [if_pos hcleanups]
  · rw [if_neg hcleanups]
    have hfinal : ¬ c._state.final = false := fun hopen => hcleanups (h.untouched hopen).cleanups
    constructor
    · exact h.success
    · exact h.failure
    · exact fun hopen => absurd hopen hfinal
    · exact h.error
    · exact h.established
    · intro hstate
      refine absurd ?_ hfinal
      rcases hstate with hc | hc | hc
      all_goals
        dsimp only at hc
        rw [hc]
        rfl

theorem Valid.step (h : Valid onSuccessHandler onFailHandler c) (event : Event) :
    ∃ t, c.step event = some t ∧ Valid onSuccessHandler onFailHandler t := by
  cases event with
  | start failure => exact h.start failure
  | assign connection => exact ⟨_,rfl,h.assign connection⟩
  | connected connection submission => exact h.connected connection submission
  | failConnect => exact h.failConnect
  | exceptionAtConnect => exact h.exceptionAtConnect
  | exceptionAtSubmit => exact h.exceptionAtSubmit
  | submit submission => exact h.submit submission
  | complete established =>
    cases established with
    | true => exact ⟨c,rfl,h⟩
    | false => exact h.failProcessing
  | failProcessing => exact h.failProcessing
  | onComplete => exact h.onComplete
  | onError => exact h.onError
  | badStep => exact h.badStep
  | cleanup => exact ⟨_,rfl,h.cleanup⟩

/-- Nothing but the connection and the cleanups to come differ. -/
structure Settled (c t : MsgCommunicator) : Prop where
  state : t._state = c._state
  dones : t.dones = c.dones
  successCalls : t.successCalls = c.successCalls
  failCalls : t.failCalls = c.failCalls

theorem Settled.refl (c : MsgCommunicator) : Settled c c := ⟨rfl,rfl,rfl,rfl⟩

theorem Settled.trans {u : MsgCommunicator} (h : Settled c t) (h' : Settled t u) : Settled c u :=
  ⟨h'.state.trans h.state,h'.dones.trans h.dones,h'.successCalls.trans h.successCalls,
    h'.failCalls.trans h.failCalls⟩

theorem final_ne {state : State} (hfinal : c._state.final = true) (hstate : state.final = false) :
    c._state ≠ state := by
  rintro rfl
  rw [hstate] at hfinal
  contradiction

/-- No callback does anything more in a final state. -/
theorem step_final (hfinal : c._state.final = true) {event : Event} (h : c.step event = some t) :
    Settled c t := by
  have hne {state : State} (hstate : state.final = false) : c._state ≠ state := final_ne hfinal hstate
  have hself {t : MsgCommunicator} (ht : c.badStep = some t) : Settled c t := by
    rw [badStep_final hfinal] at ht
    obtain rfl := Option.some.inj ht
    exact Settled.refl c
  have hprocessing : c._state ≠ .CONNECTED ∧ c._state ≠ .SUBMIT ∧ c._state ≠ .SUBMITED :=
    ⟨hne rfl,hne rfl,hne rfl⟩
  cases event with
  | start failure => exact hself (by rwa [step,start,if_pos (hne rfl)] at h)
  | assign connection =>
    obtain rfl := Option.some.inj h
    exact ⟨rfl,rfl,rfl,rfl⟩
  | connected connection submission =>
    have hself' : ({ c with _connection := some connection } : MsgCommunicator).badStep = some _ :=
      badStep_final hfinal
    have hstate : ({ c with _connection := some connection } : MsgCommunicator)._state ≠ .CONNECT := hne rfl
    rw [step,connected,onConnected,if_pos hstate,hself'] at h
    obtain rfl := Option.some.inj h
    exact ⟨rfl,rfl,rfl,rfl⟩
  | failConnect => exact hself (by rwa [step,failConnect,if_pos (hne rfl)] at h)
  | exceptionAtConnect => exact hself (by rwa [step,exceptionAtConnect,if_pos (hne rfl)] at h)
  | exceptionAtSubmit => exact hself (by rwa [step,exceptionAtSubmit,if_pos (hne rfl)] at h)
  | submit submission => exact hself (by rwa [step,submit,if_pos (hne rfl)] at h)
  | complete established =>
    cases established with
    | true =>
      obtain rfl := Option.some.inj h
      exact Settled.refl c
    | false => exact hself ((if_pos hprocessing).symm.trans h)
  | failProcessing => exact hself ((if_pos hprocessing).symm.trans h)
  | onComplete =>
    rw [step,onComplete] at h
    split_ifs at h with hdone hstate
    · obtain rfl := Option.some.inj h
      exact Settled.refl c
    · exact hself h
    · exact absurd (not_not.mp hstate) (hne rfl)
  | onError => exact hself ((if_pos hprocessing).symm.trans h)
  | badStep => exact hself h
  | cleanup =>
    obtain rfl := Option.some.inj h
    rw [cleanup]
    by_cases hcleanups : c.cleanups = 0
    · rw [if_pos hcleanups]
      exact Settled.refl c
    · rw [if_neg hcleanups]
      exact ⟨rfl,rfl,rfl,rfl⟩

theorem run_final (hfinal : c._state.final = true) {events : List Event} (h : c.run events = some t) :
    Settled c t := by
  have hall : Stepping.Along step (fun _ _ => True) c events :=
    Stepping.Along.of_forall (fun _ _ => trivial) c events
  refine Stepping.run_invariant (I := Settled c) (fun s e t hs _ ht => ?_) hall (Settled.refl c) h
  exact hs.trans (step_final (by rw [hs.state]; exact hfinal) ht)

/-- The calls, from the state. -/
theorem Valid.calls (h : Valid onSuccessHandler onFailHandler c) :
    c.successCalls + c.failCalls ≤ c.dones ∧ c.dones ≤ 1 ∧
      (0 < c.successCalls ↔ onSuccessHandler = true ∧ c._state = .ESTABLISHED) ∧
      (0 < c.failCalls ↔ onFailHandler = true ∧ c._state = .ERROR) := by
  by_cases herror : c._state = .ERROR
  · obtain ⟨hdones,hsuccess,hfail⟩ := h.error herror
    cases onFailHandler <;> simp [hdones,hsuccess,hfail,herror]
  by_cases hestablished : c._state = .ESTABLISHED
  · obtain ⟨hdones,hsuccess,hfail⟩ := h.established hestablished
    cases onSuccessHandler <;> simp [hdones,hsuccess,hfail,hestablished]
  · have hopen : c._state.final = false := by
      cases hc : c._state <;> simp_all [State.final]
    obtain ⟨hdones,hsuccess,hfail,-⟩ := h.untouched hopen
    simp [hdones,hsuccess,hfail,herror,hestablished]

end Invariant

/-- Some events of a run lead to a state. -/
def Reached (c : MsgCommunicator) (events : List Event) (state : State) : Prop :=
  ∃ before, before <+: events ∧ ∃ t, c.run before = some t ∧ t._state = state

theorem reached_iff {c t : MsgCommunicator} {events : List Event} (h : c.run events = some t) {state : State}
    (hstate : state.final = true) : Reached c events state ↔ t._state = state := by
  constructor
  · rintro ⟨before,⟨more,rfl⟩,u,hu,rfl⟩
    rw [run,Stepping.run_append_some hu] at h
    exact (run_final hstate h).state
  · rintro rfl
    exact ⟨events,List.prefix_refl events,t,h,rfl⟩

/-- In whatever order the callbacks come, `done` runs at most once; the handler for success, if there
is one, is called exactly if the connection is established, and the one for failure exactly if there
was an error; and then nothing changes that any more. -/
theorem run_calls (onSuccessHandler onFailHandler : Bool) (events : List Event) :
    ∃ c, (create onSuccessHandler onFailHandler).run events = some c ∧
      c.successCalls + c.failCalls ≤ c.dones ∧ c.dones ≤ 1 ∧
      (0 < c.successCalls ↔ onSuccessHandler = true ∧
        Reached (create onSuccessHandler onFailHandler) events .ESTABLISHED) ∧
      (0 < c.failCalls ↔ onFailHandler = true ∧
        Reached (create onSuccessHandler onFailHandler) events .ERROR) ∧
      (c._state.final = true → ∀ more t, c.run more = some t → Settled c t) := by
  have hstep (c : MsgCommunicator) (event : Event) (h : Valid onSuccessHandler onFailHandler c) :
      ∃ t, c.step event = some t ∧ Valid onSuccessHandler onFailHandler t := h.step event
  obtain ⟨c,hrun,hvalid⟩ := Stepping.run_total hstep create_valid events
  have hcalls := hvalid.calls
  refine ⟨c,hrun,?_⟩
  rw [reached_iff hrun rfl,reached_iff hrun rfl]
  exact ⟨hcalls.1,hcalls.2.1,hcalls.2.2.1,hcalls.2.2.2,fun hfinal more t => run_final hfinal⟩

end MsgCommunicator
end Tkeycoin
