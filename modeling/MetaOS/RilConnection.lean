/-
hardware/ril/libril/ril.cpp: the command socket.

The event loop accepts one client at a time, takes its requests and closes the
connection again.  Vendor threads answer requests and report indications.  A
step is what a thread does between two points where another may come in; an
assertion that fails ends all.
-/
import MetaOS.EventRuns
import Mathlib.Logic.Function.Basic
import Mathlib.Tactic

namespace MetaOS

namespace LibRil

open EventRuns

abbrev Fd := Nat

/-- The connections, in the order in which they are accepted. -/
abbrev Conn := Nat

/-- A node of the list of pending requests, with its number and the connection
on which the request came. -/
structure RequestInfo where
  serial : Nat
  conn : Conn
  cancelled : Bool
  isLocal : Bool
deriving DecidableEq

/-- Where the event loop is: between two callbacks, in `listenCallback` after
`accept`, in a callback that has closed the connection and is to mark the
pending requests, or in a failed assertion. -/
inductive Loop where
  | idle
  | accepted
  | closing (relisten : Bool)
  | aborted
deriving DecidableEq

/-- A thread that sends an answer to a request or an indication: before it
reads `s_fdCommand`, before it takes `s_writeMutex`, and while it writes. -/
inductive Sending where
  | ready (request : Option RequestInfo)
  | fetched (request : Option RequestInfo) (fd : Fd)
  | writing (request : Option RequestInfo) (fd : Fd)
deriving DecidableEq

def Sending.request : Sending → Option RequestInfo
  | .ready request | .fetched request _ | .writing request _ => request

structure State (Thread : Type) where
  /-- the descriptors that are open and their connections -/
  table : Fd → Option Conn
  sFdCommand : Option Fd
  /-- the descriptor on which `s_commands_event` is watched -/
  sCommandsEvent : Option Fd
  sListenEvent : Bool
  loop : Loop
  sPendingRequests : List RequestInfo
  senders : Thread → Option Sending
  sWriteMutex : Option Thread
  accepted : Nat
  issued : Nat
  /-- which answers were written to which connections -/
  written : List (RequestInfo × Conn)

inductive WriteResult where
  | more
  | done
  | failed
deriving DecidableEq

inductive Event (Thread : Type) where
  | listen (fd : Option Fd)
  | credentials (isPhone : Bool)
  | command
  | commandsEnd
  | socketClosed
  | debug (option : Int)
  | complete (thread : Thread) (serial : Nat)
  | indicate (thread : Thread)
  | fetch (thread : Thread)
  | lock (thread : Thread)
  | write (thread : Thread) (result : WriteResult)

variable {Thread : Type}

/-- After `RIL_register`: the listen event is watched. -/
def State.registered : State Thread :=
  ⟨fun _ => none, none, none, true, .idle, [], fun _ => none, none, 0, 0, []⟩

/-- `close(fd)`; there is nothing to close without a descriptor. -/
def State.close (s : State Thread) (fd : Option Fd) : State Thread :=
  { s with
    table := match fd with
      | none => s.table
      | some fd => Function.update s.table fd none }

def issueLocalRequest (s : State Thread) : State Thread :=
  { s with
    sPendingRequests := ⟨s.issued, 0, false, true⟩ :: s.sPendingRequests
    issued := s.issued + 1 }

/-- The first part of `listenCallback`.  The listen event is not persistent. -/
def listenCallback (s : State Thread) (fd : Option Fd) :
    Option (State Thread) :=
  if s.sFdCommand ≠ none then some { s with loop := .aborted }
  else match fd with
    | none =>
        -- start listening for new connections again
        some s
    | some fd =>
        if s.table fd ≠ none then none
        else some { s with
          table := Function.update s.table fd (some s.accepted)
          sFdCommand := some fd
          sListenEvent := false
          accepted := s.accepted + 1
          loop := .accepted }

/-- What `listenCallback` does after it has checked the other side. -/
def checkCredentials (s : State Thread) (isPhone : Bool) : State Thread :=
  if isPhone then
    { s with sCommandsEvent := s.sFdCommand, loop := .idle }
  else
    { s.close s.sFdCommand with sFdCommand := none, loop := .closing true }

/-- `processCommandsCallback` with a record or at the end of the stream. -/
def processCommandsCallback (s : State Thread) (fd : Fd) (ended : Bool) :
    Option (State Thread) :=
  if s.sFdCommand ≠ some fd then some { s with loop := .aborted }
  else if ended then
    some { s.close (some fd) with
      sFdCommand := none
      sCommandsEvent := none
      sListenEvent := true
      loop := .closing false }
  else match s.table fd with
    | none => none
    | some conn => some { s with
        sPendingRequests :=
          ⟨s.issued, conn, false, false⟩ :: s.sPendingRequests
        issued := s.issued + 1 }

/-- Mark pending requests as "cancelled" so we dont report responses. -/
def onCommandsSocketClosed (s : State Thread) (relisten : Bool) :
    State Thread :=
  { s with
    sPendingRequests :=
      s.sPendingRequests.map ({ · with cancelled := true })
    sListenEvent := s.sListenEvent || relisten
    loop := .idle }

/-- The options of the debug port, as far as they touch the requests or the
socket. -/
def debugCallback (s : State Thread) (option : Int) : State Thread :=
  if option = 1 then
    let s := issueLocalRequest s
    { s.close s.sFdCommand with sFdCommand := none }
  else if option = 5 then issueLocalRequest (issueLocalRequest s)
  else if option = 0 ∨ (3 ≤ option ∧ option ≤ 11) then issueLocalRequest s
  else s

section Senders

variable [DecidableEq Thread]

def State.setSender (s : State Thread) (thread : Thread)
    (sending : Option Sending) : State Thread :=
  { s with senders := Function.update s.senders thread sending }

/-- `RIL_onRequestComplete` up to the point where it has dequeued the request
and looked at it. -/
def onRequestComplete (s : State Thread) (thread : Thread) (serial : Nat) :
    State Thread :=
  match s.sPendingRequests.find? (·.serial = serial) with
  | none => s
  | some request =>
      let s := { s with
        sPendingRequests := s.sPendingRequests.erase request }
      if request.isLocal ∨ request.cancelled then s
      else s.setSender thread (some (.ready (some request)))

/-- The end of `sendResponseRaw`. -/
def State.unlock (s : State Thread) (thread : Thread) : State Thread :=
  { s.setSender thread none with sWriteMutex := none }

/-- One `write` of `blockingWrite`. -/
def blockingWrite (s : State Thread) (thread : Thread)
    (request : Option RequestInfo) (fd : Fd) (result : WriteResult) :
    Option (State Thread) :=
  match result, s.table fd with
  | .failed, _ => some ((s.close (some fd)).unlock thread)
  | _, none => none
  | result, some conn =>
      let s := { s with
        written := (request.toList.map fun r => (r, conn)) ++ s.written }
      some (if result = .done then s.unlock thread else s)

def State.step (s : State Thread) (event : Event Thread) :
    Option (State Thread) :=
  if s.loop = .aborted then none
  else match event with
  | .listen fd =>
      if s.loop = .idle ∧ s.sListenEvent then listenCallback s fd else none
  | .credentials isPhone =>
      if s.loop = .accepted then some (checkCredentials s isPhone) else none
  | .command =>
      match s.loop, s.sCommandsEvent with
      | .idle, some fd => processCommandsCallback s fd false
      | _, _ => none
  | .commandsEnd =>
      match s.loop, s.sCommandsEvent with
      | .idle, some fd => processCommandsCallback s fd true
      | _, _ => none
  | .socketClosed =>
      match s.loop with
      | .closing relisten => some (onCommandsSocketClosed s relisten)
      | _ => none
  | .debug option =>
      if s.loop = .idle then some (debugCallback s option) else none
  | .complete thread serial =>
      if s.senders thread = none then some (onRequestComplete s thread serial)
      else none
  | .indicate thread =>
      if s.senders thread = none then
        some (s.setSender thread (some (.ready none)))
      else none
  | .fetch thread =>
      match s.senders thread with
      | some (.ready request) =>
          some (s.setSender thread (s.sFdCommand.map (.fetched request)))
      | _ => none
  | .lock thread =>
      match s.senders thread, s.sWriteMutex with
      | some (.fetched request fd), none =>
          some { s.setSender thread (some (.writing request fd)) with
            sWriteMutex := some thread }
      | _, _ => none
  | .write thread result =>
      match s.senders thread with
      | some (.writing request fd) =>
          blockingWrite s thread request fd result
      | _ => none

/-- What an event makes of a state: the guard under which its function is
called, and the state after the call. -/
inductive Moves (s : State Thread) : Event Thread → State Thread → Prop
  | listen {fd : Option Fd} {s' : State Thread} (hidle : s.loop = .idle)
      (hwatched : s.sListenEvent = true)
      (hmoves : listenCallback s fd = some s') : Moves s (.listen fd) s'
  | credentials {isPhone : Bool} (haccepted : s.loop = .accepted) :
      Moves s (.credentials isPhone) (checkCredentials s isPhone)
  | command {fd : Fd} {s' : State Thread} (hidle : s.loop = .idle)
      (hwatched : s.sCommandsEvent = some fd)
      (hmoves : processCommandsCallback s fd false = some s') :
      Moves s .command s'
  | commandsEnd {fd : Fd} {s' : State Thread} (hidle : s.loop = .idle)
      (hwatched : s.sCommandsEvent = some fd)
      (hmoves : processCommandsCallback s fd true = some s') :
      Moves s .commandsEnd s'
  | socketClosed {relisten : Bool} (hclosing : s.loop = .closing relisten) :
      Moves s .socketClosed (onCommandsSocketClosed s relisten)
  | debug {option : Int} (hidle : s.loop = .idle) :
      Moves s (.debug option) (debugCallback s option)
  | complete {thread : Thread} {serial : Nat}
      (hfree : s.senders thread = none) :
      Moves s (.complete thread serial) (onRequestComplete s thread serial)
  | indicate {thread : Thread} (hfree : s.senders thread = none) :
      Moves s (.indicate thread) (s.setSender thread (some (.ready none)))
  | fetch {thread : Thread} {request : Option RequestInfo}
      (hready : s.senders thread = some (.ready request)) :
      Moves s (.fetch thread)
        (s.setSender thread (s.sFdCommand.map (.fetched request)))
  | lock {thread : Thread} {request : Option RequestInfo} {fd : Fd}
      (hfetched : s.senders thread = some (.fetched request fd))
      (hfree : s.sWriteMutex = none) :
      Moves s (.lock thread)
        { s.setSender thread (some (.writing request fd)) with
          sWriteMutex := some thread }
  | write {thread : Thread} {result : WriteResult}
      {request : Option RequestInfo} {fd : Fd} {s' : State Thread}
      (hwriting : s.senders thread = some (.writing request fd))
      (hmoves : blockingWrite s thread request fd result = some s') :
      Moves s (.write thread result) s'

theorem step_moves {s s' : State Thread} {event : Event Thread}
    (hstep : s.step event = some s') : Moves s event s' := by
  unfold State.step at hstep
  split at hstep
  next => cases hstep
  next =>
    cases event with
    | listen fd =>
        obtain ⟨hready, hmoves⟩ := Option.ite_none_right_eq_some.mp hstep
        exact .listen hready.1 hready.2 hmoves
    | credentials isPhone =>
        obtain ⟨haccepted, rfl⟩ := Option.ite_some_none_eq_some.mp hstep
        exact .credentials haccepted
    | command =>
        dsimp only at hstep
        split at hstep
        next hidle hwatched => exact .command hidle hwatched hstep
        next => cases hstep
    | commandsEnd =>
        dsimp only at hstep
        split at hstep
        next hidle hwatched => exact .commandsEnd hidle hwatched hstep
        next => cases hstep
    | socketClosed =>
        dsimp only at hstep
        split at hstep
        next hclosing =>
          obtain rfl := Option.some.inj hstep
          exact .socketClosed hclosing
        next => cases hstep
    | debug option =>
        obtain ⟨hidle, rfl⟩ := Option.ite_some_none_eq_some.mp hstep
        exact .debug hidle
    | complete thread serial =>
        obtain ⟨hfree, rfl⟩ := Option.ite_some_none_eq_some.mp hstep
        exact .complete hfree
    | indicate thread =>
        obtain ⟨hfree, rfl⟩ := Option.ite_some_none_eq_some.mp hstep
        exact .indicate hfree
    | fetch thread =>
        dsimp only at hstep
        split at hstep
        next hready =>
          obtain rfl := Option.some.inj hstep
          exact .fetch hready
        next => cases hstep
    | lock thread =>
        dsimp only at hstep
        split at hstep
        next hfetched hfree =>
          obtain rfl := Option.some.inj hstep
          exact .lock hfetched hfree
        next => cases hstep
    | write thread result =>
        dsimp only at hstep
        split at hstep
        next hwriting => exact .write hwriting hstep
        next => cases hstep

end Senders

section Machine

variable {s s' : State Thread}

/-- No client: the listen event is watched. -/
def State.Listening (s : State Thread) : Prop :=
  s.sFdCommand = none ∧ s.sCommandsEvent = none ∧
    s.sListenEvent = true

/-- One client: the command event is watched on its descriptor. -/
def State.Connected (s : State Thread) : Prop :=
  ∃ fd, s.sFdCommand = some fd ∧ s.table fd ≠ none ∧
    s.sCommandsEvent = some fd ∧ s.sListenEvent = false

/-- What holds of the socket wherever the event loop is. -/
def State.Consistent (s : State Thread) : Prop :=
  match s.loop with
  | .idle => s.Listening ∨ s.Connected
  | .accepted => ∃ fd, s.sFdCommand = some fd ∧ s.table fd ≠ none ∧
      s.sCommandsEvent = none ∧ s.sListenEvent = false
  | .closing relisten => s.sFdCommand = none ∧ s.sCommandsEvent = none ∧
      s.sListenEvent = !relisten
  | .aborted => False

/-- The debug port does not switch the radio off while a client is connected,
and no write fails on the descriptor of the client. -/
def Orderly (s : State Thread) : Event Thread → Prop
  | .debug option => option = 1 → s.sFdCommand = none
  | .write thread .failed => ∀ request fd,
      s.senders thread = some (.writing request fd) → s.sFdCommand ≠ some fd
  | _ => True

/-- The parts of the state that the connection consists of. -/
def SameSocket (s s' : State Thread) : Prop :=
  s'.table = s.table ∧ s'.sFdCommand = s.sFdCommand ∧
    s'.sCommandsEvent = s.sCommandsEvent ∧
    s'.sListenEvent = s.sListenEvent ∧ s'.loop = s.loop

theorem Consistent.of_same (hsame : SameSocket s s')
    (hconsistent : s.Consistent) : s'.Consistent := by
  obtain ⟨htable, hfd, hevent, hlisten, hloop⟩ := hsame
  unfold State.Consistent State.Listening State.Connected at *
  rw [htable, hfd, hevent, hlisten, hloop]
  exact hconsistent

theorem Consistent.not_both (hlistening : s.Listening) : ¬ s.Connected := by
  rintro ⟨fd, -, -, -, hnot⟩
  rw [hlistening.2.2] at hnot
  cases hnot

theorem listenCallback_consistent {fd : Option Fd}
    (hconsistent : s.Consistent) (hidle : s.loop = .idle)
    (hlisten : s.sListenEvent = true)
    (hstep : listenCallback s fd = some s') : s'.Consistent := by
  have hsituation : s.Listening ∨ s.Connected := by
    simpa [State.Consistent, hidle] using hconsistent
  obtain ⟨hfd, hevent, -⟩ | ⟨_, -, -, -, hnot⟩ := hsituation
  · unfold listenCallback at hstep
    rw [if_neg (by simp [hfd])] at hstep
    cases fd with
    | none =>
        rw [← Option.some_inj.mp hstep]
        exact hconsistent
    | some fd =>
        dsimp only at hstep
        split at hstep
        next => cases hstep
        next =>
          rw [← Option.some_inj.mp hstep]
          exact ⟨fd, rfl, by simp, hevent, rfl⟩
  · rw [hlisten] at hnot
    cases hnot

theorem checkCredentials_consistent {isPhone : Bool}
    (hconsistent : s.Consistent) (haccepted : s.loop = .accepted) :
    (checkCredentials s isPhone).Consistent := by
  obtain ⟨fd, hfd, hopen, hevent, hlisten⟩ : ∃ fd, s.sFdCommand = some fd ∧
      s.table fd ≠ none ∧ s.sCommandsEvent = none ∧
      s.sListenEvent = false := by
    simpa [State.Consistent, haccepted] using hconsistent
  unfold checkCredentials
  split
  next => exact .inr ⟨fd, hfd, hopen, hfd, hlisten⟩
  next =>
    rw [hfd]
    exact ⟨rfl, hevent, hlisten⟩

theorem processCommandsCallback_consistent {fd : Fd} {ended : Bool}
    (hconsistent : s.Consistent) (hidle : s.loop = .idle)
    (hwatched : s.sCommandsEvent = some fd)
    (hstep : processCommandsCallback s fd ended = some s') :
    s'.Consistent := by
  have hsituation : s.Listening ∨ s.Connected := by
    simpa [State.Consistent, hidle] using hconsistent
  obtain ⟨-, hevent, -⟩ | ⟨fd', hfd, hopen, hevent, hlisten⟩ := hsituation
  · rw [hevent] at hwatched
    cases hwatched
  · obtain rfl : fd' = fd := Option.some_inj.mp (hevent.symm.trans hwatched)
    unfold processCommandsCallback at hstep
    rw [if_neg (by simp [hfd])] at hstep
    split at hstep
    next =>
      rw [← Option.some_inj.mp hstep]
      exact ⟨rfl, rfl, rfl⟩
    next =>
      split at hstep
      next => cases hstep
      next =>
        rw [← Option.some_inj.mp hstep]
        exact Consistent.of_same ⟨rfl, rfl, rfl, rfl, rfl⟩ hconsistent

theorem onCommandsSocketClosed_consistent {relisten : Bool}
    (hconsistent : s.Consistent) (hclosing : s.loop = .closing relisten) :
    (onCommandsSocketClosed s relisten).Consistent := by
  obtain ⟨hfd, hevent, hlisten⟩ : s.sFdCommand = none ∧
      s.sCommandsEvent = none ∧ s.sListenEvent = !relisten := by
    simpa [State.Consistent, hclosing] using hconsistent
  refine .inl ⟨hfd, hevent, ?_⟩
  simp [onCommandsSocketClosed, hlisten]

theorem debugCallback_consistent {option : Int}
    (hconsistent : s.Consistent)
    (horderly : option = 1 → s.sFdCommand = none) :
    (debugCallback s option).Consistent := by
  unfold debugCallback
  split
  next hone =>
    have hfd := horderly hone
    have hclose : (issueLocalRequest s).close (issueLocalRequest s).sFdCommand =
        issueLocalRequest s := by
      simp [issueLocalRequest, hfd, State.close]
    dsimp only
    rw [hclose]
    exact Consistent.of_same (s := s) ⟨rfl, hfd.symm, rfl, rfl, rfl⟩
      hconsistent
  next =>
    split
    next => exact Consistent.of_same ⟨rfl, rfl, rfl, rfl, rfl⟩ hconsistent
    next =>
      split
      next => exact Consistent.of_same ⟨rfl, rfl, rfl, rfl, rfl⟩ hconsistent
      next => exact hconsistent

/-- Closing a descriptor that is not the client's changes nothing. -/
theorem close_consistent {fd : Fd} (hconsistent : s.Consistent)
    (hother : s.sFdCommand ≠ some fd) : (s.close (some fd)).Consistent := by
  have hkeep : ∀ fd', s.sFdCommand = some fd' →
      (s.close (some fd)).table fd' = s.table fd' := by
    rintro fd' hfd'
    have hne : fd' ≠ fd := by
      rintro rfl
      exact hother hfd'
    simp [State.close, hne]
  unfold State.Consistent State.Listening State.Connected at *
  change match s.loop with
    | .idle => _
    | .accepted => _
    | .closing relisten => _
    | .aborted => _
  cases hloop : s.loop with
  | idle =>
      simp only [hloop] at hconsistent ⊢
      obtain hlistening | ⟨fd', hfd', hopen, hwatched⟩ := hconsistent
      · exact .inl hlistening
      · exact .inr ⟨fd', hfd', by rwa [hkeep fd' hfd'], hwatched⟩
  | accepted =>
      simp only [hloop] at hconsistent ⊢
      obtain ⟨fd', hfd', hopen, hwatched⟩ := hconsistent
      exact ⟨fd', hfd', by rwa [hkeep fd' hfd'], hwatched⟩
  | closing relisten =>
      simp only [hloop] at hconsistent ⊢
      exact hconsistent
  | aborted =>
      simp only [hloop] at hconsistent

variable [DecidableEq Thread]

theorem onRequestComplete_same (thread : Thread) (serial : Nat) :
    SameSocket s (onRequestComplete s thread serial) := by
  unfold onRequestComplete
  split
  next => exact ⟨rfl, rfl, rfl, rfl, rfl⟩
  next => dsimp only; split <;> exact ⟨rfl, rfl, rfl, rfl, rfl⟩

theorem blockingWrite_consistent {thread : Thread}
    {request : Option RequestInfo} {fd : Fd} {result : WriteResult}
    (hconsistent : s.Consistent)
    (horderly : result = .failed → s.sFdCommand ≠ some fd)
    (hstep : blockingWrite s thread request fd result = some s') :
    s'.Consistent := by
  unfold blockingWrite at hstep
  split at hstep
  next =>
    rw [← Option.some_inj.mp hstep]
    exact Consistent.of_same ⟨rfl, rfl, rfl, rfl, rfl⟩
      (close_consistent hconsistent (horderly rfl))
  next => cases hstep
  next =>
    rw [← Option.some_inj.mp hstep]
    split
    next => exact Consistent.of_same ⟨rfl, rfl, rfl, rfl, rfl⟩ hconsistent
    next => exact Consistent.of_same ⟨rfl, rfl, rfl, rfl, rfl⟩ hconsistent

theorem step_consistent {event : Event Thread} (hconsistent : s.Consistent)
    (horderly : Orderly s event) (hstep : s.step event = some s') :
    s'.Consistent := by
  cases step_moves hstep with
  | listen hidle hwatched hmoves =>
      exact listenCallback_consistent hconsistent hidle hwatched hmoves
  | credentials haccepted =>
      exact checkCredentials_consistent hconsistent haccepted
  | command hidle hwatched hmoves | commandsEnd hidle hwatched hmoves =>
      exact processCommandsCallback_consistent hconsistent hidle hwatched
        hmoves
  | socketClosed hclosing =>
      exact onCommandsSocketClosed_consistent hconsistent hclosing
  | debug => exact debugCallback_consistent hconsistent horderly
  | complete =>
      exact Consistent.of_same (onRequestComplete_same _ _) hconsistent
  | indicate | fetch | lock =>
      exact Consistent.of_same ⟨rfl, rfl, rfl, rfl, rfl⟩ hconsistent
  | write hwriting hmoves =>
      apply blockingWrite_consistent hconsistent _ hmoves
      rintro rfl
      exact horderly _ _ hwriting

omit [DecidableEq Thread] in
theorem registered_consistent :
    (State.registered : State Thread).Consistent :=
  .inl ⟨rfl, rfl, rfl⟩

/-- Without a client, every descriptor that is free can be the next one. -/
theorem State.Listening.accepts (hlistening : s.Listening)
    (hidle : s.loop = .idle) {fd : Fd} (hfree : s.table fd = none) :
    ∃ s', s.step (.listen (some fd)) = some s' ∧ s'.sFdCommand = some fd := by
  obtain ⟨hfd, -, hlisten⟩ := hlistening
  refine ⟨{ s with
    table := Function.update s.table fd (some s.accepted)
    sFdCommand := some fd
    sListenEvent := false
    accepted := s.accepted + 1
    loop := .accepted }, ?_, rfl⟩
  simp [State.step, hidle, hlisten, listenCallback, hfd, hfree]

/-- A client that goes leaves the socket listening. -/
theorem State.Connected.leaves (hconnected : s.Connected)
    (hidle : s.loop = .idle) :
    ∃ s', Reach State.step Orderly s s' ∧ s'.Listening ∧ s'.loop = .idle := by
  obtain ⟨fd, hfd, -, hwatched, -⟩ := hconnected
  let closed : State Thread := { s.close (some fd) with
    sFdCommand := none
    sCommandsEvent := none
    sListenEvent := true
    loop := .closing false }
  have hend : s.step .commandsEnd = some closed := by
    simp [State.step, hidle, hwatched, processCommandsCallback, hfd, closed]
  have hmark : closed.step .socketClosed =
      some (onCommandsSocketClosed closed false) := by
    simp [State.step, closed]
  exact ⟨onCommandsSocketClosed closed false,
    (Reach.refl.tail .commandsEnd trivial hend).tail .socketClosed trivial
      hmark, ⟨rfl, rfl, rfl⟩, rfl⟩

/-- In every run in which the debug port does not switch the radio off while a
client is connected and no write fails on the descriptor of the client, the
socket is in exactly one of its two situations between two callbacks, and a
new client can always be accepted, after the one that is connected has gone. -/
theorem reach_listening_or_connected
    (hreach : Reach State.step Orderly State.registered s) :
    s.loop ≠ .aborted ∧
    (s.loop = .idle →
      ((s.Listening ∧ ¬ s.Connected) ∨ (s.Connected ∧ ¬ s.Listening)) ∧
      ∃ s', Reach State.step Orderly s s' ∧ s'.Listening ∧
        ∀ fd, s'.table fd = none →
          ∃ s'', s'.step (.listen (some fd)) = some s'' ∧
            s''.sFdCommand = some fd) := by
  have hconsistent : s.Consistent :=
    hreach.invariant State.Consistent (fun _ _ _ => step_consistent)
      registered_consistent
  constructor
  · intro haborted
    simp [State.Consistent, haborted] at hconsistent
  · intro hidle
    have hsituation : s.Listening ∨ s.Connected := by
      simpa [State.Consistent, hidle] using hconsistent
    obtain hlistening | hconnected := hsituation
    · refine ⟨.inl ⟨hlistening, Consistent.not_both hlistening⟩, s,
        Reach.refl, hlistening, ?_⟩
      exact fun fd hfree => hlistening.accepts hidle hfree
    · refine ⟨.inr ⟨hconnected, fun hlistening =>
        Consistent.not_both hlistening hconnected⟩, ?_⟩
      obtain ⟨s', hreach', hlistening, hidle'⟩ := hconnected.leaves hidle
      exact ⟨s', hreach', hlistening,
        fun fd hfree => hlistening.accepts hidle' hfree⟩

end Machine

namespace RilConnectionWitness

/-- A client has connected on descriptor 7. -/
def client : State Bool :=
  checkCredentials
    { (State.registered : State Bool) with
      table := Function.update (fun _ => none) 7 (some 0)
      sFdCommand := some 7
      sListenEvent := false
      accepted := 1
      loop := .accepted } true

theorem client_reachable :
    Reach State.step Orderly (State.registered : State Bool) client :=
  (Reach.refl.tail (.listen (some 7)) trivial rfl).tail (.credentials true)
    trivial rfl

theorem client_connected :
    client.loop ≠ .aborted ∧ client.loop = .idle ∧
      ((client.Listening ∧ ¬ client.Connected) ∨
        (client.Connected ∧ ¬ client.Listening)) :=
  have hsocket := reach_listening_or_connected client_reachable
  ⟨hsocket.1, rfl, (hsocket.2 rfl).1⟩

/-- The debug port switches the radio off under a client: the descriptor is
gone, the command event is still watched and the listen event is not. -/
theorem debug_off_neither :
    ¬ ∀ s : State Bool, Runs State.step State.registered s → s.loop = .idle →
      (s.Listening ∧ ¬ s.Connected) ∨ (s.Connected ∧ ¬ s.Listening) := by
  intro hclaim
  have hruns : Runs State.step (State.registered : State Bool)
      (debugCallback client 1) :=
    ((Reach.refl.tail (.listen (some 7)) trivial rfl).tail (.credentials true)
      trivial rfl).tail (.debug 1) trivial rfl
  obtain ⟨⟨-, hevent, -⟩, -⟩ | ⟨⟨fd, hfd, -⟩, -⟩ := hclaim _ hruns rfl
  · exact absurd hevent (by decide)
  · exact absurd hfd (by simp [debugCallback])

end RilConnectionWitness

end LibRil

end MetaOS
