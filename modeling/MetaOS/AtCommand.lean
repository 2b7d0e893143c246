/-
hardware/ril/reference-ril/atchannel.c: the command that is pending, the
threads that send commands, and the lines that answer them.

`s_commandmutex` is released only while a thread waits for its response, so a
step is what a thread does between two waits.  A response carries the number
of the command it was allocated for.  The reader thread of this tree drops
its lines; `processLine` is a step of its own, so that runs with and without
it are covered.
-/
import MetaOS.ByteString
import MetaOS.EventRuns

namespace MetaOS

namespace AtChannel

open EventRuns

inductive ATCommandType where
  | NO_RESULT
  | NUMERIC
  | SINGLELINE
  | MULTILINE
deriving DecidableEq

def AT_ERROR_GENERIC : Int := -1
def AT_ERROR_COMMAND_PENDING : Int := -2
def AT_ERROR_CHANNEL_CLOSED : Int := -3
def AT_ERROR_TIMEOUT : Int := -4

/-- The intermediate lines are kept with the last one first. -/
structure ATResponse where
  serial : Nat
  success : Bool
  finalResponse : Option Bytes
  intermediates : List Bytes
deriving DecidableEq

/-- The static variables for the current pending command. -/
structure Channel where
  sType : ATCommandType
  sResponsePrefix : Option Bytes
  sSmsPDU : Option Bytes
  spResponse : Option ATResponse
  sFdOpen : Bool
  sReaderClosed : Bool
deriving DecidableEq

structure Command where
  type : ATCommandType
  responsePrefix : Option Bytes
  smspdu : Option Bytes
  timeoutMsec : Nat
  wantsResponse : Bool
deriving DecidableEq

/-- `*prefix` is read even for an empty line, so that without a prefix there is
no answer. -/
def strStartsWith (line : Bytes) : Option Bytes → Option Bool
  | none => none
  | some start => some (start.isPrefixOf line)

def finalResponsesError : List Bytes :=
  [.ofString "ERROR", .ofString "+CMS ERROR:", .ofString "+CME ERROR:",
    .ofString "NO CARRIER", .ofString "NO ANSWER", .ofString "NO DIALTONE"]

def finalResponsesSuccess : List Bytes := [.ofString "OK", .ofString "CONNECT"]

def isFinalResponseError (line : Bytes) : Bool :=
  finalResponsesError.any (·.isPrefixOf line)

def isFinalResponseSuccess (line : Bytes) : Bool :=
  finalResponsesSuccess.any (·.isPrefixOf line)

def isdigit (c : UInt8) : Bool := 48 ≤ c && c ≤ 57

/-- What becomes of a line. -/
inductive Treatment where
  | unsolicited
  | finalResponse
  | prompt (pdu : Bytes)
  | intermediate
deriving DecidableEq

def addIntermediate (c : Channel) (response : ATResponse) (line : Bytes) :
    Channel :=
  { c with
    spResponse := some
      { response with intermediates := line :: response.intermediates } }

def handleFinalResponse (c : Channel) (response : ATResponse) (success : Bool)
    (line : Bytes) : Channel :=
  { c with
    spResponse := some
      { response with success := success, finalResponse := some line } }

/-- No result is an access through a missing prefix. -/
def processLine (c : Channel) (line : Bytes) : Option (Treatment × Channel) :=
  match c.spResponse with
  | none =>
      -- no command pending
      some (.unsolicited, c)
  | some response =>
      if isFinalResponseSuccess line then
        some (.finalResponse, handleFinalResponse c response true line)
      else if isFinalResponseError line then
        some (.finalResponse, handleFinalResponse c response false line)
      else match c.sSmsPDU, decide (line = .ofString "> ") with
      | some pdu, true => some (.prompt pdu, { c with sSmsPDU := none })
      | _, _ =>
          match c.sType with
          | .NO_RESULT => some (.unsolicited, c)
          | .NUMERIC =>
              if response.intermediates = [] ∧ isdigit (line.headD 0) then
                some (.intermediate, addIntermediate c response line)
              else some (.unsolicited, c)
          | .SINGLELINE =>
              if response.intermediates = [] then do
                if ← strStartsWith line c.sResponsePrefix then
                  some (.intermediate, addIntermediate c response line)
                else some (.unsolicited, c)
              else some (.unsolicited, c)
          | .MULTILINE => do
              if ← strStartsWith line c.sResponsePrefix then
                some (.intermediate, addIntermediate c response line)
              else some (.unsolicited, c)

def clearPendingCommand (c : Channel) : Channel :=
  { c with spResponse := none, sResponsePrefix := none, sSmsPDU := none }

/-- What a call of `at_send_command_full_nolock` has come to: it waits for the
response of its number, it has returned an error code and perhaps a response,
or it has followed a null pointer. -/
inductive Call where
  | waiting (command : Command) (serial : Nat)
  | returned (err : Int) (response : Option ATResponse)
  | crashed
deriving DecidableEq

/-- The return through the label `error`. -/
def fail (c : Channel) (err : Int) (response : Option ATResponse) :
    Call × Channel :=
  (.returned err response, clearPendingCommand c)

/-- The loop condition and what follows the loop. -/
def awaitResponse (c : Channel) (command : Command) (serial : Nat) :
    Call × Channel :=
  match c.spResponse with
  | none => (.crashed, c)
  | some response =>
      if response.finalResponse = none ∧ c.sReaderClosed = false then
        (.waiting command serial, c)
      else
        let out :=
          if command.wantsResponse then
            some { response with
              intermediates := response.intermediates.reverse }
          else none
        let c := { c with spResponse := none }
        if c.sReaderClosed then fail c AT_ERROR_CHANNEL_CLOSED out
        else fail c 0 out

/-- `writeline`; `accepted` says whether the device takes the bytes. -/
def writeline (c : Channel) (accepted : Bool) : Int :=
  if c.sFdOpen = false ∨ c.sReaderClosed then AT_ERROR_CHANNEL_CLOSED
  else if accepted then 0
  else AT_ERROR_GENERIC

/-- The call up to its first wait. -/
def atSendCommandFullNolock (c : Channel) (command : Command)
    (accepted : Bool) (serial : Nat) : Call × Channel :=
  if c.spResponse ≠ none then fail c AT_ERROR_COMMAND_PENDING none
  else
    let err := writeline c accepted
    if err < 0 then fail c err none
    else
      awaitResponse
        { c with
          sType := command.type
          sResponsePrefix := command.responsePrefix
          sSmsPDU := command.smspdu
          spResponse := some ⟨serial, false, none, []⟩ }
        command serial

/-- The call after a wait. -/
def wakeUp (c : Channel) (command : Command) (serial : Nat)
    (timedOut : Bool) : Call × Channel :=
  if timedOut then fail c AT_ERROR_TIMEOUT none
  else awaitResponse c command serial

/-- The threads with what their last calls have come to, and the number of
commands sent so far. -/
structure State (Thread : Type) where
  channel : Channel
  calls : Thread → Option Call
  sent : Nat

inductive Event (Thread : Type) where
  | send (thread : Thread) (command : Command) (accepted : Bool)
  | wake (thread : Thread) (timedOut : Bool)
  | line (text : Bytes)
  | fdClosed
  | readerClosed
  | reopened

variable {Thread : Type} [DecidableEq Thread]

def State.record (s : State Thread) (thread : Thread)
    (result : Call × Channel) (sent : Nat) : State Thread :=
  ⟨result.2, Function.update s.calls thread (some result.1), sent⟩

/-- A thread sends when it is not in a call; it wakes from a wait, by a timeout
only if it has asked for one. -/
def State.step (s : State Thread) : Event Thread → Option (State Thread)
  | .send thread command accepted =>
      match s.calls thread with
      | some (.waiting _ _) | some .crashed => none
      | _ =>
          some (s.record thread
            (atSendCommandFullNolock s.channel command accepted s.sent)
            (s.sent + 1))
  | .wake thread timedOut =>
      match s.calls thread with
      | some (.waiting command serial) =>
          if timedOut ∧ command.timeoutMsec = 0 then none
          else
            some (s.record thread (wakeUp s.channel command serial timedOut)
              s.sent)
      | _ => none
  | .line text =>
      match processLine s.channel text with
      | none => none
      | some (_, channel) => some { s with channel := channel }
  | .fdClosed => some { s with channel.sFdOpen := false }
  | .readerClosed => some { s with channel.sReaderClosed := true }
  | .reopened =>
      some { s with
        channel.sFdOpen := true
        channel.sReaderClosed := false
        channel.sResponsePrefix := none
        channel.sSmsPDU := none
        channel.spResponse := none }

/-- The channel as `at_open` leaves it. -/
def State.opened : State Thread :=
  ⟨⟨.NO_RESULT, none, none, none, true, false⟩, fun _ => none, 0⟩

/-- Nothing of the pending command has changed. -/
def Undisturbed (c c' : Channel) : Prop :=
  c'.spResponse = c.spResponse ∧ c'.sResponsePrefix = c.sResponsePrefix ∧
    c'.sSmsPDU = c.sSmsPDU ∧ c'.sType = c.sType

/-- The channel holds the response of command `n`. -/
def Channel.Pending (c : Channel) (n : Nat) : Prop :=
  ∃ response, c.spResponse = some response ∧ response.serial = n

/-- A thread has been given the response of command `n`. -/
def State.Returned (s : State Thread) (n : Nat) : Prop :=
  ∃ thread err response,
    s.calls thread = some (.returned err (some response)) ∧
      response.serial = n

/-- Whatever response the channel holds after a piece of a call is one it held
before or a new one, and so is a response that the call returns, after which
the channel holds none. -/
structure HandsOver (fresh : Nat → Prop) (c : Channel)
    (result : Call × Channel) : Prop where
  kept (n : Nat) (hpending : result.2.Pending n) : c.Pending n ∨ fresh n
  given (err : Int) (response : ATResponse)
    (hreturned : result.1 = .returned err (some response)) :
    (∀ n, ¬ result.2.Pending n) ∧
      (c.Pending response.serial ∨ fresh response.serial)

section Calls

variable {fresh : Nat → Prop} {c : Channel}

theorem not_pending_clear (c : Channel) (n : Nat) :
    ¬ (clearPendingCommand c).Pending n := by
  rintro ⟨response, hnone, -⟩
  cases hnone

theorem fail_handsOver (c' : Channel) (err : Int)
    (response : Option ATResponse)
    (hgiven : ∀ given, response = some given →
      c.Pending given.serial ∨ fresh given.serial) :
    HandsOver fresh c (fail c' err response) where
  kept n hpending := absurd hpending (not_pending_clear c' n)
  given err' given hreturned := by
    refine ⟨not_pending_clear c', hgiven given ?_⟩
    simp only [fail, Call.returned.injEq] at hreturned
    exact hreturned.2

theorem awaitResponse_handsOver (command : Command) (serial : Nat) :
    HandsOver fresh c (awaitResponse c command serial) := by
  unfold awaitResponse
  cases hresponse : c.spResponse with
  | none => exact ⟨fun n hpending => .inl hpending, by simp⟩
  | some response =>
      dsimp only
      split
      next => exact ⟨fun n hpending => .inl hpending, by simp⟩
      next =>
        have hgiven : ∀ given,
            (if command.wantsResponse then
              some { response with
                intermediates := response.intermediates.reverse }
            else none) = some given →
            c.Pending given.serial ∨ fresh given.serial := by
          intro given hgiven
          split at hgiven
          next =>
            rw [← Option.some_inj.mp hgiven]
            exact .inl ⟨response, hresponse, rfl⟩
          next => cases hgiven
        split
        next => exact fail_handsOver _ _ _ hgiven
        next => exact fail_handsOver _ _ _ hgiven

theorem send_handsOver (command : Command) (accepted : Bool) (serial : Nat) :
    HandsOver (· = serial) c
      (atSendCommandFullNolock c command accepted serial) := by
  unfold atSendCommandFullNolock
  split
  next => exact fail_handsOver _ _ _ (by simp)
  next =>
    dsimp only
    split
    next => exact fail_handsOver _ _ _ (by simp)
    next =>
      -- From here on the channel holds the new response.
      generalize hnew : { c with
          sType := command.type
          sResponsePrefix := command.responsePrefix
          sSmsPDU := command.smspdu
          spResponse := some ⟨serial, false, none, []⟩ } = c'
      have hserial : ∀ n, c'.Pending n → n = serial := by
        rintro n ⟨response, hsome, rfl⟩
        rw [← hnew] at hsome
        rw [← Option.some_inj.mp hsome]
      have hawait : HandsOver (· = serial) c'
          (awaitResponse c' command serial) :=
        awaitResponse_handsOver command serial
      constructor
      · intro n hpending
        exact .inr ((hawait.kept n hpending).elim (hserial n) id)
      · intro err response hreturned
        obtain ⟨hnone, hgiven⟩ := hawait.given err response hreturned
        exact ⟨hnone, .inr (hgiven.elim (hserial _) id)⟩

theorem wakeUp_handsOver (command : Command) (serial : Nat)
    (timedOut : Bool) :
    HandsOver fresh c (wakeUp c command serial timedOut) := by
  unfold wakeUp
  split
  next => exact fail_handsOver _ _ _ (by simp)
  next => exact awaitResponse_handsOver command serial

/-- What a line can do to the channel. -/
theorem processLine_cases {line : Bytes} {treatment : Treatment}
    {c' : Channel} (hline : processLine c line = some (treatment, c')) :
    c' = c ∨ c' = { c with sSmsPDU := none } ∨
    ∃ response, c.spResponse = some response ∧
      (c' = addIntermediate c response line ∨
        ∃ success, c' = handleFinalResponse c response success line) := by
  unfold processLine at hline
  split at hline
  next => simp_all
  next response hresponse =>
    have hadd : ∀ {found : Option Bool},
        (do if ← found then
              some (Treatment.intermediate, addIntermediate c response line)
            else some (Treatment.unsolicited, c)) = some (treatment, c') →
        c' = c ∨ c' = addIntermediate c response line := by
      intro found hfound
      rcases found with _ | _ | _ <;> simp_all
    split at hline
    next => simp_all
    next =>
      split at hline
      next => simp_all
      next =>
        split at hline
        next => simp_all
        next =>
          split at hline
          next => simp_all
          next => split at hline <;> simp_all
          next =>
            split at hline
            next =>
              rcases hadd hline with rfl | rfl
              · exact .inl rfl
              · exact .inr (.inr ⟨response, hresponse, .inl rfl⟩)
            next => simp_all
          next =>
            rcases hadd hline with rfl | rfl
            · exact .inl rfl
            · exact .inr (.inr ⟨response, hresponse, .inl rfl⟩)

/-- A line changes the pending response, but not whose it is. -/
theorem processLine_pending {line : Bytes} {treatment : Treatment}
    {c' : Channel} (hline : processLine c line = some (treatment, c'))
    {n : Nat} (hpending : c'.Pending n) : c.Pending n := by
  obtain ⟨given, hgiven, hserial⟩ := hpending
  obtain rfl | rfl | ⟨response, hresponse, rfl | ⟨success, rfl⟩⟩ :=
    processLine_cases hline
  · exact ⟨given, hgiven, hserial⟩
  · exact ⟨given, hgiven, hserial⟩
  · refine ⟨response, hresponse, ?_⟩
    rw [← hserial, ← Option.some_inj.mp hgiven]
  · refine ⟨response, hresponse, ?_⟩
    rw [← hserial, ← Option.some_inj.mp hgiven]

end Calls

section Runs

variable {s s' : State Thread} {event : Event Thread}

/-- A step moves responses only from the channel to a thread, and makes no
response but the next one. -/
structure Moves (s s' : State Thread) : Prop where
  sent_le : s.sent ≤ s'.sent
  pending (n : Nat) (hpending : s'.channel.Pending n) :
    s.channel.Pending n ∨ (n = s.sent ∧ s.sent < s'.sent)
  returned (n : Nat) (hreturned : s'.Returned n) :
    s.Returned n ∨ ((∀ m, ¬ s'.channel.Pending m) ∧
      (s.channel.Pending n ∨ (n = s.sent ∧ s.sent < s'.sent)))

theorem record_moves {thread : Thread} {result : Call × Channel} {sent : Nat}
    (hsent : s.sent ≤ sent)
    (hresult : HandsOver (fun n => n = s.sent ∧ s.sent < sent) s.channel
      result) : Moves s (s.record thread result sent) where
  sent_le := hsent
  pending := hresult.kept
  returned n hreturned := by
    obtain ⟨other, err, response, hcall, rfl⟩ := hreturned
    by_cases hother : other = thread
    · subst hother
      right
      apply hresult.given err response
      simpa [State.record] using hcall
    · left
      refine ⟨other, err, response, ?_, rfl⟩
      simpa [State.record, hother] using hcall

omit [DecidableEq Thread] in
theorem moves_of_channel {channel : Channel}
    (hpending : ∀ n, channel.Pending n → s.channel.Pending n) :
    Moves s { s with channel := channel } where
  sent_le := le_rfl
  pending n hn := .inl (hpending n hn)
  returned _ hreturned := .inl hreturned

theorem record_of_send {thread : Thread} {command : Command} {accepted : Bool}
    (hstep : s.step (.send thread command accepted) = some s') :
    s.record thread
      (atSendCommandFullNolock s.channel command accepted s.sent)
      (s.sent + 1) = s' := by
  unfold State.step at hstep
  dsimp only at hstep
  split at hstep
  next => cases hstep
  next => cases hstep
  next => exact Option.some.inj hstep

theorem step_moves (hstep : s.step event = some s') : Moves s s' := by
  cases event with
  | send thread command accepted =>
      rw [← record_of_send hstep]
      apply record_moves (Nat.le_succ _)
      have hover := send_handsOver (c := s.channel) command accepted s.sent
      constructor
      · intro n hpending
        exact (hover.kept n hpending).imp id fun hn => ⟨hn, by omega⟩
      · intro err response hreturned
        obtain ⟨hnone, hserial⟩ := hover.given err response hreturned
        exact ⟨hnone, hserial.imp id fun hn => ⟨hn, by omega⟩⟩
  | wake thread timedOut =>
      unfold State.step at hstep
      dsimp only at hstep
      split at hstep
      next command serial _ =>
        split at hstep
        next => cases hstep
        next =>
          rw [← Option.some_inj.mp hstep]
          exact record_moves le_rfl (wakeUp_handsOver command serial timedOut)
      next => cases hstep
  | line text =>
      unfold State.step at hstep
      dsimp only at hstep
      split at hstep
      next => cases hstep
      next treatment channel hline =>
        rw [← Option.some_inj.mp hstep]
        exact moves_of_channel fun n => processLine_pending hline
  | fdClosed =>
      rw [← Option.some_inj.mp hstep]
      exact moves_of_channel fun n hn => hn
  | readerClosed =>
      rw [← Option.some_inj.mp hstep]
      exact moves_of_channel fun n hn => hn
  | reopened =>
      rw [← Option.some_inj.mp hstep]
      apply moves_of_channel
      rintro n ⟨response, hnone, -⟩
      cases hnone

/-- Responses have numbers of commands that were sent, and the pending one has
not been returned. -/
structure State.Fresh (s : State Thread) : Prop where
  pending_lt (n : Nat) (hpending : s.channel.Pending n) : n < s.sent
  returned_lt (n : Nat) (hreturned : s.Returned n) : n < s.sent
  not_returned (n : Nat) (hpending : s.channel.Pending n) : ¬ s.Returned n

omit [DecidableEq Thread] in
theorem State.Fresh.moves (hfresh : s.Fresh) (hmoves : Moves s s') :
    s'.Fresh where
  pending_lt n hpending := by
    have hle := hmoves.sent_le
    rcases hmoves.pending n hpending with hold | ⟨rfl, hlt⟩
    · exact (hfresh.pending_lt n hold).trans_le hle
    · exact hlt
  returned_lt n hreturned := by
    have hle := hmoves.sent_le
    rcases hmoves.returned n hreturned with hold | ⟨-, hold | ⟨rfl, hlt⟩⟩
    · exact (hfresh.returned_lt n hold).trans_le hle
    · exact (hfresh.pending_lt n hold).trans_le hle
    · exact hlt
  not_returned n hpending hreturned := by
    rcases hmoves.returned n hreturned with hold | ⟨hnone, -⟩
    · rcases hmoves.pending n hpending with hheld | ⟨rfl, -⟩
      · exact hfresh.not_returned n hheld hold
      · exact (hfresh.returned_lt _ hold).false
    · exact hnone n hpending

omit [DecidableEq Thread] in
theorem opened_fresh : (State.opened : State Thread).Fresh := by
  refine ⟨?_, ?_, ?_⟩
  · rintro n ⟨response, hnone, -⟩
    cases hnone
  · rintro n ⟨thread, err, response, hnone, -⟩
    cases hnone
  · rintro n ⟨response, hnone, -⟩
    cases hnone

theorem fresh_of_runs (hruns : Runs State.step State.opened s) : s.Fresh :=
  hruns.invariant State.Fresh
    (fun _ _ _ hfresh hstep => hfresh.moves (step_moves hstep)) opened_fresh

/-- A response that neither the channel nor a thread holds is never seen
again. -/
theorem not_returned_of_lost {n : Nat} (hsent : n < s.sent)
    (hpending : ¬ s.channel.Pending n) (hreturned : ¬ s.Returned n)
    (hruns : Runs State.step s s') : ¬ s'.Returned n := by
  have hlost : n < s'.sent ∧ ¬ s'.channel.Pending n ∧ ¬ s'.Returned n := by
    apply hruns.invariant (fun s =>
      n < s.sent ∧ ¬ s.channel.Pending n ∧ ¬ s.Returned n) ?_
      ⟨hsent, hpending, hreturned⟩
    rintro s event s' ⟨hlt, hnot, hnone⟩ hstep
    have hmoves := step_moves hstep
    refine ⟨hlt.trans_le hmoves.sent_le, ?_, ?_⟩
    · intro hheld
      rcases hmoves.pending n hheld with hold | ⟨rfl, -⟩
      · exact hnot hold
      · exact hlt.false
    · intro hgiven
      rcases hmoves.returned n hgiven with hold | ⟨-, hold | ⟨rfl, -⟩⟩
      · exact hnone hold
      · exact hnot hold
      · exact hlt.false
  exact hlost.2.2

/-- In every run, a call made while a command is pending is refused, and the
refusal takes away the pending command: the channel forgets it, and no thread
is ever given its response. -/
theorem refused_call_disturbs (hruns : Runs State.step State.opened s)
    {pending : ATResponse} (hpending : s.channel.spResponse = some pending)
    {thread : Thread} {command : Command} {accepted : Bool}
    (hstep : s.step (.send thread command accepted) = some s') :
    s'.calls thread = some (.returned AT_ERROR_COMMAND_PENDING none) ∧
      ¬ Undisturbed s.channel s'.channel ∧
      ∀ s'', Runs State.step s' s'' → ¬ s''.Returned pending.serial := by
  have hsend : s' = s.record thread
      (fail s.channel AT_ERROR_COMMAND_PENDING none) (s.sent + 1) := by
    rw [← record_of_send hstep]
    unfold atSendCommandFullNolock
    rw [if_pos (by simp [hpending])]
  have hfresh := fresh_of_runs hruns
  have hheld : s.channel.Pending pending.serial := ⟨pending, hpending, rfl⟩
  have hmoves := step_moves hstep
  have hcleared : ∀ n, ¬ s'.channel.Pending n := by
    rw [hsend]
    exact not_pending_clear s.channel
  refine ⟨?_, ?_, ?_⟩
  · simp [hsend, State.record, fail]
  · intro hsame
    apply hcleared pending.serial
    exact ⟨pending, hsame.1.trans hpending, rfl⟩
  · intro s'' hruns'
    have hlt := (hfresh.pending_lt _ hheld).trans_le hmoves.sent_le
    apply not_returned_of_lost hlt (hcleared _) ?_ hruns'
    rintro ⟨other, err, response, hcall, hserial⟩
    apply hfresh.not_returned _ hheld
    refine ⟨other, err, response, ?_, hserial⟩
    by_cases hother : other = thread
    · subst hother
      simp [hsend, State.record, fail] at hcall
    · simpa [hsend, State.record, hother] using hcall

end Runs

namespace AtCommandWitness

/-- A command of one line and one for the text of a message. -/
def csq : Command :=
  ⟨.SINGLELINE, some (.ofString "+CSQ:"), none, 0, true⟩

def cmgs : Command :=
  ⟨.SINGLELINE, some (.ofString "+CMGS:"), some (.ofString "00"), 0, true⟩

/-- One thread has sent a message and waits. -/
def waiting : State Bool :=
  (State.opened : State Bool).record true
    (atSendCommandFullNolock (State.opened : State Bool).channel cmgs
      true 0) 1

theorem waiting_reachable : Runs State.step State.opened waiting :=
  Reach.refl.tail (.send true cmgs true) trivial rfl

def refused : State Bool :=
  waiting.record false (fail waiting.channel AT_ERROR_COMMAND_PENDING none) 2

theorem waiting_disturbed :
    refused.calls false = some (.returned AT_ERROR_COMMAND_PENDING none) ∧
      ¬ Undisturbed waiting.channel refused.channel ∧
      ∀ s'', Runs State.step refused s'' → ¬ s''.Returned 0 :=
  refused_call_disturbs waiting_reachable
    (show waiting.channel.spResponse = some ⟨0, false, none, []⟩ from rfl)
    (show waiting.step (.send false csq true) = some refused from rfl)

/-- The refused call takes the response, the prefix and the text away from the
thread that waits. -/
theorem refused_call_not_undisturbed :
    ¬ ∀ (s s' : State Bool) (thread : Bool) (command : Command)
      (accepted : Bool), Runs State.step State.opened s →
      s.channel.spResponse ≠ none →
      s.step (.send thread command accepted) = some s' →
      s'.calls thread = some (.returned AT_ERROR_COMMAND_PENDING none) →
      Undisturbed s.channel s'.channel := by
  intro hclaim
  have hsame := hclaim waiting refused false csq true waiting_reachable
    (by decide) rfl rfl
  exact absurd hsame.1 (by decide)

end AtCommandWitness

end AtChannel

end MetaOS
