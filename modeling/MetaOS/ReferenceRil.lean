/-
hardware/ril/reference-ril/reference-ril.c: the requests that are made of the
radio.

A request is a program over the calls to the modem, to the data interface and
back to the library.  The reader thread may close the channel at any time, so
`sState` and `s_closed` are looked at through a call.  A program gives nothing
where C leaves undefined what happens, or an assertion fails.
-/
import MetaOS.ReferenceRilLines

namespace MetaOS

namespace ReferenceRil

open CString RilDispatch

inductive Unsolicited where
  | RADIO_STATE_CHANGED
  | DATA_CALL_LIST_CHANGED (responses : List RILDataCallResponse)
deriving DecidableEq

inductive Callback where
  | sendCallStateChanged
  | pollSIMState
deriving DecidableEq

/-- Everything outside of a request. -/
inductive Call where
  | look
  | send (command : Command)
  | complete (t : RILToken) (e : RILErrno) (response : Response)
  | unsolicited (what : Unsolicited)
  | timedCallback (callback : Callback)
  | openQmi
  | writeQmi (text : Bytes)
  | readQmi
  | system (command : String)

/-- A write to the interface takes one more character than the answer, or
fails; one that is interrupted or takes nothing is made again. -/
def Call.Answer : Call → Type
  | look => Interference
  | send _ => Reply
  | complete _ _ _ | unsolicited _ | timedCallback _ => Unit
  | openQmi => Bool
  | writeQmi _ => Option Nat
  | readQmi => Option Bytes
  | system _ => Int

abbrev Body := Prog Call Call.Answer

def look (radio : Radio) : Body Radio := do
  let interference ← Prog.perform Call.look
  pure (radio.after interference)

def atSendCommand (command : Command) : Body Reply := do
  let reply ← Prog.perform (Call.send command)
  pure (command.sending.checked reply)

def rilOnRequestComplete (t : RILToken) (e : RILErrno)
    (response : Response) : Body Unit :=
  Prog.perform (Call.complete t e response)

def rilOnUnsolicitedResponse (what : Unsolicited) : Body Unit :=
  Prog.perform (Call.unsolicited what)

def rilRequestTimedCallback (callback : Callback) : Body Unit :=
  Prog.perform (Call.timedCallback callback)

def openQmi : Body Bool := Prog.perform Call.openQmi

def writeQmi (text : Bytes) : Body (Option Nat) :=
  Prog.perform (Call.writeQmi text)

def readQmi : Body (Option Bytes) := Prog.perform Call.readQmi

def system (command : String) : Body Int := Prog.perform (Call.system command)

/-- `err < 0 || p_response->success == 0`, with the response otherwise. -/
def successful : Reply → Option ATResponse
  | .error _ => none
  | .ok response => if response.success then some response else none

section State

/-- The line of a response is read without a look at whether there is
one. -/
def withLine {α : Type} (response : ATResponse)
    (next : Bytes → Body (Option α)) : Body (Option α) :=
  match response.pIntermediates with
  | [] => pure none
  | line :: _ => next line

def getSIMStatus (radio : Radio) : Body (Option (SIMStatus × Radio)) := do
  let radio ← look radio
  if radio.sState = .OFF ∨ radio.sState = .UNAVAILABLE then
    pure (some (.SIM_NOT_READY, radio))
  else
    match ← atSendCommand .askCPIN with
    | .error _ => pure (some (.SIM_NOT_READY, radio))
    | .ok response =>
        if atGetCmeError response = CME_SIM_NOT_INSERTED then
          pure (some (.SIM_ABSENT, radio))
        else if atGetCmeError response ≠ CME_SUCCESS then
          pure (some (.SIM_NOT_READY, radio))
        else
          withLine response fun line =>
            pure (some (simStatusFromLine line, radio))

def onSIMReady : Body Unit := do
  let _ ← atSendCommand .CSMS
  let _ ← atSendCommand .CNMI

/-- The part of `setRadioState` under the mutex; `oldState` comes first. -/
def changeState (radio : Radio) (newState : RadioState) :
    Body (RadioState × Radio) := do
  let radio ← look radio
  let newState := if radio.sClosed then .UNAVAILABLE else newState
  pure (radio.sState, { radio with sState := newState })

/-- `poll` is `onRadioPowerOn`, which is called only when the state has become
that of a SIM that is not ready. -/
def setRadioStateWith (poll : Radio → Body (Option Radio)) (radio : Radio)
    (newState : RadioState) : Body (Option Radio) := do
  let (oldState, radio) ← changeState radio newState
  let radio ← look radio
  if radio.sState = oldState then pure (some radio)
  else
    rilOnUnsolicitedResponse .RADIO_STATE_CHANGED
    let radio ← look radio
    if radio.sState = .SIM_READY then
      onSIMReady
      pure (some radio)
    else
      let radio ← look radio
      if radio.sState = .SIM_NOT_READY then poll radio
      else pure (some radio)

/-- The state is set to another one than that of a SIM that is not ready, so
that there is nothing to poll. -/
def setRadioStatePolled : Radio → RadioState → Body (Option Radio) :=
  setRadioStateWith fun radio => pure (some radio)

theorem after_ne_simNotReady {radio : Radio}
    (hradio : radio.sState ≠ .SIM_NOT_READY) (interference : Interference) :
    (radio.after interference).sState ≠ .SIM_NOT_READY := by
  cases interference with
  | nothing => exact hradio
  | readerClosed => simp [Radio.after]
  | reopened => exact hradio

theorem setRadioStateWith_of_ne (poll poll' : Radio → Body (Option Radio))
    (radio : Radio) {newState : RadioState}
    (hnew : newState ≠ .SIM_NOT_READY) :
    setRadioStateWith poll radio newState =
      setRadioStateWith poll' radio newState := by
  simp only [setRadioStateWith, changeState, look, rilOnUnsolicitedResponse,
    Prog.perform_bind, Prog.call_bind, Prog.pure_eq_ret, Prog.ret_bind]
  congr 1
  funext first
  generalize hstate : (if (radio.after first).sClosed = true then
    RadioState.UNAVAILABLE else newState) = state
  have hne : state ≠ .SIM_NOT_READY := by
    rw [← hstate]
    split
    · simp
    · exact hnew
  congr 1
  funext second
  split
  · rfl
  · congr 1
    funext _
    congr 1
    funext third
    split
    · rfl
    · congr 1
      funext fourth
      -- none of the looks has made it the state that is polled
      have hnone := after_ne_simNotReady (after_ne_simNotReady
        (after_ne_simNotReady
          (show (Radio.mk state (radio.after first).sClosed).sState ≠ _
            from hne) second) third) fourth
      rw [if_neg hnone, if_neg hnone]

def pollSIMState (radio : Radio) : Body (Option Radio) := do
  let radio ← look radio
  if radio.sState ≠ .SIM_NOT_READY then pure (some radio)
  else
    (getSIMStatus radio).andThen fun (status, radio) =>
      match status with
      | .SIM_NOT_READY => do
          rilRequestTimedCallback .pollSIMState
          pure (some radio)
      | .SIM_READY => setRadioStatePolled radio .SIM_READY
      | _ => setRadioStatePolled radio .SIM_LOCKED_OR_ABSENT

def setRadioState : Radio → RadioState → Body (Option Radio) :=
  setRadioStateWith pollSIMState

/-- `pollSIMState` sets the state as `setRadioState` does. -/
theorem setRadioStatePolled_eq (radio : Radio) {newState : RadioState}
    (hnew : newState ≠ .SIM_NOT_READY) :
    setRadioStatePolled radio newState = setRadioState radio newState :=
  setRadioStateWith_of_ne _ _ radio hnew

/-- 1 if on, 0 if off, and -1 on error -/
def isRadioOn : Body (Option Int) := do
  match successful (← atSendCommand .askCFUN) with
  | none => pure (some (-1))
  | some response =>
      withLine response fun line =>
        match radioOnFromLine line with
        | none => pure (some (-1))
        | some true => pure (some 1)
        | some false => pure (some 0)

def appStatusArray : SIMStatus → RILAppStatus
  | .SIM_ABSENT => ⟨false, .UNKNOWN, .UNKNOWN, .UNKNOWN⟩
  | .SIM_NOT_READY => ⟨true, .DETECTED, .UNKNOWN, .UNKNOWN⟩
  | .SIM_READY => ⟨true, .READY, .READY, .UNKNOWN⟩
  | .SIM_PIN => ⟨true, .PIN, .UNKNOWN, .ENABLED_NOT_VERIFIED⟩
  | .SIM_PUK => ⟨true, .PUK, .UNKNOWN, .ENABLED_BLOCKED⟩
  | .SIM_NETWORK_PERSONALIZATION =>
      ⟨true, .SUBSCRIPTION_PERSO, .SIM_NETWORK, .ENABLED_NOT_VERIFIED⟩

def cardStatus (status : SIMStatus) : RILCardStatus :=
  if status = .SIM_ABSENT then ⟨false, none⟩
  else ⟨true, some (appStatusArray status)⟩

end State

section Payload

/-- `((int *)data)[0]` -/
def firstInt : Payload → Option Int
  | .ints (value :: _) => some value
  | _ => none

/-- `((char **)data)[i]` -/
def stringAt (i : Nat) : Payload → Option (Option Bytes)
  | .strings (some texts) => texts[i]?
  | _ => none

/-- `((char *)data)[0]` -/
def firstChar : Payload → Option UInt8
  | .string (some text) => some (text.headD 0)
  | _ => none

end Payload

section Requests

variable (radio : Radio) (data : Payload) (datalen : Nat) (t : RILToken)

/-- A request that is answered with this. -/
def answer (e : RILErrno) (response : Response) : Body (Option Radio) := do
  rilOnRequestComplete t e response
  pure (some radio)

def fail : Body (Option Radio) := answer radio t .GENERIC_FAILURE .null

def succeed (response : Response) : Body (Option Radio) :=
  answer radio t .SUCCESS response

/-- What has been read from a line is handed over, if it was valid. -/
def answerWith : Option Response → Body (Option Radio)
  | none => fail radio t
  | some response => succeed radio t response

/-- The commands whose success is ignored by the upper layer. -/
def sendAndSucceed (command : Command) : Body (Option Radio) := do
  let _ ← atSendCommand command
  succeed radio t .null

def requestRadioPower : Body (Option Radio) := do
  match firstInt data with
  | none => pure none
  | some onOff =>
      if datalen < 4 then pure none
      else
        let radio ← look radio
        if onOff = 0 ∧ radio.sState ≠ .OFF then
          match successful (← atSendCommand (.CFUN false)) with
          | none => fail radio t
          | some _ =>
              (setRadioState radio .OFF).andThen fun radio =>
                succeed radio t .null
        else if 0 < onOff ∧ radio.sState = .OFF then
          -- some stacks return an error when there is no SIM, but they really
          -- turn the RF portion on
          let turnedOn : Body (Option Int) := do
            match successful (← atSendCommand (.CFUN true)) with
            | none => isRadioOn
            | some _ => pure (some 1)
          turnedOn.andThen fun on =>
            if on ≠ 1 then fail radio t
            else
              (setRadioState radio .SIM_NOT_READY).andThen fun radio =>
                succeed radio t .null
        else succeed radio t .null

/-- Without a token the list is sent unsolicited. -/
def requestOrSendDataCallList (t : Option RILToken) :
    Body (Option Radio) := do
  let finish (e : RILErrno) (responses : List RILDataCallResponse)
      (response : Response) : Body (Option Radio) :=
    match t with
    | some t => answer radio t e response
    | none => do
        rilOnUnsolicitedResponse (.DATA_CALL_LIST_CHANGED responses)
        pure (some radio)
  match successful (← atSendCommand .askCGACT) with
  | none => finish .GENERIC_FAILURE [] .null
  | some response =>
      match response.pIntermediates.mapM contextFromLine with
      | none => finish .GENERIC_FAILURE [] .null
      | some responses =>
          match successful (← atSendCommand .askCGDCONT) with
          | none => finish .GENERIC_FAILURE [] .null
          | some details =>
              match details.pIntermediates.foldlM detailsFromLine
                  responses with
              | none => finish .GENERIC_FAILURE [] .null
              | some responses =>
                  finish .SUCCESS responses (.dataCalls responses)

def requestDataCallList : Body (Option Radio) :=
  requestOrSendDataCallList radio (some t)

def requestQueryNetworkSelectionMode : Body (Option Radio) := do
  match successful (← atSendCommand .askCOPS) with
  | none => fail radio t
  | some response =>
      withLine response fun line =>
        answerWith radio t
          ((selectionModeFromLine line).map fun mode => .ints [mode])

def requestGetCurrentCalls : Body (Option Radio) := do
  match successful (← atSendCommand .CLCC) with
  | none => fail radio t
  | some response =>
      let calls := callsFromLines response.pIntermediates
        callsFromLines.noCall
      rilOnRequestComplete t .SUCCESS (.calls calls)
      if calls.any fun call => call.state ≠ .ACTIVE ∧ call.state ≠ .HOLDING then
        rilRequestTimedCallback .sendCallStateChanged
      pure (some radio)

def requestDial : Body (Option Radio) :=
  match data with
  | .dial address clir _ =>
      let clir := if clir = 1 then "I" else if clir = 2 then "i" else ""
      sendAndSucceed radio t (.dial address (.ofString clir))
  | _ => pure none

def requestWriteSmsToSim : Body (Option Radio) := do
  match data with
  | .smsWrite status (some pdu) _ =>
      match successful (← atSendCommand (.CMGW pdu status)) with
      | none => fail radio t
      | some _ => succeed radio t .null
  | _ => pure none

def requestHangup : Body (Option Radio) :=
  match firstInt data with
  | none => pure none
  | some line =>
      -- "Releases a specific active call X"
      sendAndSucceed radio t (.CHLD (.ofString "1" ++ percentD line))

def requestSignalStrength : Body (Option Radio) := do
  match successful (← atSendCommand .CSQ) with
  | none =>
      rilOnRequestComplete t .GENERIC_FAILURE .null
      -- `goto error`
      fail radio t
  | some response =>
      withLine response fun line =>
        answerWith radio t ((signalStrengthFromLine line).map .ints)

/-- The response is used without a look at its success. -/
def requestRegistrationState (command : Command) : Body (Option Radio) := do
  match ← atSendCommand command with
  | .error _ => fail radio t
  | .ok response =>
      withLine response fun line =>
        answerWith radio t ((registrationFromLine line).map .strings)

def requestOperator : Body (Option Radio) := do
  match ← atSendCommand .operatorNames with
  | .error _ => fail radio t
  | .ok response =>
      match operatorLines response.pIntermediates [] with
      | .invalid => fail radio t
      | .overrun => pure none
      | .names response => succeed radio t (.strings response)

def requestSendSMS : Body (Option Radio) := do
  match stringAt 0 data, stringAt 1 data with
  | some smsc, some (some pdu) =>
      -- "NULL for default SMSC"
      let smsc := smsc.getD (.ofString "00")
      match successful (← atSendCommand (.CMGS smsc pdu)) with
      | none => fail radio t
      | some _ => succeed radio t .emptySms
  | _, _ => pure none

/-- The loop that writes a text to the interface.  Every write takes some of
it, so that there are not more rounds than characters. -/
def writeLoop : (rounds : Nat) → (text : Bytes) → Body Bool
  | 0, _ => pure true
  | rounds + 1, text =>
      if text = [] then pure true
      else do
        match ← writeQmi text with
        | none => pure false
        | some n => writeLoop rounds (text.drop (n + 1))

def isUp (status : Bytes) : Bool :=
  (Bytes.ofString "STATE=up").isPrefixOf (cstr status) ||
    cstr status = .ofString "online"

/-- Wait for the interface to come online. -/
def readLoop : (retry : Nat) → Body Bool
  | 0 => pure false
  | retry + 1 => do
      match ← readQmi with
      | none => pure false
      | some status => if isUp status then pure true else readLoop retry

def requestSetupDataCall : Body (Option Radio) := do
  match stringAt 2 data with
  | none => pure none
  | some apn =>
      let response : Response :=
        .strings [some (.ofString "1"), some (.ofString "/dev/omap_csmi_tty1")]
      if ← openQmi then
        let cmd := Bytes.ofString "up:" ++ percentS apn
        if !(← writeLoop cmd.length cmd) then fail radio t
        else if !(← readLoop 10) then fail radio t
        else
          let qmistatus ← system "netcfg rmnet0 dhcp"
          if qmistatus < 0 then fail radio t
          else succeed radio t response
      else
        let _ ← atSendCommand (.CGDCONT apn)
        let _ ← atSendCommand .CGQREQ
        let _ ← atSendCommand .CGQMIN
        let _ ← atSendCommand .CGEREP
        let _ ← atSendCommand .CGACT
        match successful (← atSendCommand .dialData) with
        | none => fail radio t
        | some _ => succeed radio t response

/-- Behind the success there is no `return`. -/
def requestSMSAcknowledge : Body (Option Radio) := do
  match firstInt data with
  | none => pure none
  | some ackSuccess =>
      if ackSuccess = 1 ∨ ackSuccess = 0 then
        let _ ← atSendCommand (.CNMA (if ackSuccess = 1 then 1 else 2))
        rilOnRequestComplete t .SUCCESS .null
        fail radio t
      else fail radio t

def requestSimIO : Body (Option Radio) := do
  match data with
  | .simAccess command fileid _ p1 p2 p3 data _ =>
      match successful
          (← atSendCommand (.CRSM command fileid p1 p2 p3 data)) with
      | none => fail radio t
      | some response =>
          withLine response fun line =>
            answerWith radio t (simAccessFromLine line)
  | _ => pure none

def requestEnterSimPin : Body (Option Radio) := do
  let enter (command : Command) : Body (Option Radio) := do
    match successful (← atSendCommand command) with
    | none => answer radio t .PASSWORD_INCORRECT .null
    | some _ => succeed radio t .null
  if datalen = 4 then
    match stringAt 0 data with
    | some first => enter (.CPIN first none)
    | none => pure none
  else if datalen = 8 then
    match stringAt 0 data, stringAt 1 data with
    | some first, some second => enter (.CPIN first (some second))
    | _, _ => pure none
  else answer radio t .PASSWORD_INCORRECT .null

def requestSendUSSD : Body (Option Radio) :=
  answer radio t .REQUEST_NOT_SUPPORTED .null

def requestSeparateConnection : Body (Option Radio) :=
  match firstInt data with
  | none => pure none
  | some party =>
      -- make sure that party is a single digit
      if 0 < party ∧ party < 10 then
        sendAndSucceed radio t (.CHLD (.ofString "2" ++ percentD party))
      else fail radio t

def requestDtmf : Body (Option Radio) :=
  match firstChar data with
  | none => pure none
  | some c => sendAndSucceed radio t (.VTS c)

/-- The line of a numeric response. -/
def requestNumeric (command : Command) : Body (Option Radio) := do
  match successful (← atSendCommand command) with
  | none => fail radio t
  | some response =>
      withLine response fun line => succeed radio t (.string line)

def requestDeleteSmsOnSim : Body (Option Radio) := do
  match firstInt data with
  | none => pure none
  | some index =>
      match successful (← atSendCommand (.CMGD index)) with
      | none => fail radio t
      | some _ => succeed radio t .null

/-- All strings are printed before they are echoed. -/
def requestOemHookStrings : Body (Option Radio) :=
  if (List.range (datalen / 4)).all fun i => (stringAt i data).isSome then
    succeed radio t (.echo data datalen)
  else pure none

def requestGetSimStatus : Body (Option Radio) :=
  (getSIMStatus radio).andThen fun (status, radio) =>
    succeed radio t (.cardStatus (cardStatus status))

end Requests

/-- The requests that `onRequest` tells apart. -/
inductive Request where
  | GET_SIM_STATUS
  | ENTER_SIM_PIN
  | ENTER_SIM_PUK
  | ENTER_SIM_PIN2
  | ENTER_SIM_PUK2
  | CHANGE_SIM_PIN
  | CHANGE_SIM_PIN2
  | GET_CURRENT_CALLS
  | DIAL
  | GET_IMSI
  | HANGUP
  | HANGUP_WAITING_OR_BACKGROUND
  | HANGUP_FOREGROUND_RESUME_BACKGROUND
  | SWITCH_WAITING_OR_HOLDING_AND_ACTIVE
  | CONFERENCE
  | UDUB
  | SIGNAL_STRENGTH
  | REGISTRATION_STATE
  | GPRS_REGISTRATION_STATE
  | OPERATOR
  | RADIO_POWER
  | DTMF
  | SEND_SMS
  | SETUP_DATA_CALL
  | SIM_ACCESS
  | SEND_USSD
  | CANCEL_USSD
  | SMS_ACKNOWLEDGE
  | GET_IMEI
  | ANSWER
  | QUERY_NETWORK_SELECTION_MODE
  | SET_NETWORK_SELECTION_AUTOMATIC
  | SEPARATE_CONNECTION
  | DATA_CALL_LIST
  | OEM_HOOK_RAW
  | OEM_HOOK_STRINGS
  | WRITE_SMS_TO_SIM
  | DELETE_SMS_ON_SIM
deriving DecidableEq

/-- Their numbers in `ril.h`. -/
def requestNumbers : List (Int × Request) :=
  [(1, .GET_SIM_STATUS), (2, .ENTER_SIM_PIN), (3, .ENTER_SIM_PUK),
    (4, .ENTER_SIM_PIN2), (5, .ENTER_SIM_PUK2), (6, .CHANGE_SIM_PIN),
    (7, .CHANGE_SIM_PIN2), (9, .GET_CURRENT_CALLS), (10, .DIAL),
    (11, .GET_IMSI), (12, .HANGUP), (13, .HANGUP_WAITING_OR_BACKGROUND),
    (14, .HANGUP_FOREGROUND_RESUME_BACKGROUND),
    (15, .SWITCH_WAITING_OR_HOLDING_AND_ACTIVE), (16, .CONFERENCE),
    (17, .UDUB), (19, .SIGNAL_STRENGTH), (20, .REGISTRATION_STATE),
    (21, .GPRS_REGISTRATION_STATE), (22, .OPERATOR), (23, .RADIO_POWER),
    (24, .DTMF), (25, .SEND_SMS), (27, .SETUP_DATA_CALL), (28, .SIM_ACCESS),
    (29, .SEND_USSD), (30, .CANCEL_USSD), (37, .SMS_ACKNOWLEDGE),
    (38, .GET_IMEI), (40, .ANSWER), (45, .QUERY_NETWORK_SELECTION_MODE),
    (46, .SET_NETWORK_SELECTION_AUTOMATIC), (52, .SEPARATE_CONNECTION),
    (57, .DATA_CALL_LIST), (59, .OEM_HOOK_RAW), (60, .OEM_HOOK_STRINGS),
    (63, .WRITE_SMS_TO_SIM), (64, .DELETE_SMS_ON_SIM)]

def request? (request : Int) : Option Request := requestNumbers.lookup request

/-- The `switch` of `onRequest`. -/
def dispatch (radio : Radio) (data : Payload) (datalen : Nat)
    (t : RILToken) : Request → Body (Option Radio)
  | .GET_SIM_STATUS => requestGetSimStatus radio t
  | .GET_CURRENT_CALLS => requestGetCurrentCalls radio t
  | .DIAL => requestDial radio data t
  | .HANGUP => requestHangup radio data t
  | .HANGUP_WAITING_OR_BACKGROUND =>
      sendAndSucceed radio t (.CHLD (.ofString "0"))
  | .HANGUP_FOREGROUND_RESUME_BACKGROUND =>
      sendAndSucceed radio t (.CHLD (.ofString "1"))
  | .SWITCH_WAITING_OR_HOLDING_AND_ACTIVE =>
      sendAndSucceed radio t (.CHLD (.ofString "2"))
  | .ANSWER => sendAndSucceed radio t .ATA
  | .CONFERENCE => sendAndSucceed radio t (.CHLD (.ofString "3"))
  | .UDUB => sendAndSucceed radio t .ATH
  | .SEPARATE_CONNECTION => requestSeparateConnection radio data t
  | .SIGNAL_STRENGTH => requestSignalStrength radio t
  | .REGISTRATION_STATE => requestRegistrationState radio t .askCREG
  | .GPRS_REGISTRATION_STATE => requestRegistrationState radio t .askCGREG
  | .OPERATOR => requestOperator radio t
  | .RADIO_POWER => requestRadioPower radio data datalen t
  | .DTMF => requestDtmf radio data t
  | .SEND_SMS => requestSendSMS radio data t
  | .SETUP_DATA_CALL => requestSetupDataCall radio data t
  | .SMS_ACKNOWLEDGE => requestSMSAcknowledge radio data t
  | .GET_IMSI => requestNumeric radio t .CIMI
  | .GET_IMEI => requestNumeric radio t .CGSN
  | .SIM_ACCESS => requestSimIO radio data t
  | .SEND_USSD => requestSendUSSD radio t
  | .CANCEL_USSD => requestNumeric radio t .CUSD
  | .SET_NETWORK_SELECTION_AUTOMATIC => do
      let _ ← atSendCommand .automaticCOPS
      pure (some radio)
  | .DATA_CALL_LIST => requestDataCallList radio t
  | .QUERY_NETWORK_SELECTION_MODE => requestQueryNetworkSelectionMode radio t
  | .OEM_HOOK_RAW => succeed radio t (.echo data datalen)
  | .OEM_HOOK_STRINGS => requestOemHookStrings radio data datalen t
  | .WRITE_SMS_TO_SIM => requestWriteSmsToSim radio data t
  | .DELETE_SMS_ON_SIM => requestDeleteSmsOnSim radio data t
  | .ENTER_SIM_PIN | .ENTER_SIM_PUK | .ENTER_SIM_PIN2 | .ENTER_SIM_PUK2
  | .CHANGE_SIM_PIN | .CHANGE_SIM_PIN2 =>
      requestEnterSimPin radio data datalen t

def onRequest (radio : Radio) (request : Int) (data : Payload)
    (datalen : Nat) (t : RILToken) : Body (Option Radio) := do
  let radio ← look radio
  if radio.sState = .UNAVAILABLE ∧
      request? request ≠ some .GET_SIM_STATUS then
    answer radio t .RADIO_NOT_AVAILABLE .null
  else
    let radio ← look radio
    if radio.sState = .OFF ∧ ¬ (request? request = some .RADIO_POWER ∨
        request? request = some .GET_SIM_STATUS) then
      answer radio t .RADIO_NOT_AVAILABLE .null
    else
      match request? request with
      | some request => dispatch radio data datalen t request
      | none => answer radio t .REQUEST_NOT_SUPPORTED .null

end ReferenceRil

end MetaOS
