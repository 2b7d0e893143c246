/-
hardware/ril/reference-ril/reference-ril.c: the commands to the modem and what
is read from the lines that answer them.

Reading a line gives nothing where the source leaves for its error exit.
-/
import MetaOS.AtCommand
import MetaOS.AtTok
import MetaOS.RilDispatch

namespace MetaOS

namespace ReferenceRil

open AtTok CString RilDispatch

abbrev RILToken := Nat

inductive RILErrno where
  | SUCCESS
  | RADIO_NOT_AVAILABLE
  | GENERIC_FAILURE
  | PASSWORD_INCORRECT
  | REQUEST_NOT_SUPPORTED
deriving DecidableEq

inductive RadioState where
  | OFF
  | UNAVAILABLE
  | SIM_NOT_READY
  | SIM_LOCKED_OR_ABSENT
  | SIM_READY
  | RUIM_NOT_READY
  | RUIM_READY
  | RUIM_LOCKED_OR_ABSENT
  | NV_NOT_READY
  | NV_READY
deriving DecidableEq

/-- `sState` and `s_closed` -/
structure Radio where
  sState : RadioState
  sClosed : Bool
deriving DecidableEq

/-- What the other threads have done to them since they were looked at:
`onATReaderClosed` on the reader thread, or `mainLoop`, which opens the channel
again. -/
inductive Interference where
  | nothing
  | readerClosed
  | reopened
deriving DecidableEq

def Radio.after (radio : Radio) : Interference → Radio
  | .nothing => radio
  | .readerClosed => ⟨.UNAVAILABLE, true⟩
  | .reopened => { radio with sClosed := false }

inductive SIMStatus where
  | SIM_ABSENT
  | SIM_NOT_READY
  | SIM_READY
  | SIM_PIN
  | SIM_PUK
  | SIM_NETWORK_PERSONALIZATION
deriving DecidableEq

/-- What is sent to the modem. -/
inductive Command where
  | CFUN (on : Bool)
  | askCFUN
  | askCPIN
  | CPIN (first : Option Bytes) (second : Option (Option Bytes))
  | CSMS
  | CNMI
  | askCGACT
  | askCGDCONT
  | askCOPS
  | CLCC
  | dial (address : Option Bytes) (clir : Bytes)
  | CMGW (pdu : Bytes) (status : Int)
  | CHLD (action : Bytes)
  | CSQ
  | askCREG
  | askCGREG
  | operatorNames
  | CMGS (smsc pdu : Bytes)
  | CGDCONT (apn : Option Bytes)
  | CGQREQ
  | CGQMIN
  | CGEREP
  | CGACT
  | dialData
  | CNMA (n : Nat)
  | CRSM (command fileid p1 p2 p3 : Int) (data : Option Bytes)
  | ATA
  | ATH
  | VTS (c : UInt8)
  | CIMI
  | CGSN
  | CUSD
  | automaticCOPS
  | CMGD (index : Int)
deriving DecidableEq

/-- `%s` prints a null pointer, too. -/
def percentS (text : Option Bytes) : Bytes := text.getD (.ofString "(null)")

def percentD (n : Int) : Bytes := .ofString (toString n)

/-- `%x`, of an `int` -/
def percentX (n : Int) : Bytes :=
  .ofString (String.ofList (Nat.toDigits 16 (n % 2 ^ 32).toNat))

def Command.text : Command → Bytes
  | CFUN on => .ofString (if on then "AT+CFUN=1" else "AT+CFUN=0")
  | askCFUN => .ofString "AT+CFUN?"
  | askCPIN => .ofString "AT+CPIN?"
  | CPIN first none => .ofString "AT+CPIN=" ++ percentS first
  | CPIN first (some second) => .ofString "AT+CPIN=" ++ percentS first ++
      .ofString "," ++ percentS second
  | CSMS => .ofString "AT+CSMS=1"
  | CNMI => .ofString "AT+CNMI=1,2,2,1,1"
  | askCGACT => .ofString "AT+CGACT?"
  | askCGDCONT => .ofString "AT+CGDCONT?"
  | askCOPS => .ofString "AT+COPS?"
  | CLCC => .ofString "AT+CLCC"
  | dial address clir => .ofString "ATD" ++ percentS address ++ clir ++
      .ofString ";"
  | CMGW pdu status => .ofString "AT+CMGW=" ++ percentD (pdu.length / 2) ++
      .ofString "," ++ percentD status
  | CHLD action => .ofString "AT+CHLD=" ++ action
  | CSQ => .ofString "AT+CSQ"
  | askCREG => .ofString "AT+CREG?"
  | askCGREG => .ofString "AT+CGREG?"
  | operatorNames =>
      .ofString "AT+COPS=3,0;+COPS?;+COPS=3,1;+COPS?;+COPS=3,2;+COPS?"
  | CMGS _ pdu => .ofString "AT+CMGS=" ++ percentD (pdu.length / 2)
  | CGDCONT apn => .ofString "AT+CGDCONT=1,\"IP\",\"" ++ percentS apn ++
      .ofString "\",,0,0"
  | CGQREQ => .ofString "AT+CGQREQ=1"
  | CGQMIN => .ofString "AT+CGQMIN=1"
  | CGEREP => .ofString "AT+CGEREP=1,0"
  | CGACT => .ofString "AT+CGACT=1,0"
  | dialData => .ofString "ATD*99***1#"
  | CNMA n => .ofString "AT+CNMA=" ++ percentD n
  | CRSM command fileid p1 p2 p3 data => .ofString "AT+CRSM=" ++
      percentD command ++ .ofString "," ++ percentD fileid ++ .ofString "," ++
      percentD p1 ++ .ofString "," ++ percentD p2 ++ .ofString "," ++
      percentD p3 ++
      match data with
      | none => []
      | some data => .ofString "," ++ data
  | ATA => .ofString "ATA"
  | ATH => .ofString "ATH"
  | VTS c => .ofString "AT+VTS=" ++ [c]
  | CIMI => .ofString "AT+CIMI"
  | CGSN => .ofString "AT+CGSN"
  | CUSD => .ofString "AT+CUSD=2"
  | automaticCOPS => .ofString "AT+COPS=0"
  | CMGD index => .ofString "AT+CMGD=" ++ percentD index

/-- How a command is sent, with the start of the lines that answer it and the
message that follows a prompt. -/
inductive Sending where
  | plain
  | numeric
  | singleline (responsePrefix : String)
  | multiline (responsePrefix : String)
  | sms (pdu : Bytes) (responsePrefix : String)

def Command.sending : Command → Sending
  | askCFUN => .singleline "+CFUN:"
  | askCPIN | CPIN _ _ => .singleline "+CPIN:"
  | CSMS => .singleline "+CSMS:"
  | askCOPS => .singleline "+COPS:"
  | CSQ => .singleline "+CSQ:"
  | askCREG => .singleline "+CREG:"
  | askCGREG => .singleline "+CGREG:"
  | CRSM _ _ _ _ _ _ => .singleline "+CRSM:"
  | askCGACT => .multiline "+CGACT:"
  | askCGDCONT => .multiline "+CGDCONT:"
  | CLCC => .multiline "+CLCC:"
  | operatorNames => .multiline "+COPS:"
  | CMGW pdu _ => .sms pdu "+CMGW:"
  | CMGS smsc pdu => .sms (smsc ++ pdu) "+CMGS:"
  | CIMI | CGSN | CUSD => .numeric
  | _ => .plain

structure ATResponse where
  success : Bool
  finalResponse : Bytes
  pIntermediates : List Bytes
deriving DecidableEq

def AT_ERROR_INVALID_RESPONSE : Int := -6

/-- A negative code, or the response. -/
abbrev Reply := Except Int ATResponse

/-- Behind `at_send_command_full`, all but the plain and the multiline
functions ask for a line if the command was successful. -/
def Sending.checked : Sending → Reply → Reply
  | plain, reply | multiline _, reply => reply
  | _, .error err => .error err
  | _, .ok response =>
      if response.success ∧ response.pIntermediates = [] then
        .error AT_ERROR_INVALID_RESPONSE
      else .ok response

inductive RILCallState where
  | ACTIVE
  | HOLDING
  | DIALING
  | ALERTING
  | INCOMING
  | WAITING
deriving DecidableEq

/-- The fields that are not set here stay 0. -/
structure RILCall where
  state : RILCallState
  index : Int
  toa : Int
  isMpty : Bool
  isMT : Bool
  isVoice : Bool
  number : Option Bytes
deriving DecidableEq

structure RILDataCallResponse where
  cid : Int
  active : Int
  type : Bytes
  apn : Bytes
  address : Bytes
deriving DecidableEq

inductive RILAppState where
  | UNKNOWN
  | DETECTED
  | PIN
  | PUK
  | SUBSCRIPTION_PERSO
  | READY
deriving DecidableEq

inductive RILPersoSubstate where
  | UNKNOWN
  | READY
  | SIM_NETWORK
deriving DecidableEq

inductive RILPinState where
  | UNKNOWN
  | ENABLED_NOT_VERIFIED
  | ENABLED_BLOCKED
deriving DecidableEq

/-- `isSim` stands for the two types of an application, and the fields that
are null or 0 are left out. -/
structure RILAppStatus where
  isSim : Bool
  appState : RILAppState
  persoSubstate : RILPersoSubstate
  pin1 : RILPinState
deriving DecidableEq

/-- The first application, if there is one; all others are unknown. -/
structure RILCardStatus where
  present : Bool
  application : Option RILAppStatus
deriving DecidableEq

/-- What is handed over with a completion. -/
inductive Response where
  | null
  | ints (values : List Int)
  | string (text : Bytes)
  | strings (texts : List (Option Bytes))
  | calls (calls : List RILCall)
  | dataCalls (responses : List RILDataCallResponse)
  | emptySms
  | simAccess (sw1 sw2 : Int) (simResponse : Option Bytes)
  | cardStatus (status : RILCardStatus)
  | echo (data : Payload) (datalen : Nat)
deriving DecidableEq

section Lines

def clccStateToRILState : Int → Option RILCallState
  | 0 => some .ACTIVE
  | 1 => some .HOLDING
  | 2 => some .DIALING
  | 3 => some .ALERTING
  | 4 => some .INCOMING
  | 5 => some .WAITING
  | _ => none

/-- The number and its type at the end of a line. -/
def numberFromCLCCLine (cur : Cursor) (call : RILCall) : Bool × RILCall :=
  if !atTokHasmore cur then (true, call)
  else
    match atTokNextstr cur with
    | none => (true, call)
    | some (number, cur) =>
        -- some implementations return strings like "NOT AVAILABLE"
        let number :=
          if (number.headD 0 == 43 || AtChannel.isdigit (number.headD 0)) then
            some number
          else none
        match atTokNextint cur with
        | none => (false, { call with
            number := number
            toa := if cur.isNone then call.toa else 0 })
        | some (toa, _) => (true, { call with number := number, toa := toa })

/-- The fields before the number, filled in place: where one cannot be read
the line is invalid, and the call stays as it was filled. -/
def fieldsFromCLCCLine (line : Bytes) (call : RILCall) :
    Except RILCall (Cursor × RILCall) := do
  let cur ← (atTokStart line).getDM (throw call)
  let (index, cur) ← (atTokNextint cur).getDM
    (throw { call with index := if cur.isNone then call.index else 0 })
  let call := { call with index := index }
  let (isMT, cur) ← (atTokNextbool cur).getDM (throw call)
  let call := { call with isMT := isMT }
  let (state, cur) ← (atTokNextint cur).getDM (throw call)
  let state ← (clccStateToRILState state).getDM (throw call)
  let call := { call with state := state }
  let (mode, cur) ← (atTokNextint cur).getDM (throw call)
  let call := { call with isVoice := mode = 0 }
  let (isMpty, cur) ← (atTokNextbool cur).getDM (throw call)
  pure (cur, { call with isMpty := isMpty })

def callFromCLCCLine (line : Bytes) (call : RILCall) : Bool × RILCall :=
  match fieldsFromCLCCLine line call with
  | .error call => (false, call)
  | .ok (cur, call) => numberFromCLCCLine cur call

/-- The valid calls.  `call` is the one that is filled next; a line that is
invalid leaves it to the line behind. -/
def callsFromLines : (lines : List Bytes) → (call : RILCall) →
    List RILCall
  | [], _ => []
  | line :: lines, call =>
      match callFromCLCCLine line call with
      | (false, call) => callsFromLines lines call
      | (true, call) => call :: callsFromLines lines noCall
where
  noCall : RILCall := ⟨.ACTIVE, 0, 0, false, false, false, none⟩

def contextFromLine (line : Bytes) : Option RILDataCallResponse := do
  let cur ← atTokStart line
  let (cid, cur) ← atTokNextint cur
  let (active, _) ← atTokNextint cur
  pure ⟨cid, active, [], [], []⟩

/-- The details of a context, unless it is one that was not heard of. -/
def detailsFromLine (responses : List RILDataCallResponse)
    (line : Bytes) : Option (List RILDataCallResponse) := do
  let cur ← atTokStart line
  let (cid, cur) ← atTokNextint cur
  match responses.findIdx? (·.cid = cid) with
  | none => pure responses
  | some i =>
      let (type, cur) ← atTokNextstr cur
      let (apn, cur) ← atTokNextstr cur
      let (address, _) ← atTokNextstr cur
      pure (responses.modify i fun response =>
        { response with type := type, apn := apn, address := address })

def selectionModeFromLine (line : Bytes) : Option Int := do
  let cur ← atTokStart line
  let (mode, _) ← atTokNextint cur
  pure mode

def signalStrengthFromLine (line : Bytes) : Option (List Int) := do
  let cur ← atTokStart line
  let (rssi, cur) ← atTokNextint cur
  let (ber, _) ← atTokNextint cur
  pure [rssi, ber]

/-- `stat`, `lac`, `cid` and the network type, as strings. -/
def registrationStrings (stat lac cid : Int) (type : Option Int) :
    List (Option Bytes) :=
  [some (percentD stat), some (percentX lac), some (percentX cid)] ++
    (type.map fun type => some (percentD type)).toList

/-- There are 1, 2, 3, 4 or 5 arguments. -/
def registrationFromLine (line : Bytes) : Option (List (Option Bytes)) := do
  let cur ← atTokStart line
  match (cur.getD []).count 44 with
  | 0 =>
      let (stat, _) ← atTokNextint cur
      pure (registrationStrings stat (-1) (-1) none)
  | 1 =>
      let (_, cur) ← atTokNextint cur
      let (stat, _) ← atTokNextint cur
      pure (registrationStrings stat (-1) (-1) none)
  | 2 =>
      let (stat, cur) ← atTokNextint cur
      let (lac, cur) ← atTokNexthexint cur
      let (cid, _) ← atTokNexthexint cur
      pure (registrationStrings stat lac cid none)
  | 3 =>
      let (_, cur) ← atTokNextint cur
      let (stat, cur) ← atTokNextint cur
      let (lac, cur) ← atTokNexthexint cur
      let (cid, _) ← atTokNexthexint cur
      pure (registrationStrings stat lac cid none)
  | 4 =>
      let (_, cur) ← atTokNextint cur
      let (stat, cur) ← atTokNextint cur
      let (lac, cur) ← atTokNexthexint cur
      let (cid, cur) ← atTokNexthexint cur
      let (type, _) ← atTokNexthexint cur
      pure (registrationStrings stat lac cid (some type))
  | _ => none

/-- The name on a line, which a line of an unregistered phone does not
have. -/
def operatorFromLine (line : Bytes) : Option (Option Bytes) := do
  let cur ← atTokStart line
  let (_, cur) ← atTokNextint cur
  if !atTokHasmore cur then pure none
  else
    let (_, cur) ← atTokNextint cur
    if !atTokHasmore cur then pure none
    else
      let (name, _) ← atTokNextstr cur
      pure (some name)

/-- How the loop over the lines ends. -/
inductive OperatorLines where
  | invalid
  | overrun
  | names (response : List (Option Bytes))
deriving DecidableEq

/-- `response` has room for three names, and a fourth one is written behind
it. -/
def operatorLines : (lines : List Bytes) → (response : List (Option Bytes)) →
    OperatorLines
  | [], response => if response.length = 3 then .names response else .invalid
  | line :: lines, response =>
      match operatorFromLine line with
      | none => .invalid
      | some name =>
          if response.length < 3 then operatorLines lines (response ++ [name])
          else .overrun

def simAccessFromLine (line : Bytes) : Option Response := do
  let cur ← atTokStart line
  let (sw1, cur) ← atTokNextint cur
  let (sw2, cur) ← atTokNextint cur
  if atTokHasmore cur then
    let (simResponse, _) ← atTokNextstr cur
    pure (.simAccess sw1 sw2 (some simResponse))
  else pure (.simAccess sw1 sw2 none)

def CME_ERROR_NON_CME : Int := -1
def CME_SUCCESS : Int := 0
def CME_SIM_NOT_INSERTED : Int := 10

def atGetCmeError (response : ATResponse) : Int :=
  if response.success then CME_SUCCESS
  else if !(Bytes.ofString "+CME ERROR:").isPrefixOf
      response.finalResponse then CME_ERROR_NON_CME
  else
    let code := do
      let cur ← atTokStart response.finalResponse
      atTokNextint cur
    match code with
    | none => CME_ERROR_NON_CME
    | some (err, _) => err

def simStatusFromLine (line : Bytes) : SIMStatus :=
  let result := do
    let cur ← atTokStart line
    atTokNextstr cur
  match result with
  | none => .SIM_NOT_READY
  | some (cpinResult, _) =>
      if cpinResult = .ofString "SIM PIN" then .SIM_PIN
      else if cpinResult = .ofString "SIM PUK" then .SIM_PUK
      else if cpinResult = .ofString "PH-NET PIN" then
        .SIM_NETWORK_PERSONALIZATION
      else if cpinResult ≠ .ofString "READY" then
        -- unsupported lock types are treated as "sim absent"
        .SIM_ABSENT
      else .SIM_READY

def radioOnFromLine (line : Bytes) : Option Bool := do
  let cur ← atTokStart line
  let (on, _) ← atTokNextbool cur
  pure on

end Lines

end ReferenceRil

end MetaOS
