/-
hardware/ril/reference-ril/reference-ril.c: what the requests make of every
reply of the modem.

The requests are those for the registration, the operator, the data calls, the
messages and the signal strength.
-/
import MetaOS.ReferenceRilAnswers

namespace MetaOS

namespace ReferenceRil

open AtTok CString Prog RilDispatch

inductive FieldKind where
  | int
  | hex
  | str

def FieldKind.skip : FieldKind → Cursor → Option Cursor
  | int, cur => (atTokNextint cur).map (·.2)
  | hex, cur => (atTokNexthexint cur).map (·.2)
  | str, cur => (atTokNextstr cur).map (·.2)

/-- The cursor behind fields of these kinds, if they can be read. -/
def behind : (kinds : List FieldKind) → Cursor → Option Cursor
  | [], cur => some cur
  | kind :: kinds, cur => (kind.skip cur).bind (behind kinds)

def afterFields (kinds : List FieldKind) (line : Bytes) : Option Cursor :=
  (atTokStart line).bind (behind kinds)

/-- A line begins with fields of these kinds. -/
def HasFields (kinds : List FieldKind) (line : Bytes) : Prop :=
  (afterFields kinds line).isSome

/-- A line has fields of these kinds and no others. -/
def IsFields (kinds : List FieldKind) (line : Bytes) : Prop :=
  ∃ last, afterFields kinds line = some last ∧ atTokHasmore last = false

/-- The fields of a line with the registration. -/
def registrationKinds : (commas : Nat) → Option (List FieldKind)
  | 0 => some [.int]
  | 1 => some [.int, .int]
  | 2 => some [.int, .hex, .hex]
  | 3 => some [.int, .int, .hex, .hex]
  | 4 => some [.int, .int, .hex, .hex, .hex]
  | _ => none

def RegistrationLine (line : Bytes) : Prop :=
  ∃ kinds, registrationKinds ((((atTokStart line).join).getD []).count 44) =
    some kinds ∧ HasFields kinds line

def OperatorLine (line : Bytes) : Prop :=
  IsFields [.int] line ∨ IsFields [.int, .int] line ∨
    HasFields [.int, .int, .str] line

section Reading

variable {α β : Type} {kinds : List FieldKind} {cur : Cursor} {line : Bytes}

end Reading

section Lists

variable {lines : List Bytes}

end Lists

section Runs

/-- The replies of a run. -/
def replies (trace : List ((c : Call) × c.Answer)) : List Reply :=
  trace.filterMap fun
    | ⟨.send _, reply⟩ => some reply
    | _ => none

/-- Whether what is handed to the library is an error.  A list of data calls
that is sent unsolicited has no error code. -/
def Call.refuses : Call → Option Bool
  | complete _ e _ => some (e ≠ .SUCCESS)
  | unsolicited (.DATA_CALL_LIST_CHANGED responses) => some (responses = [])
  | _ => none

def answers (trace : List ((c : Call) × c.Answer)) : List Bool :=
  trace.filterMap fun x => x.1.refuses

/-- Nothing undefined happens in a run, and what is malformed is answered with
errors. -/
structure Total {W : Type} (env : (c : Call) → W → c.Answer × W) (w : W)
    (body : Body (Option Radio)) (wellFormed : List Reply → Prop) : Prop where
  defined : (body.eval env w).1.isSome
  rejects : ¬ wellFormed (replies (body.trace env w)) →
    answers (body.trace env w) ≠ [] ∧
      ∀ refused ∈ answers (body.trace env w), refused = true

variable {wellFormed ready : List Reply → Prop} {radio : Radio} {t : RILToken}

end Runs

/-- The requests, with data that is well formed. -/
inductive Handler where
  | registrationState (gprs : Bool)
  | operator
  /-- The list that is sent unsolicited has no token. -/
  | dataCallList (t : Option RILToken)
  | sendSMS (smsc : Option Bytes) (pdu : Bytes)
  | writeSmsToSim (status : Int) (pdu : Bytes) (smsc : Option Bytes)
  | signalStrength

namespace Handler

def body (radio : Radio) (t : RILToken) : Handler → Body (Option Radio)
  | registrationState gprs =>
      requestRegistrationState radio t (if gprs then .askCGREG else .askCREG)
  | operator => requestOperator radio t
  | dataCallList t => requestOrSendDataCallList radio t
  | sendSMS smsc pdu =>
      requestSendSMS radio (.strings (some [smsc, some pdu])) t
  | writeSmsToSim status pdu smsc =>
      requestWriteSmsToSim radio (.smsWrite status (some pdu) smsc) t
  | signalStrength => requestSignalStrength radio t

/-- The registration and the operator are taken from a reply whatever its final
line is, so that an error has to come with a line that cannot be read.  A fourth
operator does not come behind three that can be read. -/
def Ready : Handler → List Reply → Prop
  | registrationState _, [.ok response] => response.success = true ∨
      ∃ line rest, response.pIntermediates = line :: rest ∧
        ¬ RegistrationLine line
  | operator, [.ok response] =>
      (∃ line ∈ response.pIntermediates.take 4, ¬ OperatorLine line) ∨
        response.pIntermediates.length < 3 ∨
        response.pIntermediates.length = 3 ∧ response.success = true
  | _, _ => True

variable {radio : Radio} {t : RILToken}

end Handler

namespace ReferenceRilHandlersWitness

open ReferenceRilAnswersWitness

/-- Four lines, as from a modem that repeats one of its answers. -/
def fourOperators : Reply := .ok ⟨true, .ofString "OK",
  List.replicate 4 (.ofString "+COPS: 0")⟩

example : ((Handler.operator.body ready 7).eval (modem fourOperators) ()).1 =
    none := by decide

/-- An error behind a line that can be read. -/
def failedLate : Reply := .ok ⟨false, .ofString "ERROR",
  [.ofString "+CREG: 1"]⟩

example : answers (((Handler.registrationState false).body ready 7).trace
    (modem failedLate) ()) = [false] := by decide

end ReferenceRilHandlersWitness

end ReferenceRil

end MetaOS
