/-
hardware/ril/libril/ril.cpp: requests from the command socket, from the buffer
to the vendor's `onRequest`.

`Parcel` and `strndup16to8` are libraries of the platform; what is used of
them is a parameter.  A read that fails leaves the variable it reads into as
it was.  Sizes are those of a machine with 32-bit addresses, and a stack that
is too small for an array ends the process, as does a write behind an array.
-/
import MetaOS.ByteString
import MetaOS.EventRuns
import MetaOS.ProgramLogic

namespace MetaOS

namespace RilDispatch

open EventRuns

/-- The reads of a body.  A count of integers and a string that must be there
are told apart from other integers and strings. -/
inductive Read where
  | int32
  | countInts
  | byte
  | string
  | requiredString
  | inplace (len : Nat)
deriving DecidableEq

/-- What a read gives; nothing is an error or a null pointer. -/
def Read.Answer : Read → Type
  | .int32 | .countInts => Option Int
  | .byte => Option UInt8
  | .string | .requiredString | .inplace _ => Option Bytes

/-- What is used of `Parcel` and of `strndup16to8`. -/
structure Library (P : Type) where
  setData : Bytes → P
  readInt32 : P → Option Int × P
  readByte : P → Option UInt8 × P
  readInplace : P → Nat → Option Bytes × P
  readString16Inplace : P → Option (List UInt16) × P
  strndup16to8 : Option (List UInt16) → Option Bytes

/-- The strings are those of `strdupReadString`. -/
def Library.answer {P : Type} (lib : Library P) :
    (c : Read) → P → c.Answer × P
  | .int32, p | .countInts, p => lib.readInt32 p
  | .byte, p => lib.readByte p
  | .string, p | .requiredString, p =>
      let (s16, p) := lib.readString16Inplace p
      (lib.strndup16to8 s16, p)
  | .inplace len, p => lib.readInplace p len

/-- A program that reads a body. -/
abbrev Reader := Prog Read Read.Answer

def askInt32 : Reader (Option Int) := Prog.perform Read.int32

def askCountInts : Reader (Option Int) := Prog.perform Read.countInts

def askByte : Reader (Option UInt8) := Prog.perform Read.byte

def askRequiredString : Reader (Option Bytes) :=
  Prog.perform Read.requiredString

def readInplace (len : Nat) : Reader (Option Bytes) :=
  Prog.perform (Read.inplace len)

def strdupReadString : Reader (Option Bytes) := Prog.perform Read.string

/-- `status = p.readInt32(&t)` -/
def readInt32 (t : Int) : Reader (Bool × Int) := do
  match ← askInt32 with
  | none => pure (false, t)
  | some value => pure (true, value)

/-- `status = p.read(&ut, sizeof(ut))` -/
def read (ut : UInt8) : Reader (Bool × UInt8) := do
  match ← askByte with
  | none => pure (false, ut)
  | some value => pure (true, value)

/-- A value of type `size_t` from a signed one. -/
def sizeT (n : Int) : Nat := (n % 2 ^ 32).toNat

def RIL_CDMA_SMS_ADDRESS_MAX : Nat := 36
def RIL_CDMA_SMS_SUBADDRESS_MAX : Nat := 36
def RIL_CDMA_SMS_BEARER_DATA_MAX : Nat := 255

structure RILCdmaSmsMessage where
  uTeleserviceID : Int
  bIsServicePresent : UInt8
  uServicecategory : Int
  digitMode : Int
  numberMode : Int
  numberType : Int
  numberPlan : Int
  address : UInt8 × Bytes
  subaddressType : Int
  odd : UInt8
  subaddress : UInt8 × Bytes
  uBearerDataLen : Int
  aBearerData : Bytes
deriving DecidableEq

/-- What the vendor is given to a request. -/
inductive Payload where
  | void
  | string (text : Option Bytes)
  | strings (texts : Option (List (Option Bytes)))
  | ints (values : List Int)
  | smsWrite (status : Int) (pdu smsc : Option Bytes)
  | dial (address : Option Bytes) (clir : Int)
      (uusInfo : Option (Int × Int × Option Bytes × Int))
  | simAccess (command fileid : Int) (path : Option Bytes) (p1 p2 p3 : Int)
      (data pin2 : Option Bytes)
  | callForward (status reason serviceClass toa : Int)
      (number : Option Bytes) (timeSeconds : Int)
  | raw (data : Option Bytes)
  | cdmaSms (message : RILCdmaSmsMessage)
  | cdmaSmsAck (uErrorClass uSMSCauseCode : Int)
  | gsmBroadcast (infos : List (Int × Int × Int × Int × UInt8))
  | cdmaBroadcast (infos : List (Int × Int × UInt8))
  | cdmaSmsWrite (status : Int) (message : RILCdmaSmsMessage)
deriving DecidableEq

/-- How a dispatch function ends. -/
inductive Outcome where
  | onRequest (data : Payload) (datalen : Nat)
  | invalidCommandBlock
  | crashed
deriving DecidableEq

/-- What the local variables hold before they are set, and how much stack there
is. -/
structure Machine where
  t : Int
  ut : UInt8
  stack : Nat

/-- `n` times `status = p.read(&ut, sizeof(ut)); digits[i] = ut;` -/
def readBytes : (n : Nat) → (status : Bool) → (ut : UInt8) →
    Reader (Bool × UInt8 × Bytes)
  | 0, status, ut => pure (status, ut, [])
  | n + 1, _, ut => do
      let (status, ut) ← read ut
      let (status, last, digits) ← readBytes n status ut
      pure (status, last, ut :: digits)

/-- The loop of `dispatchStrings`, for whose array there is `room`. -/
def readStrings : (n room : Nat) →
    Reader (Except Outcome (List (Option Bytes)))
  | 0, _ => pure (.ok [])
  | n + 1, room => do
      let text ← strdupReadString
      match room with
      | 0 => pure (.error .crashed)
      | room + 1 =>
          let texts ← readStrings n room
          pure (texts.map (text :: ·))

section Functions

variable (m : Machine)

/-- Arrays on the stack. -/
def alloca (size : Nat) (rest : Reader Outcome) : Reader Outcome :=
  if size ≤ m.stack then rest else pure .crashed

def dispatchVoid : Reader Outcome := pure (.onRequest .void 0)

def dispatchString : Reader Outcome := do
  let string8 ← strdupReadString
  pure (.onRequest (.string string8) 4)

def dispatchStrings : Reader Outcome := do
  let (status, countStrings) ← readInt32 m.t
  if !status then pure .invalidCommandBlock
  else if countStrings = 0 then pure (.onRequest (.strings (some [])) 0)
  else if countStrings = -1 then pure (.onRequest (.strings none) 0)
  else
    let datalen := sizeT (4 * countStrings)
    alloca m datalen do
      match ← readStrings countStrings.toNat (datalen / 4) with
      | .error outcome => pure outcome
      | .ok pStrings => pure (.onRequest (.strings (some pStrings)) datalen)

/-- The loop of `dispatchInts`, which leaves at the first error. -/
def readInts : (n room : Nat) → (t : Int) → Reader (Except Outcome (List Int))
  | 0, _, _ => pure (.ok [])
  | n + 1, room, t => do
      let (status, t) ← readInt32 t
      match room with
      | 0 => pure (.error .crashed)
      | room + 1 =>
          if !status then pure (.error .invalidCommandBlock)
          else
            let ints ← readInts n room t
            pure (ints.map (t :: ·))

def dispatchInts : Reader Outcome := do
  match ← askCountInts with
  | none => pure .invalidCommandBlock
  | some count =>
      if count = 0 then pure .invalidCommandBlock
      else
        let datalen := sizeT (4 * count)
        alloca m datalen do
          match ← readInts count.toNat (datalen / 4) m.t with
          | .error outcome => pure outcome
          | .ok pInts => pure (.onRequest (.ints pInts) datalen)

def dispatchSmsWrite : Reader Outcome := do
  let (status, t) ← readInt32 m.t
  match ← askRequiredString with
  | none => pure .invalidCommandBlock
  | some pdu =>
      if !status then pure .invalidCommandBlock
      else
        let smsc ← strdupReadString
        pure (.onRequest (.smsWrite t (some pdu) smsc) 12)

/-- The user-to-user information of a call. -/
def readUus (t : Int) :
    Reader (Option (Int × Int × Option Bytes × Int)) := do
  let (_, uusType) ← readInt32 t
  let (_, uusDcs) ← readInt32 uusType
  let (status, len) ← readInt32 m.t
  if !status then pure none
  else if len = -1 then
    -- The java code writes -1 for null arrays
    pure (some (uusType, uusDcs, none, 0))
  else
    let uusData ← readInplace (sizeT len)
    pure (some (uusType, uusDcs, uusData, len))

/-- `version` is that of the vendor's functions. -/
def dispatchDial (version : Int) : Reader Outcome := do
  let address ← askRequiredString
  let (status, t) ← readInt32 m.t
  if !status ∨ address = none then pure .invalidCommandBlock
  else if version < 3 then pure (.onRequest (.dial address t none) 8)
  else
    let (status, uusPresent) ← readInt32 m.t
    if !status then pure .invalidCommandBlock
    else if uusPresent = 0 then pure (.onRequest (.dial address t none) 12)
    else
      match ← readUus m t with
      | none => pure .invalidCommandBlock
      | some uusInfo => pure (.onRequest (.dial address t (some uusInfo)) 12)

def dispatchSimIO : Reader Outcome := do
  let (_, command) ← readInt32 m.t
  let (_, fileid) ← readInt32 command
  let path ← strdupReadString
  let (_, p1) ← readInt32 fileid
  let (_, p2) ← readInt32 p1
  let (status, p3) ← readInt32 p2
  let data ← strdupReadString
  let pin2 ← strdupReadString
  if !status then pure .invalidCommandBlock
  else pure (.onRequest (.simAccess command fileid path p1 p2 p3 data pin2) 32)

def dispatchCallForward : Reader Outcome := do
  let (_, cfStatus) ← readInt32 m.t
  let (_, reason) ← readInt32 cfStatus
  let (_, serviceClass) ← readInt32 reason
  let (_, toa) ← readInt32 serviceClass
  let number ← strdupReadString
  let (status, timeSeconds) ← readInt32 toa
  if !status then pure .invalidCommandBlock
  else
    -- special case: number 0-length fields is null
    let number := if number = some [] then none else number
    pure (.onRequest
      (.callForward cfStatus reason serviceClass toa number timeSeconds) 24)

def dispatchRaw : Reader Outcome := do
  let (status, len) ← readInt32 m.t
  if !status then pure .invalidCommandBlock
  else
    let len := if len = -1 then 0 else len
    let data ← readInplace (sizeT len)
    pure (.onRequest (.raw data) (sizeT len))

/-- The reads of `dispatchCdmaSms` and `dispatchRilCdmaSmsWriteArgs`, which
differ in how many digits and bytes they read. -/
def readCdmaSms (t : Int) (digits subdigits : UInt8 → Nat)
    (bearer : Int → Nat) : Reader (Bool × RILCdmaSmsMessage) := do
  let (_, uTeleserviceID) ← readInt32 t
  let (_, bIsServicePresent) ← read m.ut
  let (_, uServicecategory) ← readInt32 uTeleserviceID
  let (_, digitMode) ← readInt32 uServicecategory
  let (_, numberMode) ← readInt32 digitMode
  let (_, numberType) ← readInt32 numberMode
  let (_, numberPlan) ← readInt32 numberType
  let (status, number) ← read bIsServicePresent
  let (_, ut, address) ← readBytes (digits number) status number
  let (_, subaddressType) ← readInt32 numberPlan
  let (_, odd) ← read ut
  let (status, subnumber) ← read odd
  let (_, ut, subaddress) ← readBytes (subdigits subnumber) status subnumber
  let (status, uBearerDataLen) ← readInt32 subaddressType
  let (status, _, aBearerData) ← readBytes (bearer uBearerDataLen) status ut
  pure (status, ⟨uTeleserviceID, bIsServicePresent, uServicecategory,
    digitMode, numberMode, numberType, numberPlan, (number, address),
    subaddressType, odd, (subnumber, subaddress), uBearerDataLen,
    aBearerData⟩)

def dispatchCdmaSms : Reader Outcome := do
  let (status, rcsm) ← readCdmaSms m m.t
    (fun number => min number.toNat RIL_CDMA_SMS_ADDRESS_MAX)
    (fun number => min number.toNat RIL_CDMA_SMS_SUBADDRESS_MAX)
    (fun len => (min len RIL_CDMA_SMS_BEARER_DATA_MAX).toNat)
  if !status then pure .invalidCommandBlock
  else pure (.onRequest (.cdmaSms rcsm) 372)

def dispatchCdmaSmsAck : Reader Outcome := do
  let (_, uErrorClass) ← readInt32 m.t
  let (status, uSMSCauseCode) ← readInt32 uErrorClass
  if !status then pure .invalidCommandBlock
  else pure (.onRequest (.cdmaSmsAck uErrorClass uSMSCauseCode) 8)

def readGsmInfos : (n room : Nat) → (status : Bool) → (t : Int) →
    Reader (Except Outcome (Bool × List (Int × Int × Int × Int × UInt8)))
  | 0, _, status, _ => pure (.ok (status, []))
  | _ + 1, 0, _, _ => pure (.error .crashed)
  | n + 1, room + 1, _, t => do
      let (_, fromServiceId) ← readInt32 t
      let (_, toServiceId) ← readInt32 fromServiceId
      let (_, fromCodeScheme) ← readInt32 toServiceId
      let (_, toCodeScheme) ← readInt32 fromCodeScheme
      let (status, selected) ← readInt32 toCodeScheme
      let rest ← readGsmInfos n room status selected
      pure (rest.map fun (status, infos) =>
        (status, (fromServiceId, toServiceId, fromCodeScheme, toCodeScheme,
          UInt8.ofNat (sizeT selected)) :: infos))

def dispatchGsmBrSmsCnf : Reader Outcome := do
  let (status, num) ← readInt32 m.t
  if !status then pure .invalidCommandBlock
  else
    let gsmBci := sizeT (num * 20)
    let gsmBciPtrs := sizeT (num * 4)
    alloca m (gsmBci + gsmBciPtrs) do
      match ← readGsmInfos num.toNat (min (gsmBci / 20) (gsmBciPtrs / 4))
          status m.t with
      | .error outcome => pure outcome
      | .ok (status, infos) =>
          if !status then pure .invalidCommandBlock
          else pure (.onRequest (.gsmBroadcast infos) gsmBciPtrs)

def readCdmaInfos : (n room : Nat) → (status : Bool) → (t : Int) →
    Reader (Except Outcome (Bool × List (Int × Int × UInt8)))
  | 0, _, status, _ => pure (.ok (status, []))
  | _ + 1, 0, _, _ => pure (.error .crashed)
  | n + 1, room + 1, _, t => do
      let (_, service_category) ← readInt32 t
      let (_, language) ← readInt32 service_category
      let (status, selected) ← readInt32 language
      let rest ← readCdmaInfos n room status selected
      pure (rest.map fun (status, infos) =>
        (status, (service_category, language,
          UInt8.ofNat (sizeT selected)) :: infos))

def dispatchCdmaBrSmsCnf : Reader Outcome := do
  let (status, num) ← readInt32 m.t
  if !status then pure .invalidCommandBlock
  else
    let cdmaBci := sizeT (num * 12)
    let cdmaBciPtrs := sizeT (num * 4)
    alloca m (cdmaBci + cdmaBciPtrs) do
      match ← readCdmaInfos num.toNat (min (cdmaBci / 12) (cdmaBciPtrs / 4))
          status m.t with
      | .error outcome => pure outcome
      | .ok (status, infos) =>
          if !status then pure .invalidCommandBlock
          else pure (.onRequest (.cdmaBroadcast infos) cdmaBciPtrs)

def dispatchRilCdmaSmsWriteArgs : Reader Outcome := do
  let (_, argStatus) ← readInt32 m.t
  let (status, message) ← readCdmaSms m argStatus
    (fun _ => RIL_CDMA_SMS_ADDRESS_MAX) (fun _ => RIL_CDMA_SMS_SUBADDRESS_MAX)
    (fun _ => RIL_CDMA_SMS_BEARER_DATA_MAX)
  if !status then pure .invalidCommandBlock
  else pure (.onRequest (.cdmaSmsWrite argStatus message) 376)

end Functions

/-- The dispatch functions. -/
inductive Dispatch where
  | void
  | string
  | strings
  | ints
  | dial
  | simAccess
  | callForward
  | raw
  | smsWrite
  | cdmaSms
  | cdmaSmsAck
  | gsmBrSmsCnf
  | cdmaBrSmsCnf
  | rilCdmaSmsWriteArgs
deriving DecidableEq

def Dispatch.function (m : Machine) (version : Int) :
    Dispatch → Reader Outcome
  | .void => dispatchVoid
  | .string => dispatchString
  | .strings => dispatchStrings m
  | .ints => dispatchInts m
  | .dial => dispatchDial m version
  | .simAccess => dispatchSimIO m
  | .callForward => dispatchCallForward m
  | .raw => dispatchRaw m
  | .smsWrite => dispatchSmsWrite m
  | .cdmaSms => dispatchCdmaSms m
  | .cdmaSmsAck => dispatchCdmaSmsAck m
  | .gsmBrSmsCnf => dispatchGsmBrSmsCnf m
  | .cdmaBrSmsCnf => dispatchCdmaBrSmsCnf m
  | .rilCdmaSmsWriteArgs => dispatchRilCdmaSmsWriteArgs m

/-- The dispatch functions of `ril_commands.h`, from request 1 on. -/
def sCommands : List Dispatch :=
  [.void, .strings, .strings, .strings, .strings, .strings, .strings, .strings,
    .void, .dial, .void, .ints, .void, .void, .void, .void, .void, .void,
    .void, .void, .void, .void, .ints, .string, .strings, .strings, .strings,
    .simAccess, .string, .void, .void, .ints, .callForward, .callForward, .ints,
    .ints, .ints, .void, .void, .void, .strings, .strings, .strings, .strings,
    .void, .void, .string, .void, .string, .void, .void, .ints, .ints, .void,
    .void, .void, .void, .void, .raw, .strings, .ints, .ints, .smsWrite, .ints,
    .ints, .void, .void, .string, .string, .string, .ints, .void, .ints, .void,
    .void, .ints, .ints, .ints, .void, .ints, .void, .ints, .void, .string,
    .strings, .string, .cdmaSms, .cdmaSmsAck, .void, .gsmBrSmsCnf, .ints,
    .void, .cdmaBrSmsCnf, .ints, .void, .rilCdmaSmsWriteArgs, .ints, .void,
    .void, .void, .string, .ints, .void]

/-- The request number and the token of a buffer, and where the body begins.
The status of the first read is not looked at. -/
def readHeader {P : Type} (lib : Library P) (m : Machine) (buffer : Bytes) :
    Option (Int × Int × P) :=
  let (request, p) := lib.readInt32 (lib.setData buffer)
  match lib.readInt32 p with
  | (none, _) => none
  | (some token, p) => some (request.getD m.t, token, p)

/-- The dispatch function of a supported request. -/
def command? (request : Int) : Option Dispatch :=
  if request < 1 then none else sCommands[(request - 1).toNat]?

structure RequestInfo where
  serial : Nat
  token : Int
  request : Int
  isLocal : Bool
deriving DecidableEq

/-- The pending requests, the requests given to the vendor and those it has
completed, and how many nodes have been allocated. -/
structure State where
  sPendingRequests : List RequestInfo
  handed : List Nat
  completed : List Nat
  allocated : Nat
  crashed : Bool

def State.start : State := ⟨[], [], [], 0, false⟩

/-- A new node at the head of the list. -/
def State.link (s : State) (token request : Int) (isLocal : Bool) : State :=
  { s with
    sPendingRequests :=
      ⟨s.allocated, token, request, isLocal⟩ :: s.sPendingRequests
    allocated := s.allocated + 1 }

/-- The vendor is given the node with the number. -/
def State.hand (s : State) (serial : Nat) : State :=
  { s with handed := serial :: s.handed }

section Steps

variable {P : Type} (lib : Library P) (m : Machine) (version : Int)

def processCommandBuffer (s : State) (buffer : Bytes) : State :=
  match readHeader lib m buffer with
  | none => s
  | some (request, token, p) =>
      match command? request with
      | none => s
      | some dispatch =>
          let linked := s.link token request false
          match ((dispatch.function m version).eval lib.answer p).1 with
          | .onRequest _ _ => linked.hand s.allocated
          | .invalidCommandBlock => linked
          | .crashed => { linked with crashed := true }

def issueLocalRequest (s : State) (request : Int) : State :=
  (s.link (-1) request true).hand s.allocated

/-- `checkAndDequeueRequestInfo` on the token of a completion. -/
def onRequestComplete (s : State) (serial : Nat) : State :=
  match s.sPendingRequests.find? (·.serial = serial) with
  | none => s
  | some pRI =>
      { s with
        sPendingRequests := s.sPendingRequests.erase pRI
        completed := serial :: s.completed }

inductive Event where
  | buffer (data : Bytes)
  | localRequest (request : Int)
  | complete (serial : Nat)

/-- The vendor completes requests it was given. -/
def State.step (s : State) : Event → Option State
  | .buffer data =>
      if s.crashed then none
      else some (processCommandBuffer lib m version s data)
  | .localRequest request =>
      if s.crashed then none else some (issueLocalRequest s request)
  | .complete serial =>
      if s.crashed ∨ serial ∉ s.handed then none
      else some (onRequestComplete s serial)

end Steps

/-- A read that gives what its dispatch function asks for. -/
def Read.Fine : (c : Read) → c.Answer → Prop
  | .int32, (r : Option Int) => r.isSome
  | .countInts, (r : Option Int) => r.isSome ∧ r ≠ some 0
  | .byte, (r : Option UInt8) => r.isSome
  | .requiredString, (r : Option Bytes) => r.isSome
  | .string, _ | .inplace _, _ => True

/-- A reader that does not reject a body all of whose reads are fine. -/
def Accepts (reader : Reader Outcome) : Prop :=
  reader.Succeeds Read.Fine (· ≠ .invalidCommandBlock)

section Accepting

variable (m : Machine)

theorem readInt32_succeeds (t : Int) :
    (readInt32 t).Succeeds Read.Fine fun result => result.1 = true := by
  rintro (_ | value) hfine
  · cases hfine
  · rfl

theorem read_succeeds (ut : UInt8) :
    (read ut).Succeeds Read.Fine fun result => result.1 = true := by
  rintro (_ | value) hfine
  · cases hfine
  · rfl

theorem strdupReadString_succeeds :
    strdupReadString.Succeeds Read.Fine fun _ => True :=
  fun _ _ => trivial

theorem readInplace_succeeds (len : Nat) :
    (readInplace len).Succeeds Read.Fine fun _ => True :=
  fun _ _ => trivial

theorem askRequiredString_succeeds :
    askRequiredString.Succeeds Read.Fine fun text => text ≠ none := by
  rintro (_ | text) hfine
  · cases hfine
  · exact Option.some_ne_none text

theorem readBytes_succeeds (n : Nat) (ut : UInt8) :
    (readBytes n true ut).Succeeds Read.Fine fun result =>
      result.1 = true := by
  induction n generalizing ut with
  | zero => rfl
  | succ n ih =>
      refine (read_succeeds ut).bind ?_
      rintro ⟨_, ut⟩ rfl
      exact (ih ut).bind fun _ hstatus => hstatus

/-- A loop that does not find the body invalid. -/
def Filled {α : Type} (loop : Except Outcome α) : Prop :=
  loop ≠ .error .invalidCommandBlock

theorem Filled.map {α β : Type} {loop : Except Outcome α}
    (hfilled : Filled loop) (f : α → β) : Filled (loop.map f) := by
  cases loop with
  | error outcome =>
      intro hinvalid
      cases hinvalid
      exact hfilled rfl
  | ok value => exact fun hinvalid => by cases hinvalid

theorem filled_crashed {α : Type} :
    Filled (.error .crashed : Except Outcome α) :=
  fun hinvalid => by cases hinvalid

theorem readStrings_succeeds (n room : Nat) :
    (readStrings n room).Succeeds Read.Fine Filled := by
  induction n generalizing room with
  | zero => exact fun hinvalid => by cases hinvalid
  | succ n ih =>
      refine strdupReadString_succeeds.bind fun _ _ => ?_
      cases room with
      | zero => exact filled_crashed
      | succ room => exact (ih room).bind fun _ hfilled => hfilled.map _

theorem readInts_succeeds (n room : Nat) (t : Int) :
    (readInts n room t).Succeeds Read.Fine Filled := by
  induction n generalizing room t with
  | zero => exact fun hinvalid => by cases hinvalid
  | succ n ih =>
      refine (readInt32_succeeds t).bind ?_
      rintro ⟨_, t⟩ rfl
      cases room with
      | zero => exact filled_crashed
      | succ room => exact (ih room t).bind fun _ hfilled => hfilled.map _

theorem alloca_accepts {size : Nat} {rest : Reader Outcome}
    (hrest : Accepts rest) : Accepts (alloca m size rest) := by
  unfold alloca
  split
  next => exact hrest
  next => exact Outcome.noConfusion

/-- An error of a loop that is not the body's is a crash. -/
theorem Filled.accepts {α : Type} {outcome : Outcome}
    (hfilled : Filled (.error outcome : Except Outcome α)) :
    Accepts (pure outcome) :=
  fun hinvalid => hfilled (congrArg _ hinvalid)

theorem accepts_onRequest (data : Payload) (datalen : Nat) :
    Accepts (pure (.onRequest data datalen)) :=
  Outcome.noConfusion

theorem Accepts.checked {status : Bool} {rest : Reader Outcome}
    (hstatus : status = true) (hrest : Accepts rest) :
    Accepts (if !status then pure .invalidCommandBlock else rest) := by
  rw [hstatus, if_neg (by decide)]
  exact hrest

theorem Accepts.ite {p : Prop} [Decidable p] {first second : Reader Outcome}
    (hfirst : Accepts first) (hsecond : Accepts second) :
    Accepts (if p then first else second) := by
  split
  next => exact hfirst
  next => exact hsecond

theorem dispatchStrings_accepts : Accepts (dispatchStrings m) := by
  refine (readInt32_succeeds m.t).bind fun _ hstatus => ?_
  refine Accepts.checked hstatus (Accepts.ite (accepts_onRequest _ _) ?_)
  refine Accepts.ite (accepts_onRequest _ _) ?_
  apply alloca_accepts
  refine (readStrings_succeeds _ _).bind fun texts hfilled => ?_
  cases texts with
  | error outcome => exact hfilled.accepts
  | ok texts => exact accepts_onRequest _ _

theorem dispatchInts_accepts : Accepts (dispatchInts m) := by
  rintro (_ | count) hfine
  · cases hfine.1
  · have hcount : count ≠ 0 := fun hzero => hfine.2 (by rw [hzero])
    change Accepts (if count = 0 then _ else _)
    rw [if_neg hcount]
    apply alloca_accepts
    refine (readInts_succeeds _ _ _).bind fun ints hfilled => ?_
    cases ints with
    | error outcome => exact hfilled.accepts
    | ok ints => exact accepts_onRequest _ _

theorem dispatchSmsWrite_accepts : Accepts (dispatchSmsWrite m) := by
  refine (readInt32_succeeds m.t).bind fun _ hstatus => ?_
  refine askRequiredString_succeeds.bind fun pdu hpdu => ?_
  cases pdu with
  | none => exact absurd rfl hpdu
  | some pdu =>
      refine Accepts.checked hstatus ?_
      exact strdupReadString_succeeds.bind fun _ _ => accepts_onRequest _ _

theorem readUus_succeeds (t : Int) :
    (readUus m t).Succeeds Read.Fine fun uusInfo => uusInfo ≠ none := by
  refine (readInt32_succeeds t).bind fun _ _ => ?_
  refine (readInt32_succeeds _).bind fun _ _ => ?_
  refine (readInt32_succeeds m.t).bind ?_
  rintro ⟨_, len⟩ rfl
  dsimp only
  rw [if_neg (by decide)]
  split
  next => exact Option.some_ne_none _
  next =>
    exact (readInplace_succeeds _).bind fun _ _ => Option.some_ne_none _

theorem dispatchDial_accepts (version : Int) :
    Accepts (dispatchDial m version) := by
  refine askRequiredString_succeeds.bind fun address haddress => ?_
  refine (readInt32_succeeds m.t).bind ?_
  rintro ⟨_, t⟩ rfl
  dsimp only
  rw [if_neg (by simp [haddress])]
  refine Accepts.ite (accepts_onRequest _ _) ?_
  refine (readInt32_succeeds m.t).bind fun _ hstatus => ?_
  refine Accepts.checked hstatus ?_
  refine Accepts.ite (accepts_onRequest _ _) ?_
  refine (readUus_succeeds m t).bind fun uusInfo huus => ?_
  cases uusInfo with
  | none => exact absurd rfl huus
  | some uusInfo => exact accepts_onRequest _ _

theorem dispatchSimIO_accepts : Accepts ( dispatchSimIO m) := by
  refine (readInt32_succeeds _).bind fun _ _ => ?_
  refine (readInt32_succeeds _).bind fun _ _ => ?_
  refine strdupReadString_succeeds.bind fun _ _ => ?_
  refine (readInt32_succeeds _).bind fun _ _ => ?_
  refine (readInt32_succeeds _).bind fun _ _ => ?_
  refine (readInt32_succeeds _).bind fun _ hstatus => ?_
  refine strdupReadString_succeeds.bind fun _ _ => ?_
  refine strdupReadString_succeeds.bind fun _ _ => ?_
  exact Accepts.checked hstatus (accepts_onRequest _ _)

theorem dispatchCallForward_accepts : Accepts (dispatchCallForward m) := by
  refine (readInt32_succeeds _).bind fun _ _ => ?_
  refine (readInt32_succeeds _).bind fun _ _ => ?_
  refine (readInt32_succeeds _).bind fun _ _ => ?_
  refine (readInt32_succeeds _).bind fun _ _ => ?_
  refine strdupReadString_succeeds.bind fun _ _ => ?_
  refine (readInt32_succeeds _).bind fun _ hstatus => ?_
  exact Accepts.checked hstatus (accepts_onRequest _ _)

theorem dispatchRaw_accepts : Accepts (dispatchRaw m) := by
  refine (readInt32_succeeds _).bind fun _ hstatus => Accepts.checked hstatus ?_
  exact (readInplace_succeeds _).bind fun _ _ => accepts_onRequest _ _

/-- The status after a message is that of its last read. -/
theorem readCdmaSms_succeeds (t : Int) (digits subdigits : UInt8 → Nat)
    (bearer : Int → Nat) :
    (readCdmaSms m t digits subdigits bearer).Succeeds Read.Fine fun result =>
      result.1 = true := by
  refine (readInt32_succeeds _).bind fun _ _ => ?_
  refine (read_succeeds _).bind fun _ _ => ?_
  refine (readInt32_succeeds _).bind fun _ _ => ?_
  refine (readInt32_succeeds _).bind fun _ _ => ?_
  refine (readInt32_succeeds _).bind fun _ _ => ?_
  refine (readInt32_succeeds _).bind fun _ _ => ?_
  refine (readInt32_succeeds _).bind fun _ _ => ?_
  refine (read_succeeds _).bind ?_
  rintro ⟨_, number⟩ rfl
  refine (readBytes_succeeds _ _).bind fun _ _ => ?_
  refine (readInt32_succeeds _).bind fun _ _ => ?_
  refine (read_succeeds _).bind fun _ _ => ?_
  refine (read_succeeds _).bind ?_
  rintro ⟨_, subnumber⟩ rfl
  refine (readBytes_succeeds _ _).bind fun _ _ => ?_
  refine (readInt32_succeeds _).bind ?_
  rintro ⟨_, len⟩ rfl
  exact (readBytes_succeeds _ _).bind fun _ hstatus => hstatus

theorem dispatchCdmaSms_accepts : Accepts (dispatchCdmaSms m) :=
  (readCdmaSms_succeeds m m.t _ _ _).bind fun _ hstatus =>
    Accepts.checked hstatus (accepts_onRequest _ _)

theorem dispatchRilCdmaSmsWriteArgs_accepts :
    Accepts (dispatchRilCdmaSmsWriteArgs m) := by
  refine (readInt32_succeeds m.t).bind fun _ _ => ?_
  exact (readCdmaSms_succeeds m _ _ _ _).bind fun _ hstatus =>
    Accepts.checked hstatus (accepts_onRequest _ _)

theorem dispatchCdmaSmsAck_accepts : Accepts (dispatchCdmaSmsAck m) := by
  refine (readInt32_succeeds _).bind fun _ _ => ?_
  refine (readInt32_succeeds _).bind fun _ hstatus => ?_
  exact Accepts.checked hstatus (accepts_onRequest _ _)

/-- What a loop over entries leaves when no read has failed. -/
def Checked {α : Type} (loop : Except Outcome (Bool × α)) : Prop :=
  Filled loop ∧ ∀ result, loop = .ok result → result.1 = true

theorem checked_crashed {α : Type} :
    Checked (.error .crashed : Except Outcome (Bool × α)) :=
  ⟨filled_crashed, fun _ hok => by cases hok⟩

theorem checked_nil {α : Type} (infos : α) :
    Checked (.ok (true, infos) : Except Outcome (Bool × α)) := by
  constructor
  · intro hinvalid
    cases hinvalid
  · intro result hok
    cases hok
    rfl

theorem Checked.map {α : Type} {loop : Except Outcome (Bool × α)}
    (hchecked : Checked loop) (f : α → α) :
    Checked (loop.map fun (status, infos) => (status, f infos)) := by
  refine ⟨hchecked.1.map _, ?_⟩
  intro result hok
  cases loop with
  | error outcome => cases hok
  | ok infos =>
      cases hok
      exact hchecked.2 infos rfl

theorem readGsmInfos_succeeds (n room : Nat) (t : Int) :
    (readGsmInfos n room true t).Succeeds Read.Fine Checked := by
  induction n generalizing room t with
  | zero => exact checked_nil []
  | succ n ih =>
      cases room with
      | zero => exact checked_crashed
      | succ room =>
          refine (readInt32_succeeds _).bind fun _ _ => ?_
          refine (readInt32_succeeds _).bind fun _ _ => ?_
          refine (readInt32_succeeds _).bind fun _ _ => ?_
          refine (readInt32_succeeds _).bind fun _ _ => ?_
          refine (readInt32_succeeds _).bind ?_
          rintro ⟨_, selected⟩ rfl
          exact (ih room selected).bind fun _ hchecked => hchecked.map _

theorem readCdmaInfos_succeeds (n room : Nat) (t : Int) :
    (readCdmaInfos n room true t).Succeeds Read.Fine Checked := by
  induction n generalizing room t with
  | zero => exact checked_nil []
  | succ n ih =>
      cases room with
      | zero => exact checked_crashed
      | succ room =>
          refine (readInt32_succeeds _).bind fun _ _ => ?_
          refine (readInt32_succeeds _).bind fun _ _ => ?_
          refine (readInt32_succeeds _).bind ?_
          rintro ⟨_, selected⟩ rfl
          exact (ih room selected).bind fun _ hchecked => hchecked.map _

theorem dispatchGsmBrSmsCnf_accepts : Accepts (dispatchGsmBrSmsCnf m) := by
  refine (readInt32_succeeds m.t).bind ?_
  rintro ⟨_, num⟩ rfl
  refine Accepts.checked rfl (alloca_accepts m ?_)
  refine (readGsmInfos_succeeds _ _ _).bind fun infos hchecked => ?_
  cases infos with
  | error outcome => exact hchecked.1.accepts
  | ok infos =>
      exact Accepts.checked (hchecked.2 infos rfl) (accepts_onRequest _ _)

theorem dispatchCdmaBrSmsCnf_accepts : Accepts (dispatchCdmaBrSmsCnf m) := by
  refine (readInt32_succeeds m.t).bind ?_
  rintro ⟨_, num⟩ rfl
  refine Accepts.checked rfl (alloca_accepts m ?_)
  refine (readCdmaInfos_succeeds _ _ _).bind fun infos hchecked => ?_
  cases infos with
  | error outcome => exact hchecked.1.accepts
  | ok infos =>
      exact Accepts.checked (hchecked.2 infos rfl) (accepts_onRequest _ _)

theorem function_accepts (version : Int) (dispatch : Dispatch) :
    Accepts (dispatch.function m version) := by
  cases dispatch with
  | void => exact accepts_onRequest _ _
  | string =>
      exact strdupReadString_succeeds.bind fun _ _ => accepts_onRequest _ _
  | strings => exact dispatchStrings_accepts m
  | ints => exact dispatchInts_accepts m
  | dial => exact dispatchDial_accepts m version
  | simAccess => exact dispatchSimIO_accepts m
  | callForward => exact dispatchCallForward_accepts m
  | raw => exact dispatchRaw_accepts m
  | smsWrite => exact dispatchSmsWrite_accepts m
  | cdmaSms => exact dispatchCdmaSms_accepts m
  | cdmaSmsAck => exact dispatchCdmaSmsAck_accepts m
  | gsmBrSmsCnf => exact dispatchGsmBrSmsCnf_accepts m
  | cdmaBrSmsCnf => exact dispatchCdmaBrSmsCnf_accepts m
  | rilCdmaSmsWriteArgs => exact dispatchRilCdmaSmsWriteArgs_accepts m

end Accepting

section Runs

variable {P : Type} (lib : Library P) (m : Machine) (version : Int)

/-- Every read of the body of a supported request is fine. -/
def Sound (_ : State) : Event → Prop
  | .buffer data => ∀ request token p dispatch,
      readHeader lib m data = some (request, token, p) →
      command? request = some dispatch →
      (dispatch.function m version).Smooth Read.Fine lib.answer p
  | _ => True

/-- The list holds the requests that were handed to the vendor and are not
completed, each once. -/
structure State.Exact (s : State) : Prop where
  nodup : (s.sPendingRequests.map (·.serial)).Nodup
  mem_iff (n : Nat) : n ∈ s.sPendingRequests.map (·.serial) ↔
    n ∈ s.handed ∧ n ∉ s.completed
  once : s.handed.Nodup

/-- Numbers are given to nodes in order. -/
structure State.Counted (s : State) : Prop where
  handed_lt (n : Nat) (hhanded : n ∈ s.handed) : n < s.allocated
  completed_lt (n : Nat) (hcompleted : n ∈ s.completed) : n < s.allocated

variable {lib m version} {s s' : State}

theorem start_exact : State.start.Exact :=
  ⟨List.nodup_nil, by simp [State.start], List.nodup_nil⟩

theorem start_counted : State.start.Counted :=
  ⟨by simp [State.start], by simp [State.start]⟩

/-- A node that is linked and handed over at once. -/
theorem hand_exact (hexact : s.Exact) (hcounted : s.Counted)
    (token request : Int) (isLocal : Bool) :
    ((s.link token request isLocal).hand s.allocated).Exact := by
  have hfresh : s.allocated ∉ s.handed :=
    fun hmem => (hcounted.handed_lt _ hmem).false
  constructor
  · refine List.nodup_cons.mpr ⟨?_, hexact.nodup⟩
    exact fun hmem => hfresh ((hexact.mem_iff _).mp hmem).1
  · intro n
    have hmem := hexact.mem_iff n
    simp only [State.link, State.hand, List.map_cons, List.mem_cons]
    constructor
    · rintro (rfl | hold)
      · exact ⟨.inl rfl,
          fun hdone => (hcounted.completed_lt _ hdone).false⟩
      · exact ⟨.inr (hmem.mp hold).1, (hmem.mp hold).2⟩
    · rintro ⟨rfl | hold, hdone⟩
      · exact .inl rfl
      · exact .inr (hmem.mpr ⟨hold, hdone⟩)
  · exact List.nodup_cons.mpr ⟨hfresh, hexact.once⟩

theorem hand_counted (hcounted : s.Counted) (token request : Int)
    (isLocal : Bool) :
    ((s.link token request isLocal).hand s.allocated).Counted := by
  constructor
  · intro n hmem
    rcases List.mem_cons.mp hmem with rfl | hold
    · exact Nat.lt_succ_self _
    · exact (hcounted.handed_lt n hold).trans (Nat.lt_succ_self _)
  · intro n hmem
    exact (hcounted.completed_lt n hmem).trans (Nat.lt_succ_self _)

theorem onRequestComplete_exact {serial : Nat} (hexact : s.Exact) :
    (onRequestComplete s serial).Exact := by
  unfold onRequestComplete
  split
  next => exact hexact
  next pRI hfind =>
    have hmem := List.mem_of_find?_eq_some hfind
    have hserial : pRI.serial = serial := by
      simpa using List.find?_some hfind
    have hperm : (s.sPendingRequests.map (·.serial)).Perm
        (serial :: (s.sPendingRequests.erase pRI).map (·.serial)) := by
      rw [← hserial]
      exact (List.perm_cons_erase hmem).map _
    have hnodup := List.nodup_cons.mp (hperm.nodup_iff.mp hexact.nodup)
    refine ⟨hnodup.2, ?_, hexact.once⟩
    intro n
    have hiff := hexact.mem_iff n
    rw [hperm.mem_iff, List.mem_cons] at hiff
    simp only [List.mem_cons, not_or]
    constructor
    · intro hleft
      have hne : n ≠ serial := by
        rintro rfl
        exact hnodup.1 hleft
      exact ⟨(hiff.mp (.inr hleft)).1, hne, (hiff.mp (.inr hleft)).2⟩
    · rintro ⟨hhanded, hne, hdone⟩
      exact (hiff.mpr ⟨hhanded, hdone⟩).resolve_left hne

theorem onRequestComplete_counted {serial : Nat} (hcounted : s.Counted)
    (hhanded : serial ∈ s.handed) :
    (onRequestComplete s serial).Counted := by
  unfold onRequestComplete
  split
  next => exact hcounted
  next =>
    refine ⟨hcounted.handed_lt, ?_⟩
    intro n hmem
    rcases List.mem_cons.mp hmem with rfl | hold
    · exact hcounted.handed_lt n hhanded
    · exact hcounted.completed_lt n hold

/-- A buffer is turned away before a node is linked, or it is handed to the
vendor, or the process ends. -/
theorem processCommandBuffer_cases {data : Bytes}
    (hsound : Sound lib m version s (.buffer data)) :
    processCommandBuffer lib m version s data = s ∨
    (∃ token request, processCommandBuffer lib m version s data =
      (s.link token request false).hand s.allocated) ∨
    (processCommandBuffer lib m version s data).crashed = true := by
  unfold processCommandBuffer
  split
  next => exact .inl rfl
  next request token p hheader =>
    split
    next => exact .inl rfl
    next dispatch hcommand =>
      have haccepts := (function_accepts m version dispatch).eval
        (hsound request token p dispatch hheader hcommand)
      dsimp only
      split
      next => exact .inr (.inl ⟨token, request, rfl⟩)
      next hinvalid => exact absurd hinvalid haccepts
      next => exact .inr (.inr rfl)

/-- What holds of the list as long as the process runs. -/
def State.Kept (s : State) : Prop :=
  s.crashed = false → s.Exact ∧ s.Counted

theorem step_kept {event : Event} (hkept : s.Kept)
    (hsound : Sound lib m version s event)
    (hstep : s.step lib m version event = some s') : s'.Kept := by
  cases event with
  | buffer data =>
      unfold State.step at hstep
      dsimp only at hstep
      split at hstep
      next => cases hstep
      next hrunning =>
        rw [Bool.not_eq_true] at hrunning
        obtain ⟨hexact, hcounted⟩ := hkept hrunning
        rw [← Option.some_inj.mp hstep]
        obtain hsame | ⟨token, request, hhand⟩ | hcrashed :=
          processCommandBuffer_cases hsound
        · rw [hsame]
          exact hkept
        · rw [hhand]
          exact fun _ => ⟨hand_exact hexact hcounted token request false,
            hand_counted hcounted token request false⟩
        · intro hnot
          rw [hcrashed] at hnot
          cases hnot
  | localRequest request =>
      unfold State.step at hstep
      dsimp only at hstep
      split at hstep
      next => cases hstep
      next hrunning =>
        rw [Bool.not_eq_true] at hrunning
        obtain ⟨hexact, hcounted⟩ := hkept hrunning
        rw [← Option.some_inj.mp hstep]
        exact fun _ => ⟨hand_exact hexact hcounted (-1) request true,
          hand_counted hcounted (-1) request true⟩
  | complete serial =>
      unfold State.step at hstep
      dsimp only at hstep
      split at hstep
      next => cases hstep
      next hready =>
        rw [not_or, Bool.not_eq_true, not_not] at hready
        obtain ⟨hexact, hcounted⟩ := hkept hready.1
        rw [← Option.some_inj.mp hstep]
        exact fun _ => ⟨onRequestComplete_exact hexact,
          onRequestComplete_counted hcounted hready.2⟩

/-- In every run in which every read of the body of a supported request is
fine, the list holds exactly the requests that were handed to the vendor and
are not completed, and a buffer that is not handed over leaves it as it was. -/
theorem reach_pending_exact
    (hreach : Reach (State.step lib m version) (Sound lib m version) .start s)
    (hrunning : s.crashed = false) :
    s.Exact ∧ ∀ data s', Sound lib m version s (.buffer data) →
      s.step lib m version (.buffer data) = some s' → s'.crashed = false →
      s'.handed = s.handed → s'.sPendingRequests = s.sPendingRequests := by
  have hkept : s.Kept :=
    hreach.invariant State.Kept (fun _ _ _ => step_kept)
      fun _ => ⟨start_exact, start_counted⟩
  refine ⟨(hkept hrunning).1, ?_⟩
  intro data s' hsound hstep hnot hsame
  have hs' : processCommandBuffer lib m version s data = s' := by
    simpa [State.step, hrunning] using hstep
  obtain hleft | ⟨token, request, hhand⟩ | hcrashed :=
    processCommandBuffer_cases hsound
  · rw [← hs', hleft]
  · rw [← hs', hhand] at hsame
    exact absurd (congrArg List.length hsame) (by simp [State.link, State.hand])
  · rw [hs', hnot] at hcrashed
    cases hcrashed

end Runs

namespace RilDispatchWitness

/-- The four bytes of an integer, of those that are left. -/
def plainInt32 (p : Bytes) : Option Int × Bytes :=
  if 4 ≤ p.length then
    let n := Bytes.leNat (p.take 4)
    (some (if n < 2 ^ 31 then n else n - 2 ^ 32), p.drop 4)
  else (none, p)

/-- Bytes, padded to a multiple of four. -/
def plainInplace (p : Bytes) (len : Nat) : Option Bytes × Bytes :=
  if (len + 3) / 4 * 4 ≤ p.length then
    (some (p.take len), p.drop ((len + 3) / 4 * 4))
  else (none, p)

def plainString16 (p : Bytes) : Option (List UInt16) × Bytes :=
  match plainInt32 p with
  | (some size, p) =>
      if 0 ≤ size then
        let (bytes, p) := plainInplace p ((size.toNat + 1) * 2)
        (bytes.map fun bytes => (List.range size.toNat).map fun i =>
          UInt16.ofNat (Bytes.leAt bytes (2 * i) 2), p)
      else (none, p)
  | (none, p) => (none, p)

def plain : Library Bytes where
  setData data := data
  readInt32 := plainInt32
  readByte p :=
    let (bytes, p) := plainInplace p 1
    (bytes.bind (·.head?), p)
  readInplace := plainInplace
  readString16Inplace := plainString16
  strndup16to8 := Option.map fun s16 => s16.map (·.toUInt8)

def machine : Machine := ⟨0, 0, 65536⟩

/-- Request 12 hangs up a call: token 5, one integer. -/
def hangup : Bytes := [12, 0, 0, 0, 5, 0, 0, 0, 1, 0, 0, 0, 1, 0, 0, 0]

/-- The same request with a list of no integers. -/
def hangupNone : Bytes := [12, 0, 0, 0, 5, 0, 0, 0, 0, 0, 0, 0]

theorem hangup_sound :
    Sound plain machine 3 State.start (.buffer hangup) := by
  intro request token p dispatch hheader hcommand
  obtain ⟨rfl, rfl, rfl⟩ : (12 : Int) = request ∧ (5 : Int) = token ∧
      ([1, 0, 0, 0, 1, 0, 0, 0] : Bytes) = p := by
    simpa [readHeader, plain, plainInt32, hangup, Bytes.leNat] using hheader
  obtain rfl : Dispatch.ints = dispatch := by
    simpa [command?, sCommands] using hcommand
  exact ⟨⟨rfl, by simp [Library.answer, plain, plainInt32, Bytes.leNat]⟩,
    rfl, trivial⟩

theorem hangup_pending_exact :
    (processCommandBuffer plain machine 3 State.start hangup).Exact :=
  (reach_pending_exact
    (Reach.refl.tail (.buffer hangup) hangup_sound rfl) rfl).1

theorem rejected_stays_pending :
    ¬ ∀ s : State, Runs (State.step plain machine 3) .start s →
      s.crashed = false → s.Exact := by
  intro hclaim
  have hexact := hclaim _ (Reach.refl.tail (.buffer hangupNone) trivial rfl)
    rfl
  have hmem := (hexact.mem_iff 0).mp (by decide)
  exact absurd hmem.1 (by decide)

end RilDispatchWitness

end RilDispatch

end MetaOS
