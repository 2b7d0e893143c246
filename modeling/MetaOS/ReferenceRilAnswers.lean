/-
hardware/ril/reference-ril/reference-ril.c: when a request is answered exactly
once.

Most requests are, whatever the modem does.  Some are answered twice or not at
all, for the data and the replies that are named here.
-/
import MetaOS.CallCounting
import MetaOS.ReferenceRil

namespace MetaOS

namespace ReferenceRil

open RilDispatch Prog

def Call.completes (t : RILToken) : Call → Bool
  | complete t' _ _ => t' = t
  | _ => false

/-- How often the library is told that the request is complete. -/
def completions {W : Type} (t : RILToken)
    (env : (c : Call) → W → c.Answer × W) (body : Body (Option Radio))
    (w : W) : Nat :=
  body.count (Call.completes t) env w

/-- The replies that a request is ready for. -/
def Call.Fine : (c : Call) → c.Answer → Prop
  | send .CSQ, (reply : Reply) => ∃ response, reply = .ok response ∧
      response.success = true ∧ response.pIntermediates ≠ []
  | send .askCREG, (reply : Reply) | send .askCGREG, (reply : Reply) =>
      ∀ response, reply = .ok response →
        response.success = true ∨ response.pIntermediates ≠ []
  | send .askCPIN, (reply : Reply) => ∀ response, reply = .ok response →
      response.success = true ∨ response.pIntermediates ≠ [] ∨
        atGetCmeError response ≠ CME_SUCCESS
  | send .operatorNames, (reply : Reply) =>
      ∀ response, reply = .ok response →
        response.pIntermediates.length ≤ 3 ∨
          ∃ line ∈ response.pIntermediates.take 4, operatorFromLine line = none
  | _, _ => True

/-- The data that a request is ready for. -/
def Request.DataFine (data : Payload) (datalen : Nat) : Request → Prop
  | DIAL => ∃ address clir uusInfo, data = .dial address clir uusInfo
  | HANGUP | SEPARATE_CONNECTION | DELETE_SMS_ON_SIM =>
      ∃ value, firstInt data = some value
  | RADIO_POWER => 4 ≤ datalen ∧ ∃ value, firstInt data = some value
  | SMS_ACKNOWLEDGE => ∃ value, firstInt data = some value ∧ value ≠ 1 ∧
      value ≠ 0
  | DTMF => ∃ c, firstChar data = some c
  | SEND_SMS => ∃ smsc pdu, stringAt 0 data = some smsc ∧
      stringAt 1 data = some (some pdu)
  | SETUP_DATA_CALL => ∃ apn, stringAt 2 data = some apn
  | SIM_ACCESS => ∃ command fileid path p1 p2 p3 args pin2,
      data = .simAccess command fileid path p1 p2 p3 args pin2
  | SET_NETWORK_SELECTION_AUTOMATIC => False
  | OEM_HOOK_STRINGS => ∀ i < datalen / 4, ∃ text, stringAt i data = some text
  | WRITE_SMS_TO_SIM => ∃ status pdu smsc,
      data = .smsWrite status (some pdu) smsc
  | ENTER_SIM_PIN | ENTER_SIM_PUK | ENTER_SIM_PIN2 | ENTER_SIM_PUK2
  | CHANGE_SIM_PIN | CHANGE_SIM_PIN2 =>
      (datalen = 4 → ∃ first, stringAt 0 data = some first) ∧
        (datalen = 8 → ∃ first second, stringAt 0 data = some first ∧
          stringAt 1 data = some second)
  | _ => True

section Parts

variable {t : RILToken} {α : Type} {radio : Radio} {n : Nat}

/-- Exactly one completion, if and only if all replies are fine. -/
abbrev Once (t : RILToken) (body : Body α) : Prop :=
  body.Meets (Call.completes t) Call.Fine 1

/-- Some other number of completions. -/
def NotOnce (t : RILToken) (body : Body α) : Prop :=
  ∃ n ≠ 1, body.Makes (Call.completes t) n

abbrev Calm (t : RILToken) (body : Body α) : Prop :=
  body.Quiet (Call.completes t) Call.Fine

abbrev Guarded (t : RILToken) (body : Body (Option α)) : Prop :=
  body.Guards (Call.completes t) Call.Fine

theorem notOnce_undefined :
    NotOnce t (pure none : Body (Option α)) :=
  ⟨0, Nat.zero_ne_one, rfl⟩

/-- A completion, and nothing behind it. -/
theorem once_complete {next : Unit → Body α} (e : RILErrno)
    (response : Response) (hnext : ∀ value, Calm t (next value)) :
    Once t (rilOnRequestComplete t e response >>= next) := by
  refine ⟨0, by simp [Call.completes], fun value => ⟨fun _ => ?_, ?_⟩⟩
  · exact (hnext value).meets_zero
  · exact fun hbad => absurd trivial hbad

theorem once_answer (e : RILErrno) (response : Response) :
    Once t (answer radio t e response) :=
  once_complete e response fun _ => trivial

theorem once_fail : Once t (fail radio t) := once_answer _ _

theorem once_succeed (response : Response) :
    Once t (succeed radio t response) :=
  once_answer _ _

theorem once_answerWith (response : Option Response) :
    Once t (answerWith radio t response) := by
  cases response with
  | none => exact once_fail
  | some response => exact once_succeed response

theorem calm_look : Calm t (look radio) :=
  (quiet_perform rfl fun _ => trivial).bind fun _ => trivial

theorem calm_send (command : Command)
    (hfine : ∀ reply, (Call.send command).Fine reply) :
    Calm t (atSendCommand command) :=
  (quiet_perform rfl hfine).bind fun _ => trivial

theorem yields_send (command : Command) :
    (atSendCommand command).Yields fun reply =>
      ∃ raw, reply = command.sending.checked raw :=
  fun raw => ⟨raw, rfl⟩

/-- The commands that ask for a line. -/
def Sending.AsksLine : Sending → Prop
  | numeric | singleline _ | sms _ _ => True
  | plain | multiline _ => False

theorem line_of_successful {sending : Sending} {raw : Reply}
    {response : ATResponse} (hasks : sending.AsksLine)
    (hsuccess : successful (sending.checked raw) = some response) :
    response.pIntermediates ≠ [] := by
  intro hnone
  cases sending with
  | plain | multiline => exact hasks
  | numeric | singleline | sms =>
      cases raw with
      | error err => cases hsuccess
      | ok raw =>
          simp only [Sending.checked] at hsuccess
          split at hsuccess
          next => cases hsuccess
          next hline =>
            simp only [successful] at hsuccess
            split at hsuccess
            next hok =>
              cases hsuccess
              exact hline ⟨hok, hnone⟩
            next => cases hsuccess

theorem once_withLine {response : ATResponse}
    {next : Bytes → Body (Option Radio)}
    (hlines : response.pIntermediates ≠ [])
    (hnext : ∀ line, Once t (next line)) :
    Once t (withLine response next) := by
  unfold withLine
  split
  next hnone => exact absurd hnone hlines
  next line _ _ => exact hnext line

theorem guarded_withLine {response : ATResponse}
    {next : Bytes → Body (Option α)}
    (hlines : response.pIntermediates ≠ [])
    (hnext : ∀ line, Guarded t (next line)) :
    Guarded t (withLine response next) := by
  unfold withLine
  split
  next hnone => exact absurd hnone hlines
  next line _ _ => exact hnext line

/-- A command, and what is done if it was successful. -/
theorem once_checked (command : Command)
    {next : ATResponse → Body (Option Radio)}
    (hfine : ∀ reply, (Call.send command).Fine reply)
    (hnext : ∀ response, Once t (next response)) :
    Once t (do
      match successful (← atSendCommand command) with
      | none => fail radio t
      | some response => next response) := by
  apply (calm_send command hfine).meets_bind
  intro reply
  split
  · exact once_fail
  · exact hnext _

/-- A command that asks for a line, and what is done with the line. -/
theorem once_single (command : Command) {next : Bytes → Body (Option Radio)}
    (hfine : ∀ reply, (Call.send command).Fine reply)
    (hasks : command.sending.AsksLine)
    (hnext : ∀ line, Once t (next line)) :
    Once t (do
      match successful (← atSendCommand command) with
      | none => fail radio t
      | some response => withLine response next) := by
  apply (calm_send command hfine).meets_bind_of_yields (yields_send command)
  rintro reply ⟨raw, rfl⟩
  split
  next => exact once_fail
  next response hsuccess =>
    exact once_withLine (line_of_successful hasks hsuccess) hnext

theorem once_sendAndSucceed (command : Command)
    (hfine : ∀ reply, (Call.send command).Fine reply) :
    Once t (sendAndSucceed radio t command) :=
  (calm_send command hfine).meets_bind fun _ => once_succeed _

end Parts

section State

variable {t : RILToken}

theorem guarded_some {α : Type} (value : α) :
    Guarded t (pure (some value) : Body (Option α)) :=
  rfl

/-- What a command that asks for a line makes of the reply of the modem. -/
theorem checked_cases {sending : Sending} (hasks : sending.AsksLine)
    (raw : Reply) :
    (∃ err, sending.checked raw = .error err ∧ ∀ response,
      raw = .ok response → response.success = true ∧
        response.pIntermediates = []) ∨
    ∃ response, raw = .ok response ∧ sending.checked raw = .ok response ∧
      (response.success = false ∨ response.pIntermediates ≠ []) := by
  cases sending with
  | plain | multiline => exact hasks.elim
  | numeric | singleline | sms =>
      cases raw with
      | error err => exact .inl ⟨err, rfl, fun _ heq => by cases heq⟩
      | ok response =>
          simp only [Sending.checked]
          by_cases hline : response.success = true ∧
              response.pIntermediates = []
          · refine .inl ⟨_, if_pos hline, fun _ heq => ?_⟩
            cases heq
            exact hline
          · refine .inr ⟨response, rfl, if_neg hline, ?_⟩
            rw [← Bool.not_eq_true]
            exact Decidable.not_and_iff_not_or_not.mp hline

theorem guarded_send {α : Type} {command : Command}
    {k : Reply → Body (Option α)}
    (hnext : ∀ raw : Reply, ((Call.send command).Fine raw →
        Guarded t (k (command.sending.checked raw))) ∧
      (¬ (Call.send command).Fine raw →
        k (command.sending.checked raw) = pure none)) :
    Guarded t (atSendCommand command >>= k) :=
  ⟨rfl, hnext⟩

theorem once_send {command : Command} {k : Reply → Body (Option Radio)}
    (hnext : ∀ raw : Reply, ((Call.send command).Fine raw →
        Once t (k (command.sending.checked raw))) ∧
      (¬ (Call.send command).Fine raw →
        NotOnce t (k (command.sending.checked raw)))) :
    Once t (atSendCommand command >>= k) :=
  ⟨1, rfl, hnext⟩

theorem fine_askCPIN {response : ATResponse} :
    (Call.send .askCPIN).Fine (.ok response) ↔ response.success = true ∨
      response.pIntermediates ≠ [] ∨
        atGetCmeError response ≠ CME_SUCCESS := by
  constructor
  · exact fun hfine => hfine response rfl
  · intro hresponse other heq
    cases heq
    exact hresponse

theorem guarded_getSIMStatus (radio : Radio) :
    Guarded t (getSIMStatus radio) := by
  apply calm_look.guards_bind
  intro radio
  split
  next => exact guarded_some _
  next =>
    apply guarded_send
    intro raw
    rcases checked_cases (show Command.askCPIN.sending.AsksLine from trivial)
      raw with ⟨err, hchecked, hok⟩ | ⟨response, rfl, hchecked, hline⟩
    · rw [hchecked]
      refine ⟨fun _ => guarded_some _, fun hbad => absurd ?_ hbad⟩
      exact fun response hraw => .inl (hok response hraw).1
    · rw [hchecked, fine_askCPIN]
      dsimp only
      split
      next hcode =>
        refine ⟨fun _ => guarded_some _, fun hbad => absurd ?_ hbad⟩
        rw [hcode]
        exact .inr (.inr (by decide))
      next =>
        split
        next hcode =>
          exact ⟨fun _ => guarded_some _,
            fun hbad => absurd (.inr (.inr hcode)) hbad⟩
        next hcode =>
          by_cases hlines : response.pIntermediates = []
          · have hfail : response.success = false :=
              hline.resolve_right fun hsome => hsome hlines
            rw [withLine, hlines]
            refine ⟨fun hfine => ?_, fun _ => rfl⟩
            simp [hfail, hcode] at hfine
          · refine ⟨fun _ => guarded_withLine hlines fun _ => guarded_some _,
              fun hbad => absurd (.inr (.inl hlines)) hbad⟩

theorem calm_onSIMReady : Calm t onSIMReady :=
  (calm_send .CSMS fun _ => trivial).bind fun _ =>
    (calm_send .CNMI fun _ => trivial).bind fun _ => trivial

theorem calm_changeState (radio : Radio) (newState : RadioState) :
    Calm t (changeState radio newState) :=
  calm_look.bind fun _ => trivial

theorem guarded_setRadioStateWith {poll : Radio → Body (Option Radio)}
    (hpoll : ∀ radio, Guarded t (poll radio)) (radio : Radio)
    (newState : RadioState) :
    Guarded t (setRadioStateWith poll radio newState) := by
  apply (calm_changeState radio newState).guards_bind
  rintro ⟨oldState, radio⟩
  apply calm_look.guards_bind
  intro radio
  split
  · exact guarded_some _
  · apply Quiet.guards_bind (quiet_perform rfl fun _ => trivial)
    intro _
    apply calm_look.guards_bind
    intro radio
    split
    · exact calm_onSIMReady.guards_bind fun _ => guarded_some _
    · apply calm_look.guards_bind
      intro radio
      split
      · exact hpoll radio
      · exact guarded_some _

theorem guarded_setRadioStatePolled (radio : Radio) (newState : RadioState) :
    Guarded t (setRadioStatePolled radio newState) :=
  guarded_setRadioStateWith (fun _ => guarded_some _) radio newState

theorem guarded_pollSIMState (radio : Radio) :
    Guarded t (pollSIMState radio) := by
  apply calm_look.guards_bind
  intro radio
  split
  · exact guarded_some _
  · apply (guarded_getSIMStatus radio).andThen
    rintro ⟨status, radio⟩
    cases status with
    | SIM_NOT_READY =>
        exact Quiet.guards_bind (quiet_perform rfl fun _ => trivial)
          fun _ => guarded_some _
    | SIM_READY | SIM_ABSENT | SIM_PIN | SIM_PUK
    | SIM_NETWORK_PERSONALIZATION =>
        exact guarded_setRadioStatePolled _ _

theorem guarded_setRadioState (radio : Radio) (newState : RadioState) :
    Guarded t (setRadioState radio newState) :=
  guarded_setRadioStateWith guarded_pollSIMState radio newState

theorem guarded_isRadioOn : Guarded t isRadioOn := by
  have hasks : Command.askCFUN.sending.AsksLine := trivial
  apply (calm_send .askCFUN fun _ => trivial).guards_bind_of_yields
    (yields_send .askCFUN)
  rintro reply ⟨raw, rfl⟩
  split
  next => exact guarded_some _
  next response hsuccess =>
    apply guarded_withLine (line_of_successful hasks hsuccess)
    intro line
    split
    · exact guarded_some _
    · exact guarded_some _
    · exact guarded_some _

end State

section Requests

variable {t : RILToken} {radio : Radio} {data : Payload} {datalen : Nat}

theorem once_getSimStatus : Once t (requestGetSimStatus radio t) :=
  (guarded_getSIMStatus radio).meets_andThen Nat.one_ne_zero
    fun _ => once_succeed _

theorem once_radioPower (hlen : 4 ≤ datalen) {onOff : Int}
    (hdata : firstInt data = some onOff) :
    Once t (requestRadioPower radio data datalen t) := by
  simp only [requestRadioPower, hdata, if_neg (Nat.not_lt.mpr hlen)]
  apply calm_look.meets_bind
  intro radio
  split
  next =>
    apply once_checked (.CFUN false) fun _ => trivial
    exact fun _ => (guarded_setRadioState _ _).meets_andThen Nat.one_ne_zero
      fun _ => once_succeed _
  next =>
    split
    next =>
      apply Guards.meets_andThen _ Nat.one_ne_zero
      · intro on
        split
        · exact once_fail
        · exact (guarded_setRadioState _ _).meets_andThen Nat.one_ne_zero
            fun _ => once_succeed _
      · apply (calm_send (.CFUN true) fun _ => trivial).guards_bind
        intro reply
        split
        · exact guarded_isRadioOn
        · exact guarded_some _
    next => exact once_succeed _

theorem once_dataCallList : Once t (requestDataCallList radio t) := by
  apply (calm_send .askCGACT fun _ => trivial).meets_bind
  intro reply
  split
  next => exact once_answer _ _
  next =>
    split
    next => exact once_answer _ _
    next =>
      apply (calm_send .askCGDCONT fun _ => trivial).meets_bind
      intro reply
      split
      next => exact once_answer _ _
      next =>
        split
        · exact once_answer _ _
        · exact once_answer _ _

theorem once_getCurrentCalls : Once t (requestGetCurrentCalls radio t) := by
  apply once_checked .CLCC fun _ => trivial
  intro response
  apply once_complete
  intro _
  split
  · exact (quiet_perform rfl fun _ => trivial).bind fun _ => trivial
  · trivial

theorem makes_complete (e : RILErrno) (response : Response) :
    (rilOnRequestComplete t e response).Makes (Call.completes t) 1 :=
  ⟨0, by simp [Call.completes], fun _ => rfl⟩

theorem makes_answer (e : RILErrno) (response : Response) :
    (answer radio t e response).Makes (Call.completes t) 1 :=
  (makes_complete e response).bind (n := 0) fun _ => rfl

/-- A completion, and then another one. -/
theorem notOnce_twice (e : RILErrno) (response : Response) :
    NotOnce t (rilOnRequestComplete t e response >>= fun _ =>
      fail radio t) :=
  ⟨2, by decide, (makes_complete e response).bind fun _ => makes_answer _ _⟩

theorem once_signalStrength : Once t (requestSignalStrength radio t) := by
  apply once_send
  intro raw
  rcases checked_cases (show Command.CSQ.sending.AsksLine from trivial) raw
    with ⟨err, hchecked, hok⟩ | ⟨response, rfl, hchecked, hline⟩
  · rw [hchecked]
    refine ⟨?_, fun _ => notOnce_twice _ _⟩
    rintro ⟨response, rfl, hsuccess, hlines⟩
    exact absurd (hok response rfl).2 hlines
  · rw [hchecked]
    cases hsuccess : response.success with
    | true =>
        have hlines : response.pIntermediates ≠ [] := by
          simpa [hsuccess] using hline
        simp only [successful, hsuccess, if_true]
        refine ⟨fun _ => once_withLine hlines fun _ => once_answerWith _, ?_⟩
        exact fun hbad => absurd ⟨response, rfl, hsuccess, hlines⟩ hbad
    | false =>
        simp only [successful, hsuccess]
        refine ⟨?_, fun _ => notOnce_twice _ _⟩
        rintro ⟨_, heq, hok, -⟩
        cases heq
        rw [hsuccess] at hok
        cases hok

/-- Both commands that ask for the registration. -/
theorem once_registrationState {command : Command}
    (hcommand : command = .askCREG ∨ command = .askCGREG) :
    Once t (requestRegistrationState radio t command) := by
  have hfine : ∀ raw : Reply, (Call.send command).Fine raw ↔
      ∀ response, raw = .ok response →
        response.success = true ∨ response.pIntermediates ≠ [] := by
    intro raw
    rcases hcommand with rfl | rfl
    · exact Iff.rfl
    · exact Iff.rfl
  have hasks : command.sending.AsksLine := by
    rcases hcommand with rfl | rfl
    · trivial
    · trivial
  apply once_send
  intro raw
  rw [hfine]
  rcases checked_cases hasks raw
    with ⟨err, hchecked, hok⟩ | ⟨response, rfl, hchecked, hline⟩
  · rw [hchecked]
    refine ⟨fun _ => once_fail, fun hbad => absurd ?_ hbad⟩
    exact fun response hraw => .inl (hok response hraw).1
  · rw [hchecked]
    dsimp only
    by_cases hlines : response.pIntermediates = []
    · have hfail : response.success = false :=
        hline.resolve_right fun hsome => hsome hlines
      rw [withLine, hlines]
      refine ⟨fun hall => ?_, fun _ => notOnce_undefined⟩
      rcases hall response rfl with hsuccess | hsome
      · rw [hfail] at hsuccess
        cases hsuccess
      · exact absurd hlines hsome
    · refine ⟨fun _ => once_withLine hlines fun _ => once_answerWith _,
        fun hbad => absurd ?_ hbad⟩
      intro other heq
      cases heq
      exact .inr hlines

/-- The loop writes behind its array if and only if the first four lines are
valid. -/
theorem operatorLines_overrun (lines : List Bytes)
    (response : List (Option Bytes)) (hroom : response.length ≤ 3) :
    operatorLines lines response = .overrun ↔
      3 < response.length + lines.length ∧
        ∀ line ∈ lines.take (4 - response.length),
          operatorFromLine line ≠ none := by
  induction lines generalizing response with
  | nil =>
      rw [operatorLines]
      constructor
      · intro hoverrun
        split at hoverrun
        · cases hoverrun
        · cases hoverrun
      · rintro ⟨hlen, -⟩
        simp only [List.length_nil] at hlen
        omega
  | cons line lines ih =>
      have htake : (line :: lines).take (4 - response.length) =
          line :: lines.take (3 - response.length) := by
        rw [show 4 - response.length = (3 - response.length) + 1 by omega,
          List.take_succ_cons]
      rw [operatorLines, htake, List.forall_mem_cons, List.length_cons]
      cases hline : operatorFromLine line with
      | none => simp
      | some name =>
          dsimp only
          split
          next hshort =>
            have hlength : (response ++ [name]).length = response.length + 1 :=
              List.length_append
            rw [ih (response ++ [name]) (by omega), hlength,
              show 4 - (response.length + 1) = 3 - response.length by omega,
              Nat.add_right_comm, Nat.add_assoc response.length]
            simp
          next hfull =>
            have hlength : response.length = 3 := by omega
            simp [hlength]

theorem fine_operatorNames {response : ATResponse} :
    (Call.send .operatorNames).Fine (.ok response) ↔
      operatorLines response.pIntermediates [] ≠ .overrun := by
  have hoverrun := operatorLines_overrun response.pIntermediates []
    (Nat.zero_le 3)
  rw [List.length_nil, Nat.zero_add] at hoverrun
  rw [ne_eq, hoverrun, Decidable.not_and_iff_not_or_not, Nat.not_lt]
  have hsome : (¬ ∀ line ∈ response.pIntermediates.take (4 - 0),
      operatorFromLine line ≠ none) ↔
      ∃ line ∈ response.pIntermediates.take 4,
        operatorFromLine line = none := by
    simp
  rw [hsome]
  constructor
  · exact fun hfine => hfine response rfl
  · intro hresponse other heq
    cases heq
    exact hresponse

theorem once_operator : Once t (requestOperator radio t) := by
  apply once_send
  intro raw
  cases raw with
  | error err =>
      refine ⟨fun _ => once_fail, fun hbad => absurd ?_ hbad⟩
      exact fun response hraw => by cases hraw
  | ok response =>
      rw [fine_operatorNames]
      have hchecked : Command.operatorNames.sending.checked (.ok response) =
        .ok response := rfl
      rw [hchecked]
      dsimp only
      cases operatorLines response.pIntermediates [] with
      | invalid => exact ⟨fun _ => once_fail, fun hbad => absurd nofun hbad⟩
      | overrun =>
          exact ⟨fun hfine => absurd rfl hfine, fun _ => notOnce_undefined⟩
      | names response =>
          exact ⟨fun _ => once_succeed _, fun hbad => absurd nofun hbad⟩

theorem calm_writeLoop (rounds : Nat) (text : Bytes) :
    Calm t (writeLoop rounds text) := by
  induction rounds generalizing text with
  | zero => trivial
  | succ rounds ih =>
      rw [writeLoop]
      apply Issues.ite
      · trivial
      · apply Quiet.bind (quiet_perform rfl fun _ => trivial)
        intro answer
        cases answer with
        | none => trivial
        | some n => exact ih _

theorem calm_readLoop (retry : Nat) : Calm t (readLoop retry) := by
  induction retry with
  | zero => trivial
  | succ retry ih =>
      rw [readLoop]
      apply Quiet.bind (quiet_perform rfl fun _ => trivial)
      intro answer
      cases answer with
      | none => trivial
      | some status =>
          dsimp only
          split
          · trivial
          · exact ih

theorem once_setupDataCall {apn : Option Bytes}
    (hdata : stringAt 2 data = some apn) :
    Once t (requestSetupDataCall radio data t) := by
  simp only [requestSetupDataCall, hdata]
  apply Quiet.meets_bind (quiet_perform rfl fun _ => trivial)
  intro opened
  split
  next =>
    apply (calm_writeLoop _ _).meets_bind
    intro written
    split
    next => exact once_fail
    next =>
      apply (calm_readLoop 10).meets_bind
      intro online
      split
      next => exact once_fail
      next =>
        apply Quiet.meets_bind (quiet_perform rfl fun _ => trivial)
        intro qmistatus
        split
        · exact once_fail
        · exact once_succeed _
  next =>
    apply (calm_send (.CGDCONT apn) fun _ => trivial).meets_bind
    intro _
    apply (calm_send .CGQREQ fun _ => trivial).meets_bind
    intro _
    apply (calm_send .CGQMIN fun _ => trivial).meets_bind
    intro _
    apply (calm_send .CGEREP fun _ => trivial).meets_bind
    intro _
    apply (calm_send .CGACT fun _ => trivial).meets_bind
    intro _
    exact once_checked .dialData (fun _ => trivial) fun _ => once_succeed _

theorem once_enterSimPin
    (hfour : datalen = 4 → ∃ first, stringAt 0 data = some first)
    (height : datalen = 8 → ∃ first second, stringAt 0 data = some first ∧
      stringAt 1 data = some second) :
    Once t (requestEnterSimPin radio data datalen t) := by
  have henter : ∀ first second, Once t (do
      match successful (← atSendCommand (.CPIN first second)) with
      | none => answer radio t .PASSWORD_INCORRECT .null
      | some _ => succeed radio t .null) := by
    intro first second
    apply (calm_send (.CPIN first second) fun _ => trivial).meets_bind
    intro reply
    split
    · exact once_answer _ _
    · exact once_succeed _
  unfold requestEnterSimPin
  split
  next hlen =>
    obtain ⟨first, hfirst⟩ := hfour hlen
    rw [hfirst]
    exact henter first none
  next =>
    split
    next hlen =>
      obtain ⟨first, second, hfirst, hsecond⟩ := height hlen
      rw [hfirst, hsecond]
      exact henter first (some second)
    next => exact once_answer _ _

theorem once_numeric {command : Command}
    (hcommand : command = .CIMI ∨ command = .CGSN ∨ command = .CUSD) :
    Once t (requestNumeric radio t command) := by
  rcases hcommand with rfl | rfl | rfl
  all_goals
    exact once_single _ (fun _ => trivial) trivial fun _ => once_succeed _

theorem once_separateConnection {party : Int}
    (hdata : firstInt data = some party) :
    Once t (requestSeparateConnection radio data t) := by
  simp only [requestSeparateConnection, hdata]
  split
  · exact once_sendAndSucceed _ fun _ => trivial
  · exact once_fail

/-- The data decide for most requests whether they are answered once. -/
theorem once_dispatch {request : Request}
    (hdata : request.DataFine data datalen) :
    Once t (dispatch radio data datalen t request) := by
  cases request with
  | GET_SIM_STATUS => exact once_getSimStatus
  | ENTER_SIM_PIN | ENTER_SIM_PUK | ENTER_SIM_PIN2 | ENTER_SIM_PUK2
  | CHANGE_SIM_PIN | CHANGE_SIM_PIN2 =>
      exact once_enterSimPin hdata.1 hdata.2
  | GET_CURRENT_CALLS => exact once_getCurrentCalls
  | DIAL =>
      obtain ⟨address, clir, uusInfo, rfl⟩ := hdata
      exact once_sendAndSucceed _ fun _ => trivial
  | GET_IMSI => exact once_numeric (.inl rfl)
  | GET_IMEI => exact once_numeric (.inr (.inl rfl))
  | CANCEL_USSD => exact once_numeric (.inr (.inr rfl))
  | HANGUP =>
      obtain ⟨line, hdata⟩ := hdata
      simp only [dispatch, requestHangup, hdata]
      exact once_sendAndSucceed _ fun _ => trivial
  | HANGUP_WAITING_OR_BACKGROUND | HANGUP_FOREGROUND_RESUME_BACKGROUND
  | SWITCH_WAITING_OR_HOLDING_AND_ACTIVE | CONFERENCE | UDUB | ANSWER =>
      exact once_sendAndSucceed _ fun _ => trivial
  | SIGNAL_STRENGTH => exact once_signalStrength
  | REGISTRATION_STATE => exact once_registrationState (.inl rfl)
  | GPRS_REGISTRATION_STATE => exact once_registrationState (.inr rfl)
  | OPERATOR => exact once_operator
  | RADIO_POWER =>
      obtain ⟨hlen, onOff, hdata⟩ := hdata
      exact once_radioPower hlen hdata
  | DTMF =>
      obtain ⟨c, hdata⟩ := hdata
      simp only [dispatch, requestDtmf, hdata]
      exact once_sendAndSucceed _ fun _ => trivial
  | SEND_SMS =>
      obtain ⟨smsc, pdu, hsmsc, hpdu⟩ := hdata
      simp only [dispatch, requestSendSMS, hsmsc, hpdu]
      exact once_checked _ (fun _ => trivial) fun _ => once_succeed _
  | SETUP_DATA_CALL =>
      obtain ⟨apn, hdata⟩ := hdata
      exact once_setupDataCall hdata
  | SIM_ACCESS =>
      obtain ⟨command, fileid, path, p1, p2, p3, args, pin2, rfl⟩ := hdata
      exact once_single _ (fun _ => trivial) trivial fun _ =>
        once_answerWith _
  | SEND_USSD => exact once_answer _ _
  | SMS_ACKNOWLEDGE =>
      obtain ⟨ackSuccess, hdata, hone, hzero⟩ := hdata
      simp only [dispatch, requestSMSAcknowledge, hdata, hone, hzero, or_self,
        if_false]
      exact once_fail
  | QUERY_NETWORK_SELECTION_MODE =>
      exact once_single _ (fun _ => trivial) trivial fun _ =>
        once_answerWith _
  | SET_NETWORK_SELECTION_AUTOMATIC => exact hdata.elim
  | SEPARATE_CONNECTION =>
      obtain ⟨party, hdata⟩ := hdata
      exact once_separateConnection hdata
  | DATA_CALL_LIST => exact once_dataCallList
  | OEM_HOOK_RAW => exact once_succeed _
  | OEM_HOOK_STRINGS =>
      have hall : ((List.range (datalen / 4)).all fun i =>
          (stringAt i data).isSome) = true := by
        rw [List.all_eq_true]
        intro i hi
        obtain ⟨text, htext⟩ := hdata i (List.mem_range.mp hi)
        rw [htext, Option.isSome_some]
      simp only [dispatch, requestOemHookStrings, hall, if_true]
      exact once_succeed _
  | WRITE_SMS_TO_SIM =>
      obtain ⟨status, pdu, smsc, rfl⟩ := hdata
      exact once_checked _ (fun _ => trivial) fun _ => once_succeed _
  | DELETE_SMS_ON_SIM =>
      obtain ⟨index, hdata⟩ := hdata
      simp only [dispatch, requestDeleteSmsOnSim, hdata]
      exact once_checked _ (fun _ => trivial) fun _ => once_succeed _

theorem notOnce_enterSimPin (hdata : ¬ ((datalen = 4 →
      ∃ first, stringAt 0 data = some first) ∧
    (datalen = 8 → ∃ first second, stringAt 0 data = some first ∧
      stringAt 1 data = some second))) :
    NotOnce t (requestEnterSimPin radio data datalen t) := by
  unfold requestEnterSimPin
  split
  next hlen =>
    split
    next first hfirst =>
      refine absurd ⟨fun _ => ⟨first, hfirst⟩, fun height => ?_⟩ hdata
      rw [hlen] at height
      cases height
    next => exact notOnce_undefined
  next hfour =>
    split
    next hlen =>
      split
      next first second hfirst hsecond =>
        exact absurd ⟨fun h => absurd h hfour,
          fun _ => ⟨first, second, hfirst, hsecond⟩⟩ hdata
      next => exact notOnce_undefined
    next height =>
      exact absurd ⟨fun h => absurd h hfour, fun h => absurd h height⟩ hdata

theorem notOnce_smsAcknowledge (hdata : ¬ ∃ value,
    firstInt data = some value ∧ value ≠ 1 ∧ value ≠ 0) :
    NotOnce t (requestSMSAcknowledge radio data t) := by
  unfold requestSMSAcknowledge
  split
  next => exact notOnce_undefined
  next ackSuccess hfirst =>
    split
    next =>
      refine ⟨0 + (1 + 1), by decide, ?_⟩
      apply (calm_send (.CNMA _) fun _ => trivial).makes.bind
      exact fun _ => (makes_complete _ _).bind fun _ => makes_answer _ _
    next hother => exact absurd ⟨ackSuccess, hfirst, not_or.mp hother⟩ hdata

/-- A request with other data is answered twice or not at all. -/
theorem notOnce_dispatch {request : Request}
    (hdata : ¬ request.DataFine data datalen) :
    NotOnce t (dispatch radio data datalen t request) := by
  cases request with
  | ENTER_SIM_PIN | ENTER_SIM_PUK | ENTER_SIM_PIN2 | ENTER_SIM_PUK2
  | CHANGE_SIM_PIN | CHANGE_SIM_PIN2 => exact notOnce_enterSimPin hdata
  | DIAL =>
      cases data with
      | dial address clir uusInfo =>
          exact absurd ⟨address, clir, uusInfo, rfl⟩ hdata
      | _ => exact notOnce_undefined
  | HANGUP =>
      cases hfirst : firstInt data with
      | none =>
          simp only [dispatch, requestHangup, hfirst]
          exact notOnce_undefined
      | some value => exact absurd ⟨value, hfirst⟩ hdata
  | SEPARATE_CONNECTION =>
      cases hfirst : firstInt data with
      | none =>
          simp only [dispatch, requestSeparateConnection, hfirst]
          exact notOnce_undefined
      | some value => exact absurd ⟨value, hfirst⟩ hdata
  | DELETE_SMS_ON_SIM =>
      cases hfirst : firstInt data with
      | none =>
          simp only [dispatch, requestDeleteSmsOnSim, hfirst]
          exact notOnce_undefined
      | some value => exact absurd ⟨value, hfirst⟩ hdata
  | RADIO_POWER =>
      cases hfirst : firstInt data with
      | none =>
          simp only [dispatch, requestRadioPower, hfirst]
          exact notOnce_undefined
      | some value =>
          have hshort : datalen < 4 := by
            by_contra hlen
            exact hdata ⟨Nat.not_lt.mp hlen, value, hfirst⟩
          simp only [dispatch, requestRadioPower, hfirst, if_pos hshort]
          exact notOnce_undefined
  | DTMF =>
      cases hfirst : firstChar data with
      | none =>
          simp only [dispatch, requestDtmf, hfirst]
          exact notOnce_undefined
      | some c => exact absurd ⟨c, hfirst⟩ hdata
  | SEND_SMS =>
      simp only [dispatch, requestSendSMS]
      split
      next smsc pdu hsmsc hpdu => exact absurd ⟨smsc, pdu, hsmsc, hpdu⟩ hdata
      next => exact notOnce_undefined
  | SETUP_DATA_CALL =>
      cases hapn : stringAt 2 data with
      | none =>
          simp only [dispatch, requestSetupDataCall, hapn]
          exact notOnce_undefined
      | some apn => exact absurd ⟨apn, hapn⟩ hdata
  | SIM_ACCESS =>
      cases data with
      | simAccess command fileid path p1 p2 p3 args pin2 =>
          exact absurd ⟨command, fileid, path, p1, p2, p3, args, pin2, rfl⟩
            hdata
      | _ => exact notOnce_undefined
  | SMS_ACKNOWLEDGE => exact notOnce_smsAcknowledge hdata
  | SET_NETWORK_SELECTION_AUTOMATIC =>
      exact ⟨0, Nat.zero_ne_one, Quiet.makes
        ((calm_send .automaticCOPS fun _ => trivial).bind fun _ => trivial)⟩
  | OEM_HOOK_STRINGS =>
      simp only [dispatch, requestOemHookStrings]
      split
      next hall =>
        rw [List.all_eq_true] at hall
        refine absurd (fun i hi => ?_) hdata
        exact Option.isSome_iff_exists.mp (hall i (List.mem_range.mpr hi))
      next => exact notOnce_undefined
  | WRITE_SMS_TO_SIM =>
      cases data with
      | smsWrite status pdu smsc =>
          cases pdu with
          | none => exact notOnce_undefined
          | some pdu => exact absurd ⟨status, pdu, smsc, rfl⟩ hdata
      | _ => exact notOnce_undefined
  | _ => exact absurd trivial hdata

end Requests

/-- The request that is served, if the radio is not seen as unavailable or off
by the two looks that are made first. -/
def served (radio : Radio) (first second : Interference) (request : Int) :
    Option Request :=
  if (radio.after first).sState = .UNAVAILABLE ∧
      request? request ≠ some .GET_SIM_STATUS then none
  else if ((radio.after first).after second).sState = .OFF ∧
      ¬ (request? request = some .RADIO_POWER ∨
        request? request = some .GET_SIM_STATUS) then none
  else request? request

section Run

variable {t : RILToken} {W : Type} {env : (c : Call) → W → c.Answer × W}
  {w : W} {radio : Radio}

theorem look_bind {α : Type} (next : Radio → Body α) :
    look radio >>= next =
      Prog.call (R := Call.Answer) .look fun i => next (radio.after i) :=
  rfl

theorem count_look {α : Type} (next : Radio → Body α) :
    (look radio >>= next).count (Call.completes t) env w =
      (next (radio.after (env .look w).1)).count (Call.completes t) env
        (env .look w).2 := by
  rw [look_bind, count_call]
  rfl

theorem smooth_look {α : Type} (next : Radio → Body α) :
    (look radio >>= next).Smooth Call.Fine env w ↔
      (next (radio.after (env .look w).1)).Smooth Call.Fine env
        (env .look w).2 := by
  rw [look_bind, Smooth]
  exact ⟨fun hall => hall.2, fun hrest => ⟨trivial, hrest⟩⟩

end Run

/-- A request is answered exactly once if and only if its data, unless it is
refused, and all the replies of the modem are among those it is ready for. -/
theorem completions_eq_one_iff (radio : Radio) (request : Int)
    (data : Payload) (datalen : Nat) (t : RILToken) {W : Type}
    (env : (c : Call) → W → c.Answer × W) (w : W) :
    completions t env (onRequest radio request data datalen t) w = 1 ↔
      (∀ r, served radio (env .look w).1 (env .look (env .look w).2).1
        request = some r → r.DataFine data datalen) ∧
      (onRequest radio request data datalen t).Smooth Call.Fine env w := by
  unfold completions onRequest served
  rw [count_look, smooth_look]
  split
  next => simpa using (once_answer _ _).count_iff
  next =>
    rw [count_look, smooth_look]
    split
    next => simpa using (once_answer _ _).count_iff
    next =>
      split
      next r hrequest =>
        rw [hrequest]
        by_cases hdata : r.DataFine data datalen
        · simpa [hdata] using (once_dispatch hdata).count_iff
        · obtain ⟨n, hne, hmakes⟩ : NotOnce t (dispatch ((radio.after
              (env .look w).1).after (env .look (env .look w).2).1) data
              datalen t r) :=
            notOnce_dispatch hdata
          rw [hmakes.count_eq]
          simp [hdata, hne]
      next hrequest =>
        rw [hrequest]
        simpa using (once_answer _ _).count_iff

namespace ReferenceRilAnswersWitness

/-- A modem that gives one reply to everything, and no data interface. -/
def modem (reply : Reply) : (c : Call) → Unit → c.Answer × Unit
  | .look, w => (Interference.nothing, w)
  | .send _, w => (reply, w)
  | .complete _ _ _, w | .unsolicited _, w | .timedCallback _, w => ((), w)
  | .openQmi, w => (false, w)
  | .writeQmi _, w => (none, w)
  | .readQmi, w => (none, w)
  | .system _, w => ((-1 : Int), w)

def ready : Radio := ⟨.SIM_READY, false⟩

/-- A closed channel, a command that is accepted, and one that is not. -/
def closed : Reply := .error AtChannel.AT_ERROR_CHANNEL_CLOSED

def accepted : Reply := .ok ⟨true, .ofString "OK", []⟩

def rejected : Reply := .ok ⟨false, .ofString "ERROR", []⟩

/-- The signal strength is answered twice on a closed channel, and so is the
acknowledgement of a message; the automatic selection of a network is never
answered, nor is the registration state if the modem rejects the command. -/
theorem not_answered_once :
    completions 7 (modem closed) (onRequest ready 19 .void 0 7) () = 2 ∧
      completions 7 (modem accepted) (onRequest ready 37 (.ints [1]) 4 7) () =
        2 ∧
      completions 7 (modem accepted) (onRequest ready 46 .void 0 7) () = 0 ∧
      completions 7 (modem rejected) (onRequest ready 20 .void 0 7) () = 0 := by
  decide

end ReferenceRilAnswersWitness

end ReferenceRil

end MetaOS
