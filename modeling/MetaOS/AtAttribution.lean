/-
hardware/ril/reference-ril/atchannel.c: whose response a line becomes part of.

The reader thread goes on with its lines after it has signalled a final
response, until the thread that sent the command runs again.  A line that
comes in between may still be taken for a part of the response.
-/
import MetaOS.AtCommand

namespace MetaOS

namespace AtChannel

open EventRuns

def isFinalResponse (line : Bytes) : Bool :=
  isFinalResponseSuccess line || isFinalResponseError line

/-- A command whose answers begin with a prefix comes with the prefix. -/
def Command.Prefixed (command : Command) : Prop :=
  command.type = .SINGLELINE ∨ command.type = .MULTILINE →
    command.responsePrefix ≠ none

/-- The line is the prompt for the text of a message that is still to be
sent. -/
def Channel.Prompted (c : Channel) (line : Bytes) : Prop :=
  c.sSmsPDU ≠ none ∧ line = .ofString "> "

instance (c : Channel) (line : Bytes) : Decidable (c.Prompted line) :=
  inferInstanceAs (Decidable (_ ∧ _))

/-- The line has the form of an intermediate response to the command. -/
def Channel.accepts (c : Channel) (response : ATResponse) (line : Bytes) :
    Bool :=
  match c.sType with
  | .NO_RESULT => false
  | .NUMERIC => response.intermediates = [] && isdigit (line.headD 0)
  | .SINGLELINE => response.intermediates = [] &&
      strStartsWith line c.sResponsePrefix = some true
  | .MULTILINE => strStartsWith line c.sResponsePrefix = some true

/-- The channel takes the line for a part of the pending response. -/
def Channel.Expects (c : Channel) (line : Bytes) : Prop :=
  ∃ response, c.spResponse = some response ∧
    (isFinalResponse line = true ∨ c.Prompted line ∨
      c.accepts response line = true)

/-- What becomes of lines that come one after the other. -/
def treatments : Channel → List Bytes → List Treatment
  | _, [] => []
  | c, line :: lines =>
      match processLine c line with
      | none => []
      | some (treatment, c') => treatment :: treatments c' lines

/-- The lines among them that are taken for intermediate responses. -/
def intermediateLines : Channel → List Bytes → List Bytes
  | _, [] => []
  | c, line :: lines =>
      match processLine c line with
      | none => []
      | some (.intermediate, c') => line :: intermediateLines c' lines
      | some (_, c') => intermediateLines c' lines

section Lines

variable {c : Channel} {response : ATResponse} {line : Bytes}

/-- The prefix is there for the command that is pending. -/
def Channel.Prefixed (c : Channel) : Prop :=
  c.sType = .SINGLELINE ∨ c.sType = .MULTILINE → c.sResponsePrefix ≠ none

theorem processLine_final (hresponse : c.spResponse = some response)
    (hfinal : isFinalResponse line = true) :
    processLine c line = some (.finalResponse,
      handleFinalResponse c response (isFinalResponseSuccess line) line) := by
  unfold processLine
  rw [hresponse]
  by_cases hsuccess : isFinalResponseSuccess line = true
  · simp [hsuccess]
  · have herror : isFinalResponseError line = true := by
      simpa [isFinalResponse, hsuccess] using hfinal
    simp [hsuccess, herror]

/-- The part of `processLine` behind the tests for a final response and for
the prompt. -/
theorem processLine_other (hresponse : c.spResponse = some response)
    (hprefixed : c.Prefixed) (hnot : isFinalResponse line = false)
    (hprompt : ¬ c.Prompted line) :
    processLine c line =
      if c.accepts response line = true then
        some (.intermediate, addIntermediate c response line)
      else some (.unsolicited, c) := by
  obtain ⟨hsuccess, herror⟩ : isFinalResponseSuccess line = false ∧
      isFinalResponseError line = false := by
    simpa [isFinalResponse] using hnot
  have hstarts : c.sType = .SINGLELINE ∨ c.sType = .MULTILINE →
      ∃ found, strStartsWith line c.sResponsePrefix = some found := by
    intro htype
    cases hprefix : c.sResponsePrefix with
    | none => exact absurd hprefix (hprefixed htype)
    | some start => exact ⟨_, rfl⟩
  unfold processLine
  simp only [hresponse, hsuccess, herror, Bool.false_eq_true, if_false]
  split
  next pdu hpdu htext =>
    have hsome : c.sSmsPDU ≠ none := by simp [hpdu]
    exact absurd ⟨hsome, of_decide_eq_true htext⟩ hprompt
  next =>
    unfold Channel.accepts
    cases htype : c.sType with
    | NO_RESULT => simp
    | NUMERIC => simp
    | SINGLELINE =>
        obtain ⟨found, hfound⟩ := hstarts (.inl htype)
        by_cases hnone : response.intermediates = []
        · cases found <;> simp [hnone, hfound]
        · simp [hnone]
    | MULTILINE =>
        obtain ⟨found, hfound⟩ := hstarts (.inr htype)
        cases found <;> simp [hfound]

theorem processLine_prompt (hresponse : c.spResponse = some response)
    (hnot : isFinalResponse line = false) (hprompt : c.Prompted line) :
    ∃ pdu, c.sSmsPDU = some pdu ∧ processLine c line =
      some (.prompt pdu, { c with sSmsPDU := none }) := by
  obtain ⟨hsuccess, herror⟩ : isFinalResponseSuccess line = false ∧
      isFinalResponseError line = false := by
    simpa [isFinalResponse] using hnot
  obtain ⟨hpdu, htext⟩ := hprompt
  obtain ⟨pdu, hpdu⟩ := Option.ne_none_iff_exists'.mp hpdu
  refine ⟨pdu, hpdu, ?_⟩
  unfold processLine
  simp only [hresponse, hsuccess, herror, hpdu, Bool.false_eq_true, if_false]
  rw [decide_eq_true htext]

/-- A line that the channel does not expect goes to the unsolicited
handler and leaves the channel alone. -/
theorem processLine_unexpected (hresponse : c.spResponse = some response)
    (hprefixed : c.Prefixed) (hnot : ¬ c.Expects line) :
    processLine c line = some (.unsolicited, c) := by
  have hparts : isFinalResponse line = false ∧ ¬ c.Prompted line ∧
      ¬ c.accepts response line = true := by
    refine ⟨?_, ?_, ?_⟩
    · rw [← Bool.not_eq_true]
      exact fun hfinal => hnot ⟨response, hresponse, .inl hfinal⟩
    · exact fun hprompt => hnot ⟨response, hresponse, .inr (.inl hprompt)⟩
    · exact fun haccepts => hnot ⟨response, hresponse, .inr (.inr haccepts)⟩
  rw [processLine_other hresponse hprefixed hparts.1 hparts.2.1,
    if_neg hparts.2.2]

/-- What a line does while a command is pending. -/
theorem processLine_while_pending (hresponse : c.spResponse = some response)
    (hprefixed : c.Prefixed) (line : Bytes) :
    ∃ treatment c' response', processLine c line = some (treatment, c') ∧
      c'.spResponse = some response' ∧ c'.Prefixed ∧
      c'.sReaderClosed = c.sReaderClosed ∧
      response'.serial = response.serial ∧
      (treatment = .unsolicited ↔ ¬ c.Expects line) ∧
      (isFinalResponse line = false →
        response'.success = response.success ∧
        response'.finalResponse = response.finalResponse ∧
        response'.intermediates =
          (if treatment = .intermediate then [line] else []) ++
            response.intermediates) := by
  have hexpects : ∀ {part : Prop}, part →
      (part → isFinalResponse line = true ∨ c.Prompted line ∨
        c.accepts response line = true) → c.Expects line :=
    fun hpart himp => ⟨response, hresponse, himp hpart⟩
  cases hfinal : isFinalResponse line with
  | true =>
      refine ⟨_, _, _, processLine_final hresponse hfinal, rfl, hprefixed,
        rfl, rfl, ?_, by simp⟩
      simpa using hexpects hfinal .inl
  | false =>
      by_cases hprompt : c.Prompted line
      · obtain ⟨pdu, -, hline⟩ :=
          processLine_prompt hresponse hfinal hprompt
        refine ⟨_, _, response, hline, hresponse, hprefixed, rfl, rfl, ?_,
          by simp⟩
        simpa using hexpects hprompt (.inr ∘ .inl)
      · have hline := processLine_other hresponse hprefixed hfinal hprompt
        by_cases haccepts : c.accepts response line = true
        · rw [if_pos haccepts] at hline
          refine ⟨_, _, _, hline, rfl, hprefixed, rfl, rfl, ?_, by simp⟩
          simpa using hexpects haccepts (.inr ∘ .inr)
        · rw [if_neg haccepts] at hline
          refine ⟨_, _, response, hline, hresponse, hprefixed, rfl, rfl, ?_,
            by simp⟩
          simp only [true_iff]
          rintro ⟨other, hother, hparts⟩
          obtain rfl : response = other :=
            Option.some_inj.mp (hresponse.symm.trans hother)
          simp [hfinal, hprompt, haccepts] at hparts

end Lines

section Waiting

variable {Thread : Type}

/-- The thread waits for the response to its command. -/
structure State.Awaits (s : State Thread) (thread : Thread)
    (command : Command) (response : ATResponse) : Prop where
  call : s.calls thread = some (.waiting command response.serial)
  pending : s.channel.spResponse = some response
  prefixed : s.channel.Prefixed
  opened : s.channel.sReaderClosed = false

/-- While a thread waits for its final response: other lines come in, and the
thread wakes up in vain. -/
def Event.Quiet (thread : Thread) : Event Thread → Prop
  | .line text => isFinalResponse text = false
  | .wake other timedOut => other = thread ∧ timedOut = false
  | _ => False

def Event.line? : Event Thread → Option Bytes
  | .line text => some text
  | _ => none

variable [DecidableEq Thread] {s s' : State Thread} {thread : Thread}
  {command : Command} {response : ATResponse}

/-- The thread waits as soon as its command is on its way. -/
theorem awaits_of_send {accepted : Bool}
    (hstep : s.step (.send thread command accepted) = some s')
    (hcall : s'.calls thread = some (.waiting command s.sent))
    (hprefixed : command.Prefixed) :
    s'.Awaits thread command ⟨s.sent, false, none, []⟩ := by
  obtain rfl := record_of_send hstep
  have hwaits : (atSendCommandFullNolock s.channel command accepted
      s.sent).1 = .waiting command s.sent := by
    simpa [State.record] using hcall
  unfold atSendCommandFullNolock at hwaits hcall ⊢
  split at hwaits
  next => simp [fail] at hwaits
  next =>
    dsimp only at hwaits
    split at hwaits
    next => simp [fail] at hwaits
    next hfree haccepted =>
      have hopened : s.channel.sReaderClosed = false := by
        by_contra hclosed
        exact haccepted (by simp [writeline, hclosed, AT_ERROR_CHANNEL_CLOSED])
      simp only [hfree, haccepted, awaitResponse, hopened] at hcall ⊢
      exact ⟨hcall, rfl, hprefixed, rfl⟩

/-- A line comes in while the thread waits. -/
theorem State.Awaits.line (hawaits : s.Awaits thread command response)
    (text : Bytes) :
    ∃ treatment s' response',
      s.step (.line text) = some s' ∧
      processLine s.channel text = some (treatment, s'.channel) ∧
      s'.Awaits thread command response' ∧
      (isFinalResponse text = false → response' =
        { response with intermediates :=
          (if treatment = .intermediate then [text] else []) ++
            response.intermediates }) := by
  obtain ⟨treatment, c', response', hline, hpending, hprefixed, hopened,
    hserial, -, hother⟩ :=
      processLine_while_pending hawaits.pending hawaits.prefixed text
  refine ⟨treatment, { s with channel := c' }, response', ?_, hline, ?_, ?_⟩
  · simp [State.step, hline]
  · exact ⟨hserial ▸ hawaits.call, hpending, hprefixed,
      hopened.trans hawaits.opened⟩
  · intro hnot
    obtain ⟨hsuccess, hfinal, hintermediates⟩ := hother hnot
    rw [← hintermediates, ← hsuccess, ← hfinal, ← hserial]

/-- The thread wakes up in vain. -/
theorem State.Awaits.wake_in_vain (hawaits : s.Awaits thread command response)
    (hnone : response.finalResponse = none) :
    s.step (.wake thread false) = some s := by
  have hwake : wakeUp s.channel command response.serial false =
      (.waiting command response.serial, s.channel) := by
    simp [wakeUp, awaitResponse, hawaits.pending, hnone, hawaits.opened]
  have hcalls : Function.update s.calls thread
      (some (.waiting command response.serial)) = s.calls := by
    rw [← hawaits.call, Function.update_eq_self]
  simp [State.step, hawaits.call, hwake, State.record, hcalls]

/-- Up to the final response, the response collects the intermediate lines,
with the last one first. -/
theorem State.Awaits.quiet (hawaits : s.Awaits thread command response)
    (hnone : response.finalResponse = none) {events : List (Event Thread)}
    (hquiet : ∀ event ∈ events, event.Quiet thread) :
    ∃ s', follow State.step s events = some s' ∧
      s'.Awaits thread command
        { response with intermediates :=
          (intermediateLines s.channel
            (events.filterMap Event.line?)).reverse ++
            response.intermediates } := by
  induction events generalizing s response with
  | nil => exact ⟨s, rfl, hawaits⟩
  | cons event events ih =>
      have hrest : ∀ event ∈ events, event.Quiet thread := fun event hmem =>
        hquiet event (List.mem_cons_of_mem _ hmem)
      have hfirst := hquiet event List.mem_cons_self
      cases event with
      | line text =>
          obtain ⟨treatment, middle, response', hstep, hline, hawaits',
            hresponse'⟩ := hawaits.line text
          have hcollected := hresponse' hfirst
          subst hcollected
          obtain ⟨s', hfollow, hlast⟩ := ih hawaits' hnone hrest
          refine ⟨s', by rw [follow, hstep]; exact hfollow, ?_⟩
          simp only [List.filterMap_cons, Event.line?, intermediateLines,
            hline] at hlast ⊢
          cases treatment <;> simpa using hlast
      | wake other timedOut =>
          obtain ⟨rfl, rfl⟩ := hfirst
          obtain ⟨s', hfollow, hlast⟩ := ih hawaits hnone hrest
          refine ⟨s', ?_, hlast⟩
          rw [follow, hawaits.wake_in_vain hnone]
          exact hfollow
      | send thread command accepted => exact hfirst.elim
      | fdClosed => exact hfirst.elim
      | readerClosed => exact hfirst.elim
      | reopened => exact hfirst.elim

/-- Lines that come in after the final response. -/
theorem State.Awaits.lines (hawaits : s.Awaits thread command response)
    (later : List Bytes) :
    ∃ s' response', follow State.step s (later.map Event.line) = some s' ∧
      s'.Awaits thread command response' := by
  induction later generalizing s response with
  | nil => exact ⟨s, response, rfl, hawaits⟩
  | cons text later ih =>
      obtain ⟨treatment, middle, response', hstep, -, hawaits', -⟩ :=
        hawaits.line text
      obtain ⟨s', response'', hfollow, hlast⟩ := ih hawaits'
      refine ⟨s', response'', ?_, hlast⟩
      rw [List.map_cons, follow, hstep]
      exact hfollow

/-- They all go to the unsolicited handler exactly if the channel expects none
of them, and the channel stays as it is then. -/
theorem State.Awaits.unsolicited_iff
    (hawaits : s.Awaits thread command response) (later : List Bytes) :
    ((∀ treatment ∈ treatments s.channel later, treatment = .unsolicited) ↔
      ∀ line ∈ later, ¬ s.channel.Expects line) ∧
    ((∀ line ∈ later, ¬ s.channel.Expects line) →
      follow State.step s (later.map Event.line) = some s) := by
  induction later with
  | nil => simp [treatments, follow]
  | cons text later ih =>
      obtain ⟨treatment, c', response', hline, -, -, -, -, hexpects, -⟩ :=
        processLine_while_pending hawaits.pending hawaits.prefixed text
      by_cases hnot : s.channel.Expects text
      · have htreated : treatment ≠ .unsolicited := fun htreated =>
          hexpects.mp htreated hnot
        refine ⟨?_, fun hnone => absurd hnot (hnone text List.mem_cons_self)⟩
        simp [treatments, hline, htreated, hnot]
      · have hline' :=
          processLine_unexpected hawaits.pending hawaits.prefixed hnot
        refine ⟨?_, ?_⟩
        · simp only [treatments, hline', List.forall_mem_cons, true_and,
            hnot, not_false_eq_true]
          exact ih.1
        · intro hnone
          have hrest := ih.2 fun line hmem =>
            hnone line (List.mem_cons_of_mem _ hmem)
          rw [List.map_cons, follow]
          simpa [State.step, hline'] using hrest

/-- The thread wakes up after its final response. -/
theorem State.Awaits.wake (hawaits : s.Awaits thread command response)
    (hfinal : response.finalResponse ≠ none) :
    ∃ s', s.step (.wake thread false) = some s' ∧
      s'.calls thread = some (.returned 0
        (if command.wantsResponse then
          some { response with
            intermediates := response.intermediates.reverse }
        else none)) := by
  refine ⟨s.record thread
    (wakeUp s.channel command response.serial false) s.sent, ?_, ?_⟩
  · simp [State.step, hawaits.call]
  · simp [State.record, wakeUp, awaitResponse, hawaits.pending, hfinal,
      hawaits.opened, fail]

/-- The final response comes in. -/
theorem State.Awaits.final (hawaits : s.Awaits thread command response)
    {text : Bytes} (hfinal : isFinalResponse text = true) :
    ∃ s', s.step (.line text) = some s' ∧
      s'.Awaits thread command
        { response with
          success := isFinalResponseSuccess text
          finalResponse := some text } := by
  have hline := processLine_final hawaits.pending hfinal
  refine ⟨⟨handleFinalResponse s.channel response
    (isFinalResponseSuccess text) text, s.calls, s.sent⟩, ?_, ?_⟩
  · simp [State.step, hline]
  · exact ⟨hawaits.call, rfl, hawaits.prefixed, hawaits.opened⟩

/-- The call returned the response with the final line and the intermediate
lines in the order of their arrival, and nothing that came in later was taken
for a part of it. -/
structure Attributed (command : Command) (serial : Nat)
    (intermediates : List Bytes) (final : Bytes) (later : List Treatment)
    (call : Option Call) : Prop where
  handed : call = some (.returned 0
    (if command.wantsResponse then
      some ⟨serial, isFinalResponseSuccess final, some final, intermediates⟩
    else none))
  others (treatment : Treatment) (hmem : treatment ∈ later) :
    treatment = .unsolicited

/-- Whatever lines come in before and after the final response, and whenever
the thread wakes up: it is given its own response exactly if the channel, as
the final response left it, expects none of the later lines. -/
theorem attributed_iff {s₁ : State Thread} {accepted : Bool}
    (hsend : s.step (.send thread command accepted) = some s₁)
    (hcall : s₁.calls thread = some (.waiting command s.sent))
    (hprefixed : command.Prefixed) {events : List (Event Thread)}
    (hquiet : ∀ event ∈ events, event.Quiet thread) {final : Bytes}
    (hfinal : isFinalResponse final = true) (later : List Bytes) :
    ∃ s₂ s₃ s₄ s₅, follow State.step s₁ events = some s₂ ∧
      s₂.step (.line final) = some s₃ ∧
      follow State.step s₃ (later.map Event.line) = some s₄ ∧
      s₄.step (.wake thread false) = some s₅ ∧
      (Attributed command s.sent
          (intermediateLines s₁.channel (events.filterMap Event.line?)) final
          (treatments s₃.channel later) (s₅.calls thread) ↔
        ∀ line ∈ later, ¬ s₃.channel.Expects line) := by
  have hawaits := awaits_of_send hsend hcall hprefixed
  obtain ⟨s₂, hfollow, hawaits₂⟩ := hawaits.quiet rfl hquiet
  obtain ⟨s₃, hstep, hawaits₃⟩ := hawaits₂.final hfinal
  obtain ⟨hunsolicited, hkept⟩ := hawaits₃.unsolicited_iff later
  by_cases hnone : ∀ line ∈ later, ¬ s₃.channel.Expects line
  · obtain ⟨s₅, hwake, hreturned⟩ := hawaits₃.wake (by simp)
    refine ⟨s₂, s₃, s₃, s₅, hfollow, hstep, hkept hnone, hwake, ?_⟩
    refine ⟨fun _ => hnone, fun _ => ⟨?_, hunsolicited.mpr hnone⟩⟩
    simpa using hreturned
  · obtain ⟨s₄, response', hlines, hawaits₄⟩ := hawaits₃.lines later
    have hwake : ∃ s₅, s₄.step (.wake thread false) = some s₅ := by
      simp [State.step, hawaits₄.call]
    obtain ⟨s₅, hwake⟩ := hwake
    refine ⟨s₂, s₃, s₄, s₅, hfollow, hstep, hlines, hwake, ?_⟩
    refine ⟨fun hattributed => ?_, fun hall => absurd hall hnone⟩
    exact hunsolicited.mp hattributed.others

end Waiting

namespace AtAttributionWitness

open AtCommandWitness

/-- One thread has asked for the signal quality and waits. -/
def asking : State Bool :=
  (State.opened : State Bool).record true
    (atSendCommandFullNolock (State.opened : State Bool).channel csq
      true 0) 1

def quality : List (Event Bool) := [.line (.ofString "+CSQ: 9")]

theorem prefixed_csq : csq.Prefixed := fun _ => by simp [csq]

theorem quiet_quality : ∀ event ∈ quality, event.Quiet true := by
  intro event hmem
  obtain rfl := List.mem_singleton.mp hmem
  exact (by decide : isFinalResponse (.ofString "+CSQ: 9") = false)

/-- A call comes in before the thread runs again. -/
theorem asking_attributed :
    ∃ s₂ s₃ s₄ s₅, follow State.step asking quality = some s₂ ∧
      s₂.step (.line (.ofString "OK")) = some s₃ ∧
      follow State.step s₃ ([Bytes.ofString "RING"].map Event.line) =
        some s₄ ∧
      s₄.step (.wake true false) = some s₅ ∧
      (Attributed csq 0
          (intermediateLines asking.channel (quality.filterMap Event.line?))
          (.ofString "OK") (treatments s₃.channel [.ofString "RING"])
          (s₅.calls true) ↔
        ∀ line ∈ [Bytes.ofString "RING"], ¬ s₃.channel.Expects line) :=
  attributed_iff
    (show (State.opened : State Bool).step (.send true csq true) =
      some asking from rfl)
    rfl prefixed_csq quiet_quality (by decide) [.ofString "RING"]

/-- The successful command is reported as failed. -/
theorem late_error_replaces_answer :
    ¬ ∀ (s s₁ s₂ s₃ s₄ s₅ : State Bool) (thread accepted : Bool)
      (command : Command) (events : List (Event Bool)) (final : Bytes)
      (later : List Bytes),
      s.step (.send thread command accepted) = some s₁ →
      s₁.calls thread = some (.waiting command s.sent) →
      command.Prefixed → (∀ event ∈ events, event.Quiet thread) →
      isFinalResponse final = true →
      follow State.step s₁ events = some s₂ →
      s₂.step (.line final) = some s₃ →
      follow State.step s₃ (later.map Event.line) = some s₄ →
      s₄.step (.wake thread false) = some s₅ →
      Attributed command s.sent
        (intermediateLines s₁.channel (events.filterMap Event.line?)) final
        (treatments s₃.channel later) (s₅.calls thread) := by
  intro hclaim
  have hattributed := hclaim State.opened asking _ _ _ _ true true csq quality
    (.ofString "OK") [.ofString "ERROR"] rfl rfl prefixed_csq quiet_quality
    (by decide) rfl rfl rfl rfl
  exact absurd hattributed.handed (by decide)

end AtAttributionWitness

end AtChannel

end MetaOS
