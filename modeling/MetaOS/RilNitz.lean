/-
hardware/ril/libril/ril.cpp: the network time.

A NITZ message that cannot be sent is kept in `s_lastNITZTimeData` and sent to
the next client that connects.  Vendor threads report the messages, the event
loop accepts and closes connections; a step is what a thread does between two
points where another may come in.  Messages are numbered in the order in which
they come from the radio.
-/
import MetaOS.EventRuns
import Mathlib.Logic.Function.Basic
import Mathlib.Tactic

namespace MetaOS

namespace LibRil

namespace Nitz

open EventRuns

/-- A message, and whether it has at most `MAX_COMMAND_BYTES`. -/
structure Message where
  number : Nat
  fits : Bool
deriving DecidableEq

/-- The clients, in the order in which they are accepted. -/
abbrev Client := Nat

/-- `RIL_onUnsolicitedResponse` with a NITZ message: before it is sent, and
after the send has failed. -/
inductive Reporting where
  | received (message : Message)
  | unsent (message : Message)
deriving DecidableEq

def Reporting.message : Reporting → Message
  | .received message | .unsent message => message

/-- Where the event loop is: between two callbacks, in `listenCallback` after
`accept`, and in `onNewCommandConnect` after it has found a stored message and
after it has sent it. -/
inductive Loop where
  | idle
  | accepted
  | found
  | resent
deriving DecidableEq

structure State (Thread : Type) where
  sFdCommand : Option Client
  /-- a write has failed, and the descriptor is closed -/
  broken : Bool
  accepted : Nat
  loop : Loop
  sLastNITZTimeData : Option Message
  arrived : Nat
  reports : Thread → Option Reporting
  /-- the messages that were sent, and to whom -/
  delivered : List (Client × Nat)
  /-- the messages that could not be sent and were stored -/
  undelivered : List Message

inductive Event (Thread : Type) where
  | report (thread : Thread) (fits : Bool)
  | send (thread : Thread) (ok : Bool)
  | store (thread : Thread)
  | accept
  | reject
  | look
  | resend (ok : Bool)
  | release
  | disconnect
  | writeFails

def State.registered {Thread : Type} : State Thread :=
  ⟨none, false, 0, .idle, none, 0, fun _ => none, [], []⟩

variable {Thread : Type}

/-- `sendResponseRaw`.  A write that fails closes the descriptor. -/
def sendResponseRaw (s : State Thread) (message : Message) :
    (ok : Bool) → Option (State Thread)
  | true =>
      match s.sFdCommand with
      | none => none
      | some client =>
          if s.broken = false ∧ message.fits then
            some { s with
              delivered := s.delivered ++ [(client, message.number)] }
          else none
  | false =>
      some { s with
        broken := s.broken || (s.sFdCommand.isSome && message.fits) }

/-- `onNewCommandConnect` looks at the stored message. -/
def onNewCommandConnect (s : State Thread) : State Thread :=
  { s with
    loop := match s.sLastNITZTimeData with
      | none => .idle
      | some _ => .found }

variable [DecidableEq Thread]

def State.setReport (s : State Thread) (thread : Thread)
    (report : Option Reporting) : State Thread :=
  { s with reports := Function.update s.reports thread report }

def State.step (s : State Thread) : Event Thread → Option (State Thread)
  | .report thread fits =>
      match s.reports thread with
      | none => some { s.setReport thread (some (.received ⟨s.arrived, fits⟩))
          with arrived := s.arrived + 1 }
      | some _ => none
  | .send thread ok =>
      match s.reports thread with
      | some (.received message) =>
          (sendResponseRaw s message ok).map fun s =>
            s.setReport thread (if ok then none else some (.unsent message))
      | _ => none
  | .store thread =>
      match s.reports thread with
      | some (.unsent message) =>
          some { s.setReport thread none with
            sLastNITZTimeData := some message
            undelivered := s.undelivered ++ [message] }
      | _ => none
  | .accept =>
      if s.loop = .idle ∧ s.sFdCommand = none then
        some { s with
          sFdCommand := some s.accepted
          broken := false
          accepted := s.accepted + 1
          loop := .accepted }
      else none
  | .reject =>
      if s.loop = .accepted then
        some { s with sFdCommand := none, loop := .idle }
      else none
  | .look =>
      if s.loop = .accepted then some (onNewCommandConnect s) else none
  | .resend ok =>
      match s.loop, s.sLastNITZTimeData with
      | .found, some message =>
          (sendResponseRaw s message ok).map ({ · with loop := .resent })
      | _, _ => none
  | .release =>
      if s.loop = .resent then
        some { s with sLastNITZTimeData := none, loop := .idle }
      else none
  | .disconnect =>
      if s.loop = .idle ∧ s.sFdCommand ≠ none then
        some { s with sFdCommand := none }
      else none
  | .writeFails => some { s with broken := true }

/-- Messages come in one at a time; none is sent past an older one that is
still to be sent to the client; none is stored while `onNewCommandConnect`
deals with the stored one; and the stored one reaches the client. -/
def Orderly (s : State Thread) : Event Thread → Prop
  | .report _ _ => ∀ thread, s.reports thread = none
  | .send _ true => ∀ message, s.sLastNITZTimeData = some message →
      message.fits = true → s.loop = .resent
  | .store _ => s.loop ≠ .found ∧ s.loop ≠ .resent
  | .resend ok => ok = true
  | _ => True

/-- Messages were sent in the order of their arrival and at most once, to each
client and on the whole, and the last one that could not be sent is still
there or was sent since. -/
structure Delivers (s : State Thread) : Prop where
  order : (s.delivered.map Prod.snd).Pairwise (· < ·)
  perClient (client : Client) :
    ((s.delivered.filter (·.1 = client)).map Prod.snd).Pairwise (· < ·)
  kept (message : Message)
    (hlast : s.undelivered.getLast? = some message) :
    s.sLastNITZTimeData = some message ∨
      message.number ∈ s.delivered.map Prod.snd

/-- What holds in every orderly run. -/
structure State.Ordered (s : State Thread) : Prop where
  below (number : Nat) (hmem : number ∈ s.delivered.map Prod.snd) :
    number < s.arrived
  order : (s.delivered.map Prod.snd).Pairwise (· < ·)
  single (thread other : Thread) (hfirst : s.reports thread ≠ none)
    (hsecond : s.reports other ≠ none) : thread = other
  underWay (thread : Thread) (report : Reporting)
    (hreport : s.reports thread = some report) :
    report.message.number < s.arrived ∧
      (∀ number ∈ s.delivered.map Prod.snd, number < report.message.number) ∧
      ∀ message, s.sLastNITZTimeData = some message →
        message.number < report.message.number
  stored (message : Message) (hstored : s.sLastNITZTimeData = some message) :
    message.number < s.arrived ∧
      s.undelivered.getLast? = some message ∧
      (message.fits = true → s.loop ≠ .resent →
        ∀ number ∈ s.delivered.map Prod.snd, number < message.number)
  resent (hresent : s.loop = .resent) :
    ∃ message, s.sLastNITZTimeData = some message ∧
      message.number ∈ s.delivered.map Prod.snd
  kept (message : Message)
    (hlast : s.undelivered.getLast? = some message) :
    s.sLastNITZTimeData = some message ∨
      message.number ∈ s.delivered.map Prod.snd

section Runs

variable {s s' : State Thread}

omit [DecidableEq Thread] in
theorem registered_ordered :
    (State.registered : State Thread).Ordered := by
  constructor <;> simp [State.registered]

omit [DecidableEq Thread] in
theorem State.Ordered.delivers (hordered : s.Ordered) : Delivers s where
  order := hordered.order
  perClient _ :=
    hordered.order.sublist (List.filter_sublist.map Prod.snd)
  kept := hordered.kept

omit [DecidableEq Thread] in
/-- The connection may come and go. -/
theorem State.Ordered.of_connection (hordered : s.Ordered)
    (hstored : s'.sLastNITZTimeData = s.sLastNITZTimeData)
    (harrived : s'.arrived = s.arrived) (hreports : s'.reports = s.reports)
    (hdelivered : s'.delivered = s.delivered)
    (hundelivered : s'.undelivered = s.undelivered)
    (hloop : s'.loop = .resent ↔ s.loop = .resent) : s'.Ordered := by
  constructor
  · rw [hdelivered, harrived]
    exact hordered.below
  · rw [hdelivered]
    exact hordered.order
  · rw [hreports]
    exact hordered.single
  · rw [hreports, harrived, hdelivered, hstored]
    exact hordered.underWay
  · intro message hmessage
    rw [harrived, hundelivered, hdelivered, Ne, hloop]
    exact hordered.stored message (hstored ▸ hmessage)
  · intro hresent
    rw [hstored, hdelivered]
    exact hordered.resent (hloop.mp hresent)
  · rw [hundelivered, hstored, hdelivered]
    exact hordered.kept

/-- There is no report but that of one thread. -/
def Only (reports : Thread → Option Reporting) (thread : Thread)
    (report : Option Reporting) : Prop :=
  reports thread = report ∧ ∀ other, other ≠ thread → reports other = none

theorem only_update {reports : Thread → Option Reporting} {thread : Thread}
    (hothers : ∀ other, other ≠ thread → reports other = none)
    (report : Option Reporting) :
    Only (Function.update reports thread report) thread report := by
  refine ⟨Function.update_self .., fun other hother => ?_⟩
  rw [Function.update_of_ne hother]
  exact hothers other hother

omit [DecidableEq Thread] in
theorem State.Ordered.others (hordered : s.Ordered) {thread : Thread}
    {report : Reporting} (hreport : s.reports thread = some report)
    (other : Thread) (hother : other ≠ thread) : s.reports other = none := by
  by_contra hsome
  exact hother (hordered.single other thread hsome (by simp [hreport]))

omit [DecidableEq Thread] in
theorem Only.single {reports : Thread → Option Reporting} {thread : Thread}
    {report : Option Reporting} (honly : Only reports thread report)
    (first second : Thread) (hfirst : reports first ≠ none)
    (hsecond : reports second ≠ none) : first = second := by
  have hthread : ∀ other, reports other ≠ none → other = thread := by
    intro other hsome
    by_contra hother
    exact hsome (honly.2 other hother)
  exact (hthread first hfirst).trans (hthread second hsecond).symm

omit [DecidableEq Thread] in
theorem Only.eq {reports : Thread → Option Reporting} {thread other : Thread}
    {report : Option Reporting} {report' : Reporting}
    (honly : Only reports thread report)
    (hreport : reports other = some report') : report = some report' := by
  by_cases hother : other = thread
  · rw [← honly.1, ← hother, hreport]
  · rw [honly.2 other hother] at hreport
    cases hreport

omit [DecidableEq Thread] in
theorem mem_delivered_concat {delivered : List (Client × Nat)}
    {client : Client} {number other : Nat} :
    other ∈ (delivered ++ [(client, number)]).map Prod.snd ↔
      other ∈ delivered.map Prod.snd ∨ other = number := by
  rw [List.map_append, List.mem_append, List.map_singleton,
    List.mem_singleton]

omit [DecidableEq Thread] in
theorem pairwise_delivered_concat {delivered : List (Client × Nat)}
    {client : Client} {number : Nat}
    (horder : (delivered.map Prod.snd).Pairwise (· < ·))
    (hnewest : ∀ other ∈ delivered.map Prod.snd, other < number) :
    ((delivered ++ [(client, number)]).map Prod.snd).Pairwise (· < ·) := by
  rw [List.map_append, List.pairwise_append]
  refine ⟨horder, List.pairwise_singleton _ _, ?_⟩
  intro other hmem last hlast
  obtain rfl : last = number := by simpa using hlast
  exact hnewest other hmem

/-- A message comes in while no other one is under way. -/
theorem report_ordered (hordered : s.Ordered) {thread : Thread} {fits : Bool}
    (hnone : ∀ thread, s.reports thread = none) :
    State.Ordered { s.setReport thread (some (.received ⟨s.arrived, fits⟩))
      with arrived := s.arrived + 1 } := by
  have honly : Only (Function.update s.reports thread
      (some (.received ⟨s.arrived, fits⟩))) thread _ :=
    only_update (fun other _ => hnone other) _
  constructor
  · exact fun number hmem =>
      (hordered.below number hmem).trans_le (Nat.le_succ _)
  · exact hordered.order
  · exact honly.single
  · intro other report hreport
    obtain rfl := Option.some_inj.mp (honly.eq hreport)
    exact ⟨Nat.lt_succ_self _, hordered.below,
      fun message hmessage => (hordered.stored message hmessage).1⟩
  · intro message hmessage
    obtain ⟨hlt, hlast, hnewer⟩ := hordered.stored message hmessage
    exact ⟨hlt.trans (Nat.lt_succ_self _), hlast, hnewer⟩
  · exact hordered.resent
  · exact hordered.kept

/-- A message is sent, and no older one is still to be sent. -/
theorem sent_ordered (hordered : s.Ordered) {thread : Thread}
    {message : Message} {client : Client}
    (hreport : s.reports thread = some (.received message))
    (hpast : ∀ older, s.sLastNITZTimeData = some older →
      older.fits = true → s.loop = .resent) :
    State.Ordered { s.setReport thread none with
      delivered := s.delivered ++ [(client, message.number)] } := by
  obtain ⟨hbelow, hnewest, -⟩ := hordered.underWay thread _ hreport
  have honly := only_update (hordered.others hreport) none
  constructor
  · intro number hmem
    rcases mem_delivered_concat.mp hmem with hold | rfl
    · exact hordered.below number hold
    · exact hbelow
  · exact pairwise_delivered_concat hordered.order hnewest
  · exact honly.single
  · intro other report hother
    cases honly.eq hother
  · intro older holder
    obtain ⟨hlt, hlast, -⟩ := hordered.stored older holder
    exact ⟨hlt, hlast, fun hfits hloop =>
      absurd (hpast older holder hfits) hloop⟩
  · intro hresent
    obtain ⟨older, holder, hsent⟩ := hordered.resent hresent
    exact ⟨older, holder, mem_delivered_concat.mpr (.inl hsent)⟩
  · intro last hlast
    exact (hordered.kept last hlast).imp id fun hsent =>
      mem_delivered_concat.mpr (.inl hsent)

/-- A message could not be sent. -/
theorem unsent_ordered (hordered : s.Ordered) {thread : Thread}
    {message : Message} {broken : Bool}
    (hreport : s.reports thread = some (.received message)) :
    State.Ordered { s.setReport thread (some (.unsent message)) with
      broken := broken } := by
  have honly := only_update (hordered.others hreport)
    (some (.unsent message))
  refine ⟨hordered.below, hordered.order, honly.single, ?_,
    hordered.stored, hordered.resent, hordered.kept⟩
  intro other report hother
  obtain rfl := Option.some_inj.mp (honly.eq hother)
  have hunderWay := hordered.underWay thread _ hreport
  exact hunderWay

/-- A message that could not be sent is stored. -/
theorem store_ordered (hordered : s.Ordered) {thread : Thread}
    {message : Message}
    (hreport : s.reports thread = some (.unsent message))
    (hloop : s.loop ≠ .resent) :
    State.Ordered { s.setReport thread none with
      sLastNITZTimeData := some message
      undelivered := s.undelivered ++ [message] } := by
  obtain ⟨hbelow, hnewest, -⟩ := hordered.underWay thread _ hreport
  have honly := only_update (hordered.others hreport) none
  refine ⟨hordered.below, hordered.order, honly.single, ?_, ?_, ?_, ?_⟩
  · intro other report hother
    cases honly.eq hother
  · intro stored hstored
    obtain rfl := Option.some_inj.mp hstored
    exact ⟨hbelow, List.getLast?_concat, fun _ _ => hnewest⟩
  · exact fun hresent => absurd hresent hloop
  · intro last hlast
    left
    rw [← hlast]
    exact List.getLast?_concat.symm

omit [DecidableEq Thread] in
/-- The stored message is sent to the client that has connected. -/
theorem resent_ordered (hordered : s.Ordered) {message : Message}
    {client : Client} (hstored : s.sLastNITZTimeData = some message)
    (hfits : message.fits = true) (hloop : s.loop = .found) :
    State.Ordered { s with
      delivered := s.delivered ++ [(client, message.number)]
      loop := .resent } := by
  obtain ⟨hbelow, hlast, hnewest⟩ := hordered.stored message hstored
  constructor
  · intro number hmem
    rcases mem_delivered_concat.mp hmem with hold | rfl
    · exact hordered.below number hold
    · exact hbelow
  · exact pairwise_delivered_concat hordered.order
      (hnewest hfits (by simp [hloop]))
  · exact hordered.single
  · intro thread report hreport
    obtain ⟨hlt, hsent, holder⟩ := hordered.underWay thread report hreport
    refine ⟨hlt, ?_, holder⟩
    intro number hmem
    rcases mem_delivered_concat.mp hmem with hold | rfl
    · exact hsent number hold
    · exact holder message hstored
  · intro stored hstored'
    obtain ⟨hlt, hlast', -⟩ := hordered.stored stored hstored'
    exact ⟨hlt, hlast', fun _ hnot => absurd rfl hnot⟩
  · exact fun _ => ⟨message, hstored, mem_delivered_concat.mpr (.inr rfl)⟩
  · intro last hlast'
    exact (hordered.kept last hlast').imp id fun hsent =>
      mem_delivered_concat.mpr (.inl hsent)

omit [DecidableEq Thread] in
/-- The stored message is released after it was sent. -/
theorem release_ordered (hordered : s.Ordered) (hloop : s.loop = .resent) :
    State.Ordered { s with sLastNITZTimeData := none, loop := .idle } := by
  obtain ⟨message, hstored, hsent⟩ := hordered.resent hloop
  refine ⟨hordered.below, hordered.order, hordered.single, ?_, ?_, ?_, ?_⟩
  · intro thread report hreport
    obtain ⟨hlt, hnewest, -⟩ := hordered.underWay thread report hreport
    exact ⟨hlt, hnewest, by simp⟩
  · simp
  · simp
  · intro last hlast
    right
    have hsame : message = last := by
      rw [(hordered.stored message hstored).2.1] at hlast
      exact Option.some_inj.mp hlast
    exact hsame ▸ hsent

omit [DecidableEq Thread] in
/-- What `sendResponseRaw` can do. -/
theorem sendResponseRaw_cases {message : Message} {ok : Bool}
    (hsend : sendResponseRaw s message ok = some s') :
    (ok = true ∧ message.fits = true ∧ ∃ client, s' = { s with
      delivered := s.delivered ++ [(client, message.number)] }) ∨
    (ok = false ∧ ∃ broken, s' = { s with broken := broken }) := by
  cases ok with
  | true =>
      left
      unfold sendResponseRaw at hsend
      dsimp only at hsend
      split at hsend
      next => cases hsend
      next client hclient =>
        split at hsend
        next hfits =>
          exact ⟨rfl, hfits.2, client, (Option.some_inj.mp hsend).symm⟩
        next => cases hsend
  | false => exact .inr ⟨rfl, _, (Option.some_inj.mp hsend).symm⟩

theorem step_ordered {event : Event Thread} (hordered : s.Ordered)
    (horderly : Orderly s event) (hstep : s.step event = some s') :
    s'.Ordered := by
  cases event with
  | report thread fits =>
      unfold State.step at hstep
      dsimp only at hstep
      split at hstep
      next =>
        rw [← Option.some_inj.mp hstep]
        exact report_ordered hordered horderly
      next => cases hstep
  | send thread ok =>
      unfold State.step at hstep
      dsimp only at hstep
      split at hstep
      next message hreport =>
        obtain ⟨middle, hsend, rfl⟩ := Option.map_eq_some_iff.mp hstep
        obtain ⟨rfl, -, client, rfl⟩ | ⟨rfl, broken, rfl⟩ :=
          sendResponseRaw_cases hsend
        · exact sent_ordered hordered hreport horderly
        · exact unsent_ordered hordered hreport
      next => cases hstep
  | store thread =>
      unfold State.step at hstep
      dsimp only at hstep
      split at hstep
      next message hreport =>
        rw [← Option.some_inj.mp hstep]
        exact store_ordered hordered hreport horderly.2
      next => cases hstep
  | accept =>
      obtain ⟨⟨hidle, -⟩, hnext⟩ := Option.ite_none_right_eq_some.mp hstep
      rw [← Option.some_inj.mp hnext]
      exact hordered.of_connection rfl rfl rfl rfl rfl (by simp [hidle])
  | reject =>
      obtain ⟨haccepted, hnext⟩ := Option.ite_none_right_eq_some.mp hstep
      rw [← Option.some_inj.mp hnext]
      exact hordered.of_connection rfl rfl rfl rfl rfl (by simp [haccepted])
  | look =>
      obtain ⟨haccepted, hnext⟩ := Option.ite_none_right_eq_some.mp hstep
      rw [← Option.some_inj.mp hnext]
      refine hordered.of_connection rfl rfl rfl rfl rfl ?_
      unfold onNewCommandConnect
      cases s.sLastNITZTimeData <;> simp [haccepted]
  | resend ok =>
      unfold State.step at hstep
      dsimp only at hstep
      split at hstep
      next message hloop hstored =>
        obtain ⟨middle, hsend, rfl⟩ := Option.map_eq_some_iff.mp hstep
        obtain ⟨-, hfits, client, rfl⟩ | ⟨hfailed, -⟩ :=
          sendResponseRaw_cases hsend
        · exact resent_ordered hordered hstored hfits hloop
        · rw [show ok = true from horderly] at hfailed
          cases hfailed
      next => cases hstep
  | release =>
      obtain ⟨hresent, hnext⟩ := Option.ite_none_right_eq_some.mp hstep
      rw [← Option.some_inj.mp hnext]
      exact release_ordered hordered hresent
  | disconnect =>
      obtain ⟨-, hnext⟩ := Option.ite_none_right_eq_some.mp hstep
      rw [← Option.some_inj.mp hnext]
      exact hordered.of_connection rfl rfl rfl rfl rfl Iff.rfl
  | writeFails =>
      rw [← Option.some_inj.mp hstep]
      exact hordered.of_connection rfl rfl rfl rfl rfl Iff.rfl

/-- In every orderly run, whatever clients come and go and whichever sends
fail: messages are sent in the order of their arrival, and none is lost that
could not be sent. -/
theorem reach_delivers
    (hreach : Reach State.step Orderly State.registered s) : Delivers s := by
  have hordered : s.Ordered :=
    hreach.invariant State.Ordered
      (fun _ _ _ hordered => step_ordered hordered) registered_ordered
  exact hordered.delivers

end Runs

namespace RilNitzWitness

/-- A message comes in before there is a client, and is sent when one
connects. -/
def missed : List (Event Unit) :=
  [.report () true, .send () false, .store (), .accept, .look, .resend true,
    .release]

def caughtUp : State Unit :=
  (follow State.step State.registered missed).getD State.registered

theorem caughtUp_delivers :
    caughtUp.delivered = [(0, 0)] ∧ Delivers caughtUp := by
  have hreach : Reach State.step Orderly State.registered caughtUp := by
    refine Reach.head (.report () true) (fun _ => rfl) rfl ?_
    refine Reach.head (.send () false) trivial rfl ?_
    refine Reach.head (.store ()) ⟨by decide, by decide⟩ rfl ?_
    refine Reach.head .accept trivial rfl ?_
    refine Reach.head .look trivial rfl ?_
    refine Reach.head (.resend true) rfl rfl ?_
    exact Reach.head .release trivial rfl Reach.refl
  exact ⟨rfl, reach_delivers hreach⟩

/-- A second message comes in between the accept and the look at the stored
one. -/
def overtaken : List (Event Unit) :=
  [.report () true, .send () false, .store (), .accept, .report () true,
    .send () true, .look, .resend true]

/-- The client is sent the newer message first. -/
theorem overtaken_out_of_order :
    ¬ ∀ s : State Unit, Runs State.step State.registered s → Delivers s := by
  intro hclaim
  have hruns : Runs State.step State.registered
      ((follow State.step (State.registered : State Unit) overtaken).getD
        State.registered) :=
    runs_of_follow overtaken Reach.refl rfl
  have horder := (hclaim _ hruns).order
  exact absurd horder (by decide)

end RilNitzWitness

end Nitz

end LibRil

end MetaOS
