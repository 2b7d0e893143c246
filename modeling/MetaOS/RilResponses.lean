/-
Answers and connections: an answer goes to the connection on which its
request came, as long as no answer is under way while the event loop closes
the connection.
-/
import MetaOS.RilConnection

namespace MetaOS

namespace LibRil

open EventRuns

variable {Thread : Type}

/-- The answer to a request is under way: the request has been dequeued, and
its answer is not written to the end. -/
def State.InFlight (s : State Thread) (request : RequestInfo) : Prop :=
  ∃ thread sending, s.senders thread = some sending ∧
    sending.request = some request

/-- A request of a client that is not cancelled. -/
def RequestInfo.Live (request : RequestInfo) : Prop :=
  request.isLocal = false ∧ request.cancelled = false

/-- The event loop does not close the connection while an answer is under way,
and no answer gets under way while it closes the connection. -/
def Undisturbed (s : State Thread) : Event Thread → Prop
  | .commandsEnd => ∀ request, ¬ s.InFlight request
  | .complete _ serial => (∃ relisten, s.loop = .closing relisten) →
      ∀ request ∈ s.sPendingRequests, request.serial = serial →
        ¬ request.Live
  | _ => True

/-- Between two clients: no request is live and no answer is under way. -/
def State.Settled (s : State Thread) : Prop :=
  (∀ request ∈ s.sPendingRequests, ¬ request.Live) ∧
    ∀ request, ¬ s.InFlight request

/-- What holds of the requests and the connection in every run in which
answers are not disturbed. -/
structure State.Answering (s : State Thread) : Prop where
  pending (request : RequestInfo) (hmem : request ∈ s.sPendingRequests)
    (hlive : request.Live) : request.conn + 1 = s.accepted
  flying (request : RequestInfo) (hflying : s.InFlight request) :
    request.conn + 1 = s.accepted
  table (fd : Fd) (conn : Conn) (hopen : s.table fd = some conn) :
    conn + 1 = s.accepted ∧ s.sFdCommand = some fd
  watched (fd : Fd) (hwatched : s.sCommandsEvent = some fd) :
    s.sListenEvent = false ∧ (s.loop = .idle ∨ s.loop = .aborted)
  listening (hlisten : s.sListenEvent = true) :
    s.sFdCommand = none ∧ (s.loop = .idle → s.Settled) ∧
      s.loop ≠ .accepted
  accepting (haccepted : s.loop = .accepted) : s.Settled
  closing (relisten : Bool) (hclosing : s.loop = .closing relisten) :
    s.sFdCommand = none ∧ ∀ request, ¬ s.InFlight request
  written (request : RequestInfo) (conn : Conn)
    (hwritten : (request, conn) ∈ s.written) : conn = request.conn

section Callbacks

variable {s s' : State Thread}

theorem registered_answering : (State.registered : State Thread).Answering := by
  have hnone : ∀ request,
      ¬ (State.registered : State Thread).InFlight request := by
    rintro request ⟨thread, sending, hsome, -⟩
    cases hsome
  constructor
  · simp [State.registered]
  · exact fun request hflying => absurd hflying (hnone request)
  · simp [State.registered]
  · simp [State.registered]
  · exact fun _ => ⟨rfl, fun _ => ⟨by simp [State.registered], hnone⟩,
      by simp [State.registered]⟩
  · simp [State.registered]
  · simp [State.registered]
  · simp [State.registered]

/-- There is no open descriptor but that of the client. -/
theorem State.Answering.close_empty (hanswering : s.Answering) (fd : Fd) :
    (s.close s.sFdCommand).table fd = none := by
  cases hopen : s.table fd with
  | none =>
      cases s.sFdCommand with
      | none => exact hopen
      | some fd' =>
          by_cases heq : fd = fd' <;> simp [State.close, heq, ← hopen]
  | some conn =>
      rw [(hanswering.table fd conn hopen).2]
      simp [State.close]

/-- A step that drops requests, answers or descriptors. -/
structure Shrinks (s s' : State Thread) : Prop where
  pending (request : RequestInfo) (hmem : request ∈ s'.sPendingRequests)
    (hlive : request.Live) : request ∈ s.sPendingRequests
  flying (request : RequestInfo) (hflying : s'.InFlight request) :
    s.InFlight request
  table (fd : Fd) (conn : Conn) (hopen : s'.table fd = some conn) :
    s.table fd = some conn
  same : s'.sFdCommand = s.sFdCommand ∧
    s'.sCommandsEvent = s.sCommandsEvent ∧
    s'.sListenEvent = s.sListenEvent ∧ s'.loop = s.loop ∧
    s'.accepted = s.accepted

theorem State.Settled.shrinks (hsettled : s.Settled) (hshrinks : Shrinks s s') :
    s'.Settled := by
  constructor
  · intro request hmem hlive
    exact hsettled.1 request (hshrinks.pending request hmem hlive) hlive
  · intro request hflying
    exact hsettled.2 request (hshrinks.flying request hflying)

theorem State.Answering.shrinks (hanswering : s.Answering)
    (hshrinks : Shrinks s s')
    (hwritten : ∀ request conn, (request, conn) ∈ s'.written →
      (request, conn) ∈ s.written ∨ conn = request.conn) :
    s'.Answering := by
  obtain ⟨hfd, hevent, hlisten, hloop, haccepted⟩ := hshrinks.same
  constructor
  · intro request hmem hlive
    rw [haccepted]
    exact hanswering.pending request (hshrinks.pending request hmem hlive) hlive
  · intro request hflying
    rw [haccepted]
    exact hanswering.flying request (hshrinks.flying request hflying)
  · intro fd conn hopen
    rw [haccepted, hfd]
    exact hanswering.table fd conn (hshrinks.table fd conn hopen)
  · intro fd hwatched
    rw [hlisten, hloop]
    exact hanswering.watched fd (hevent ▸ hwatched)
  · intro hlistening
    rw [hfd, hloop]
    obtain ⟨hnone, hsettled, hnot⟩ :=
      hanswering.listening (hlisten ▸ hlistening)
    exact ⟨hnone, fun hidle => (hsettled hidle).shrinks hshrinks, hnot⟩
  · intro hloop'
    exact (hanswering.accepting (hloop ▸ hloop')).shrinks hshrinks
  · intro relisten hloop'
    obtain ⟨hnone, hquiet⟩ := hanswering.closing relisten (hloop ▸ hloop')
    exact ⟨hfd.trans hnone, fun request hflying =>
      hquiet request (hshrinks.flying request hflying)⟩
  · intro request conn hmem
    rcases hwritten request conn hmem with hold | hnew
    · exact hanswering.written request conn hold
    · exact hnew

theorem listenCallback_answering {fd : Option Fd} (hanswering : s.Answering)
    (hidle : s.loop = .idle) (hlisten : s.sListenEvent = true)
    (hstep : listenCallback s fd = some s') : s'.Answering := by
  obtain ⟨hfd, hsettled, -⟩ := hanswering.listening hlisten
  unfold listenCallback at hstep
  rw [if_neg (by simp [hfd])] at hstep
  cases fd with
  | none =>
      rw [← Option.some_inj.mp hstep]
      exact hanswering
  | some fd =>
      dsimp only at hstep
      split at hstep
      next => cases hstep
      next =>
        rw [← Option.some_inj.mp hstep]
        obtain ⟨hpending, hflying⟩ := hsettled hidle
        constructor
        · exact fun request hmem hlive =>
            absurd hlive (hpending request hmem)
        · exact fun request hfly => absurd hfly (hflying request)
        · intro fd' conn hopen
          by_cases heq : fd' = fd
          · subst heq
            simp only [Function.update_self, Option.some.injEq] at hopen
            exact ⟨by rw [hopen], rfl⟩
          · dsimp only at hopen
            rw [Function.update_of_ne heq] at hopen
            have hcommand := (hanswering.table fd' conn hopen).2
            rw [hfd] at hcommand
            cases hcommand
        · intro fd' hwatched
          have hnot := (hanswering.watched fd' hwatched).1
          rw [hlisten] at hnot
          cases hnot
        · intro hlisten'
          cases hlisten'
        · exact fun _ => ⟨hpending, hflying⟩
        · intro relisten hclosing
          cases hclosing
        · exact hanswering.written

theorem checkCredentials_answering {isPhone : Bool}
    (hanswering : s.Answering) (haccepted : s.loop = .accepted) :
    (checkCredentials s isPhone).Answering := by
  have hlisten : s.sListenEvent = false := by
    rw [← Bool.not_eq_true]
    exact fun hlisten => (hanswering.listening hlisten).2.2 haccepted
  obtain ⟨hpending, hflying⟩ := hanswering.accepting haccepted
  unfold checkCredentials
  split
  next =>
    constructor
    · exact hanswering.pending
    · exact hanswering.flying
    · exact hanswering.table
    · exact fun fd _ => ⟨hlisten, .inl rfl⟩
    · intro hlisten'
      exact absurd (hlisten.symm.trans hlisten') (by simp)
    · intro hloop
      cases hloop
    · intro relisten hclosing
      cases hclosing
    · exact hanswering.written
  next =>
    constructor
    · exact fun request hmem hlive => absurd hlive (hpending request hmem)
    · exact fun request hfly => absurd hfly (hflying request)
    · intro fd conn hopen
      exact absurd ((hanswering.close_empty fd).symm.trans hopen) (by simp)
    · intro fd hwatched
      have hloop := (hanswering.watched fd hwatched).2
      rw [haccepted] at hloop
      simp at hloop
    · intro hlisten'
      exact absurd (hlisten.symm.trans hlisten') (by simp)
    · intro hloop
      cases hloop
    · exact fun relisten _ => ⟨rfl, hflying⟩
    · exact hanswering.written

theorem processCommandsCallback_answering {fd : Fd} {ended : Bool}
    (hanswering : s.Answering) (hidle : s.loop = .idle)
    (hwatched : s.sCommandsEvent = some fd)
    (hquiet : ended = true → ∀ request, ¬ s.InFlight request)
    (hstep : processCommandsCallback s fd ended = some s') :
    s'.Answering := by
  have hlisten := (hanswering.watched fd hwatched).1
  unfold processCommandsCallback at hstep
  split at hstep
  next =>
    rw [← Option.some_inj.mp hstep]
    constructor
    · exact hanswering.pending
    · exact hanswering.flying
    · exact hanswering.table
    · exact fun fd _ => ⟨hlisten, .inr rfl⟩
    · intro hlisten'
      exact absurd (hlisten.symm.trans hlisten') (by simp)
    · intro hloop
      cases hloop
    · intro relisten hclosing
      cases hclosing
    · exact hanswering.written
  next hcommand =>
    rw [ne_eq, not_not] at hcommand
    split at hstep
    next hended =>
      rw [← Option.some_inj.mp hstep]
      constructor
      · exact hanswering.pending
      · exact hanswering.flying
      · intro fd' conn hopen
        have hempty := hanswering.close_empty fd'
        rw [hcommand] at hempty
        exact absurd (hempty.symm.trans hopen) (by simp)
      · intro fd' hwatched'
        cases hwatched'
      · refine fun _ => ⟨rfl, ?_, ?_⟩
        · intro hloop
          cases hloop
        · intro hloop
          cases hloop
      · intro hloop
        cases hloop
      · exact fun relisten _ => ⟨rfl, hquiet hended⟩
      · exact hanswering.written
    next =>
      split at hstep
      next => cases hstep
      next conn hopen =>
        rw [← Option.some_inj.mp hstep]
        constructor
        · intro request hmem hlive
          rcases List.mem_cons.mp hmem with rfl | hmem
          · exact (hanswering.table fd conn hopen).1
          · exact hanswering.pending request hmem hlive
        · exact hanswering.flying
        · exact hanswering.table
        · exact hanswering.watched
        · intro hlisten'
          exact absurd (hlisten.symm.trans hlisten') (by simp)
        · intro hloop
          exact absurd (hidle.symm.trans hloop) (by simp)
        · exact hanswering.closing
        · exact hanswering.written

theorem onCommandsSocketClosed_answering {relisten : Bool}
    (hanswering : s.Answering) (hclosing : s.loop = .closing relisten) :
    (onCommandsSocketClosed s relisten).Answering := by
  obtain ⟨hfd, hflying⟩ := hanswering.closing relisten hclosing
  have hmarked :
      ∀ request ∈ (onCommandsSocketClosed s relisten).sPendingRequests,
        ¬ request.Live := by
    intro request hmem hlive
    obtain ⟨old, -, rfl⟩ := List.mem_map.mp hmem
    cases hlive.2
  constructor
  · exact fun request hmem hlive => absurd hlive (hmarked request hmem)
  · exact hanswering.flying
  · exact hanswering.table
  · intro fd hwatched
    have hloop := (hanswering.watched fd hwatched).2
    rw [hclosing] at hloop
    simp at hloop
  · exact fun _ => ⟨hfd, fun _ => ⟨hmarked, hflying⟩,
      by simp [onCommandsSocketClosed]⟩
  · intro hloop
    cases hloop
  · intro relisten' hloop
    cases hloop
  · exact hanswering.written

theorem issueLocalRequest_shrinks : Shrinks s (issueLocalRequest s) where
  pending request hmem hlive := by
    rcases List.mem_cons.mp hmem with rfl | hmem
    · cases hlive.1
    · exact hmem
  flying _ hflying := hflying
  table _ _ hopen := hopen
  same := ⟨rfl, rfl, rfl, rfl, rfl⟩

theorem State.Answering.issueLocal (hanswering : s.Answering) :
    (issueLocalRequest s).Answering :=
  hanswering.shrinks issueLocalRequest_shrinks fun _ _ hmem => .inl hmem

theorem debugCallback_answering {option : Int} (hanswering : s.Answering)
    (hidle : s.loop = .idle) : (debugCallback s option).Answering := by
  unfold debugCallback
  split
  next =>
    have hlocal := hanswering.issueLocal
    constructor
    · exact hlocal.pending
    · exact hlocal.flying
    · intro fd conn hopen
      exact absurd ((hlocal.close_empty fd).symm.trans hopen) (by simp)
    · exact hlocal.watched
    · intro hlisten
      exact ⟨rfl, (hlocal.listening hlisten).2⟩
    · intro hloop
      exact absurd (hidle.symm.trans hloop) (by simp)
    · intro relisten hclosing
      exact absurd (hidle.symm.trans hclosing) (by simp)
    · exact hlocal.written
  next =>
    split
    next => exact hanswering.issueLocal.issueLocal
    next =>
      split
      next => exact hanswering.issueLocal
      next => exact hanswering

end Callbacks

section Senders

variable [DecidableEq Thread] {s s' : State Thread} {thread : Thread}

/-- Another thread's answers stay under way. -/
theorem inFlight_setSender {sending : Option Sending} {request : RequestInfo}
    (hflying : (s.setSender thread sending).InFlight request) :
    s.InFlight request ∨
      ∃ new, sending = some new ∧ new.request = some request := by
  obtain ⟨other, new, hnew, hrequest⟩ := hflying
  by_cases hother : other = thread
  · subst hother
    simp only [State.setSender, Function.update_self] at hnew
    exact .inr ⟨new, hnew, hrequest⟩
  · simp only [State.setSender] at hnew
    rw [Function.update_of_ne hother] at hnew
    exact .inl ⟨other, new, hnew, hrequest⟩

/-- A thread goes on with its answer or leaves it. -/
theorem setSender_shrinks {sending : Option Sending}
    (hsending : ∀ new request, sending = some new →
      new.request = some request → s.InFlight request) :
    Shrinks s (s.setSender thread sending) where
  pending _ hmem _ := hmem
  flying request hflying := by
    rcases inFlight_setSender hflying with hold | ⟨new, hnew, hrequest⟩
    · exact hold
    · exact hsending new request hnew hrequest
  table _ _ hopen := hopen
  same := ⟨rfl, rfl, rfl, rfl, rfl⟩

/-- The answer to a request of the client gets under way. -/
theorem State.Answering.takesOff (hanswering : s.Answering)
    {request : RequestInfo} (hconn : request.conn + 1 = s.accepted)
    (hlistening : s.sListenEvent = true → s.loop ≠ .idle)
    (haccepted : s.loop ≠ .accepted)
    (hclosing : ∀ relisten, s.loop ≠ .closing relisten) :
    (s.setSender thread (some (.ready (some request)))).Answering := by
  constructor
  · exact hanswering.pending
  · intro other hflying
    rcases inFlight_setSender hflying with hold | ⟨new, hnew, hrequest⟩
    · exact hanswering.flying other hold
    · rw [← Option.some_inj.mp hnew] at hrequest
      rw [← Option.some_inj.mp hrequest]
      exact hconn
  · exact hanswering.table
  · exact hanswering.watched
  · intro hlisten
    exact ⟨(hanswering.listening hlisten).1,
      fun hidle => absurd hidle (hlistening hlisten), haccepted⟩
  · exact fun hloop => absurd hloop haccepted
  · exact fun relisten hloop => absurd hloop (hclosing relisten)
  · exact hanswering.written

theorem onRequestComplete_answering {serial : Nat}
    (hanswering : s.Answering)
    (hundisturbed : Undisturbed s (.complete thread serial)) :
    (onRequestComplete s thread serial).Answering := by
  unfold onRequestComplete
  split
  next => exact hanswering
  next request hfind =>
    have hmem := List.mem_of_find?_eq_some hfind
    have hserial : request.serial = serial := by
      simpa using List.find?_some hfind
    have herased : State.Answering { s with
        sPendingRequests := s.sPendingRequests.erase request } := by
      refine hanswering.shrinks ?_ fun _ _ => .inl
      exact ⟨fun other hother _ => List.mem_of_mem_erase hother,
        fun _ hflying => hflying, fun _ _ hopen => hopen, rfl, rfl, rfl, rfl,
        rfl⟩
    dsimp only
    split
    next => exact herased
    next hlive =>
      replace hlive : request.Live := by
        rw [not_or, Bool.not_eq_true, Bool.not_eq_true] at hlive
        exact hlive
      apply herased.takesOff
      · exact hanswering.pending request hmem hlive
      · intro hlisten hidle
        have hsettled := (hanswering.listening hlisten).2.1 hidle
        exact hsettled.1 request hmem hlive
      · intro haccepted
        exact (hanswering.accepting haccepted).1 request hmem hlive
      · intro relisten hclosing
        exact hundisturbed ⟨relisten, hclosing⟩ request hmem hserial hlive

/-- A write reaches the connection on which the request came. -/
theorem blockingWrite_answering {request : Option RequestInfo} {fd : Fd}
    {result : WriteResult} (hanswering : s.Answering)
    (hwriting : s.senders thread = some (.writing request fd))
    (hstep : blockingWrite s thread request fd result = some s') :
    s'.Answering := by
  have hclear : ∀ (new : Sending) (other : RequestInfo),
      (none : Option Sending) = some new → new.request = some other →
      s.InFlight other := by
    intro new other hnone
    cases hnone
  unfold blockingWrite at hstep
  split at hstep
  next =>
    rw [← Option.some_inj.mp hstep]
    refine hanswering.shrinks
      ⟨?_, ?_, ?_, rfl, rfl, rfl, rfl, rfl⟩ fun _ _ => .inl
    · exact fun _ hmem _ => hmem
    · exact (setSender_shrinks hclear).flying
    · intro fd' conn hopen
      by_cases heq : fd' = fd
      · subst heq
        simp [State.unlock, State.setSender, State.close] at hopen
      · simpa [State.unlock, State.setSender, State.close, heq] using hopen
  next => cases hstep
  next conn _ hopen =>
    rw [← Option.some_inj.mp hstep]
    -- An answer under way belongs to the client whose descriptor is open.
    have hlogged : ∀ other conn', (other, conn') ∈
        (request.toList.map fun r => (r, conn)) ++ s.written →
        (other, conn') ∈ s.written ∨ conn' = other.conn := by
      intro other conn' hmem
      rcases List.mem_append.mp hmem with hnew | hold
      · right
        obtain ⟨r, hr, hpair⟩ := List.mem_map.mp hnew
        obtain ⟨rfl, rfl⟩ := Prod.mk.inj hpair
        have hflying : s.InFlight r :=
          ⟨thread, _, hwriting, by simpa [Sending.request] using hr⟩
        have hconn := hanswering.flying r hflying
        have htable := (hanswering.table fd conn hopen).1
        exact Nat.add_right_cancel (htable.trans hconn.symm)
      · exact .inl hold
    split
    next =>
      refine hanswering.shrinks ?_ hlogged
      exact ⟨fun _ hmem _ => hmem, (setSender_shrinks hclear).flying,
        fun _ _ htable => htable, rfl, rfl, rfl, rfl, rfl⟩
    next =>
      refine hanswering.shrinks ?_ hlogged
      exact ⟨fun _ hmem _ => hmem, fun _ hflying => hflying,
        fun _ _ htable => htable, rfl, rfl, rfl, rfl, rfl⟩

theorem step_answering {event : Event Thread} (hanswering : s.Answering)
    (hundisturbed : Undisturbed s event) (hstep : s.step event = some s') :
    s'.Answering := by
  cases step_moves hstep with
  | listen hidle hwatched hmoves =>
      exact listenCallback_answering hanswering hidle hwatched hmoves
  | credentials haccepted =>
      exact checkCredentials_answering hanswering haccepted
  | command hidle hwatched hmoves =>
      exact processCommandsCallback_answering hanswering hidle hwatched
        (by simp) hmoves
  | commandsEnd hidle hwatched hmoves =>
      exact processCommandsCallback_answering hanswering hidle hwatched
        (fun _ => hundisturbed) hmoves
  | socketClosed hclosing =>
      exact onCommandsSocketClosed_answering hanswering hclosing
  | debug hidle => exact debugCallback_answering hanswering hidle
  | complete => exact onRequestComplete_answering hanswering hundisturbed
  | indicate =>
      apply hanswering.shrinks (setSender_shrinks ?_) fun _ _ => .inl
      rintro new request hnew hrequest
      rw [← Option.some_inj.mp hnew] at hrequest
      cases hrequest
  | fetch hready =>
      apply hanswering.shrinks (setSender_shrinks ?_) fun _ _ => .inl
      rintro new other hnew hother
      obtain ⟨fd, -, rfl⟩ := Option.map_eq_some_iff.mp hnew
      exact ⟨_, _, hready, hother⟩
  | @lock thread request fd hfetched =>
      have hkept : Shrinks s
          (s.setSender thread (some (.writing request fd))) := by
        apply setSender_shrinks
        rintro new other hnew hother
        rw [← Option.some_inj.mp hnew] at hother
        exact ⟨thread, _, hfetched, hother⟩
      exact hanswering.shrinks ⟨hkept.pending, hkept.flying, hkept.table,
        hkept.same⟩ fun _ _ => .inl
  | write hwriting hmoves =>
      exact blockingWrite_answering hanswering hwriting hmoves

/-- In every run in which no answer is under way while the event loop closes
the connection, an answer is written only to the connection on which its
request came. -/
theorem reach_answers_own_connection
    (hreach : Reach State.step Undisturbed State.registered s)
    {request : RequestInfo} {conn : Conn}
    (hwritten : (request, conn) ∈ s.written) : conn = request.conn :=
  (hreach.invariant State.Answering (fun _ _ _ => step_answering)
    registered_answering).written request conn hwritten

end Senders

namespace RilResponsesWitness

/-- A client sends a request, and a vendor thread answers it. -/
def answering : List (Event Bool) :=
  [.listen (some 7), .credentials true, .command, .complete true 0,
    .fetch true, .lock true, .write true .done]

/-- The client goes and another comes, between the moment the thread has
dequeued the request and the moment it reads the descriptor. -/
def crossing : List (Event Bool) :=
  [.listen (some 7), .credentials true, .command, .complete true 0,
    .commandsEnd, .socketClosed, .listen (some 7), .credentials true,
    .fetch true, .lock true, .write true .done]

def last (events : List (Event Bool)) : State Bool :=
  (follow State.step State.registered events).getD State.registered

def request : RequestInfo := ⟨0, 0, false, false⟩

theorem answering_reachable :
    Reach State.step Undisturbed State.registered (last answering) :=
  ((((((Reach.refl.tail (.listen (some 7)) trivial rfl).tail
    (.credentials true) trivial rfl).tail .command trivial rfl).tail
    (.complete true 0) (by rintro ⟨_, hclosing⟩; cases hclosing) rfl).tail
    (.fetch true) trivial rfl).tail (.lock true) trivial rfl).tail
    (.write true .done) trivial rfl

theorem answering_own_connection :
    (request, 0) ∈ (last answering).written ∧ 0 = request.conn :=
  have hwritten : (request, 0) ∈ (last answering).written := by decide
  ⟨hwritten, reach_answers_own_connection answering_reachable hwritten⟩

theorem crossing_later_connection :
    ¬ ∀ s : State Bool, Runs State.step State.registered s →
      ∀ request conn, (request, conn) ∈ s.written → ¬ request.conn < conn := by
  intro hclaim
  have hruns : Runs State.step State.registered (last crossing) :=
    runs_of_follow crossing Reach.refl rfl
  have hnot := hclaim _ hruns request 1 (by decide)
  exact hnot (by decide)

end RilResponsesWitness

end LibRil

end MetaOS
