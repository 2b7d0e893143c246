/-
hardware/ril/libril/ril.cpp: the wake lock that unsolicited responses take, and
the timer that lets go of it.

Vendor threads report one response after the other; the timers come from the
event loop, also while a response is being handled.  Times are numbers of
microseconds.  What a response sends has no part in this, only whether its
response function takes the data.
-/
import MetaOS.EventRuns
import Mathlib.Tactic

namespace MetaOS

namespace RilWakeLock

open EventRuns

inductive WakeType where
  | DONT_WAKE
  | WAKE_PARTIAL
deriving DecidableEq

def RIL_UNSOL_RESPONSE_BASE : Int := 1000

/-- The wake types of ril_unsol_commands.h, in its order: only
`RIL_UNSOL_ON_USSD_REQUEST` and `RIL_UNSOL_SIGNAL_STRENGTH` do not wake. -/
def sUnsolResponses : List WakeType :=
  .replicate 7 .WAKE_PARTIAL ++ .DONT_WAKE :: .WAKE_PARTIAL :: .DONT_WAKE ::
    .replicate 21 .WAKE_PARTIAL

/-- `{1,0}` -/
def TIMEVAL_WAKE_TIMEOUT : Int := 1000000

/-- A `UserCallbackInfo` of `wakeTimeoutCallback` whose timer is not called
yet. -/
structure UserCallbackInfo where
  id : Nat
  timeout : Int
  /-- the parameter is not null -/
  userParam : Bool
deriving DecidableEq

/-- `calling` is the wake type of the response that is being handled.  The
last successful response that wakes is kept with its time, and the releases of
the lock with theirs and that of the last success before. -/
structure State where
  clock : Int
  sRegisterCalled : Bool
  locked : Bool
  calling : Option WakeType
  timers : List UserCallbackInfo
  sLastWakeTimeoutInfo : Option Nat
  allocated : Nat
  succeeded : Option Int
  releases : List (Int × Option Int)
deriving DecidableEq

def State.start : State := ⟨0, false, false, none, [], none, 0, none, []⟩

/-- `acquire_wake_lock`, which does not nest. -/
def grabPartialWakeLock (s : State) : State := { s with locked := true }

def releaseWakeLock (s : State) : State :=
  if s.locked then
    { s with
      locked := false
      releases := (s.clock, s.succeeded) :: s.releases }
  else s

/-- `RIL_onUnsolicitedResponse` up to the call of the response function. -/
def onUnsolicitedResponse (s : State) (unsolResponse : Int) : State :=
  let unsolResponseIndex := unsolResponse - RIL_UNSOL_RESPONSE_BASE
  if s.sRegisterCalled = false then s
  else if unsolResponseIndex < 0 then s
  else
    match sUnsolResponses[unsolResponseIndex.toNat]? with
    | none => s
    | some .WAKE_PARTIAL =>
        { grabPartialWakeLock s with calling := some .WAKE_PARTIAL }
    | some .DONT_WAKE => { s with calling := some .DONT_WAKE }

/-- The previous timer is cancelled by its parameter. -/
def cancelPrevious (s : State) : List UserCallbackInfo :=
  s.timers.map fun info =>
    if s.sLastWakeTimeoutInfo = some info.id then
      { info with userParam := true }
    else info

/-- The rest of the call, with what the response function returns. -/
def finishResponse (s : State) (ret : Int) (wakeType : WakeType) : State :=
  let shouldScheduleTimeout := wakeType = .WAKE_PARTIAL
  if ret ≠ 0 then
    let s := if shouldScheduleTimeout then releaseWakeLock s else s
    { s with calling := none }
  else if shouldScheduleTimeout then
    { s with
      calling := none
      timers := ⟨s.allocated, s.clock + TIMEVAL_WAKE_TIMEOUT, false⟩ ::
        cancelPrevious s
      sLastWakeTimeoutInfo := some s.allocated
      allocated := s.allocated + 1
      succeeded := some s.clock }
  else { s with calling := none }

def wakeTimeoutCallback (s : State) (param : Bool) : State :=
  if param then s else releaseWakeLock s

def userTimerCallback (s : State) (p_info : UserCallbackInfo) : State :=
  let s := wakeTimeoutCallback s p_info.userParam
  { s with
    timers := s.timers.erase p_info
    sLastWakeTimeoutInfo :=
      if s.sLastWakeTimeoutInfo = some p_info.id then none
      else s.sLastWakeTimeoutInfo }

/-- What happens, and when. -/
inductive Event where
  | register
  | response (unsolResponse : Int) (now : Int)
  | responseDone (ret : Int) (now : Int)
  | timer (info : UserCallbackInfo) (now : Int)

/-- Calls do not overlap, the clock does not go back, and a timer is called
when its timeout is before the time. -/
def State.step (s : State) : Event → Option State
  | .register => some { s with sRegisterCalled := true }
  | .response unsolResponse now =>
      if s.clock ≤ now ∧ s.calling = none then
        some (onUnsolicitedResponse { s with clock := now } unsolResponse)
      else none
  | .responseDone ret now =>
      match s.calling with
      | none => none
      | some wakeType =>
          if s.clock ≤ now then
            some (finishResponse { s with clock := now } ret wakeType)
          else none
  | .timer info now =>
      if s.clock ≤ now ∧ info ∈ s.timers ∧ info.timeout < now then
        some (userTimerCallback { s with clock := now } info)
      else none

/-- A release comes no earlier than the timeout after the last success. -/
def Late (release : Int × Option Int) : Prop :=
  ∀ time, release.2 = some time → time + TIMEVAL_WAKE_TIMEOUT ≤ release.1

/-- A response that wakes is rejected within the timeout after the last
success. -/
def State.Hasty (s : State) : Event → Prop
  | .responseDone ret now =>
      ret ≠ 0 ∧ s.calling = some .WAKE_PARTIAL ∧
        ∃ time, s.succeeded = some time ∧ now < time + TIMEVAL_WAKE_TIMEOUT
  | _ => False

/-- No event of a run is hasty. -/
def Unhurried : State → List Event → Prop
  | _, [] => True
  | s, event :: events =>
      ¬ s.Hasty event ∧ ∀ s', s.step event = some s' → Unhurried s' events

/-- The timer that is not cancelled is that of the last success, and while a
response that wakes is handled the lock is held unless that timer was
called. -/
structure State.Timed (s : State) : Prop where
  nodup : (s.timers.map (·.id)).Nodup
  id_lt (info : UserCallbackInfo) (hinfo : info ∈ s.timers) :
    info.id < s.allocated
  last (info : UserCallbackInfo) (hinfo : info ∈ s.timers)
    (hparam : info.userParam = false) :
    s.sLastWakeTimeoutInfo = some info.id ∧
      ∃ time, s.succeeded = some time ∧
        info.timeout = time + TIMEVAL_WAKE_TIMEOUT
  held (hcalling : s.calling = some .WAKE_PARTIAL) :
    s.locked = true ∨ ∀ time, s.succeeded = some time →
      time + TIMEVAL_WAKE_TIMEOUT ≤ s.clock

/-- What a step adds to the releases: at most one, which is early if and only
if the step is hasty. -/
def Released (s : State) (event : Event) (s' : State) : Prop :=
  (∀ release ∈ s'.releases, Late release) ↔
    (∀ release ∈ s.releases, Late release) ∧ ¬ s.Hasty event

section Steps

variable {s s' : State}

theorem start_timed : State.start.Timed :=
  ⟨List.nodup_nil, fun _ hinfo => absurd hinfo List.not_mem_nil,
    fun _ hinfo => absurd hinfo List.not_mem_nil,
    fun hcalling => by cases hcalling⟩

theorem released_of_same {event : Event} (hsame : s'.releases = s.releases)
    (hnot : ¬ s.Hasty event) : Released s event s' := by
  rw [Released, hsame]
  exact (and_iff_left hnot).symm

theorem onUnsolicitedResponse_timed (htimed : s.Timed)
    (unsolResponse : Int) :
    (onUnsolicitedResponse s unsolResponse).Timed ∧
      (onUnsolicitedResponse s unsolResponse).releases = s.releases := by
  unfold onUnsolicitedResponse
  dsimp only
  split_ifs
  · exact ⟨htimed, rfl⟩
  · exact ⟨htimed, rfl⟩
  · split
    · exact ⟨htimed, rfl⟩
    · exact ⟨⟨htimed.nodup, htimed.id_lt, htimed.last, fun _ => .inl rfl⟩, rfl⟩
    · exact ⟨⟨htimed.nodup, htimed.id_lt, htimed.last,
        fun hcalling => by cases hcalling⟩, rfl⟩

theorem clock_timed (htimed : s.Timed) {now : Int} (hnow : s.clock ≤ now) :
    ({ s with clock := now } : State).Timed := by
  refine ⟨htimed.nodup, htimed.id_lt, htimed.last, fun hcalling => ?_⟩
  refine (htimed.held hcalling).imp id fun hpast time htime => ?_
  exact (hpast time htime).trans hnow

/-- A release changes nothing but the lock. -/
theorem releaseWakeLock_eq (s : State) :
    ∃ releases, releaseWakeLock s =
        { s with locked := false, releases := releases } ∧
      releases =
        if s.locked then (s.clock, s.succeeded) :: s.releases
        else s.releases := by
  obtain ⟨clock, registered, locked, calling, timers, last, allocated,
    succeeded, releases⟩ := s
  cases locked with
  | true => exact ⟨_, rfl, rfl⟩
  | false => exact ⟨_, rfl, rfl⟩

/-- A release that may come too early. -/
theorem all_late_cons {release : Int × Option Int}
    {releases : List (Int × Option Int)} :
    (∀ r ∈ release :: releases, Late r) ↔
      (∀ r ∈ releases, Late r) ∧ Late release := by
  rw [List.forall_mem_cons, and_comm]

theorem late_iff_not_hasty {ret now : Int} (hret : ret ≠ 0)
    (hcalling : s.calling = some .WAKE_PARTIAL) :
    Late (now, s.succeeded) ↔ ¬ s.Hasty (.responseDone ret now) := by
  constructor
  · rintro hlate ⟨-, -, time, htime, hnow⟩
    exact absurd (hlate time htime) (not_le.mpr hnow)
  · intro hnot time htime
    by_contra hearly
    exact hnot ⟨hret, hcalling, time, htime, not_le.mp hearly⟩

/-- A response that is rejected. -/
theorem rejected_timed (htimed : s.Timed) {ret now : Int} (hret : ret ≠ 0)
    (hnow : s.clock ≤ now) {wakeType : WakeType}
    (hcalling : s.calling = some wakeType) :
    (finishResponse { s with clock := now } ret wakeType).Timed ∧
      Released s (.responseDone ret now)
        (finishResponse { s with clock := now } ret wakeType) := by
  unfold finishResponse
  dsimp only
  rw [if_pos hret]
  cases wakeType with
  | DONT_WAKE =>
      refine ⟨⟨htimed.nodup, htimed.id_lt, htimed.last,
        fun hnone => by cases hnone⟩, released_of_same rfl ?_⟩
      rintro ⟨-, hwake, -⟩
      rw [hcalling] at hwake
      cases hwake
  | WAKE_PARTIAL =>
      rw [if_pos rfl]
      obtain ⟨releases, heq, hreleases⟩ :=
        releaseWakeLock_eq { s with clock := now }
      rw [heq]
      refine ⟨⟨htimed.nodup, htimed.id_lt, htimed.last,
        fun hnone => by cases hnone⟩, ?_⟩
      rw [Released, hreleases]
      have hlate := @late_iff_not_hasty s ret now hret hcalling
      dsimp only
      split_ifs with hlocked
      · rw [all_late_cons, hlate]
      · refine (and_iff_left (hlate.mp fun time htime => ?_)).symm
        have hpast := (htimed.held hcalling).resolve_left hlocked time htime
        exact hpast.trans hnow

/-- A timer that the response cancels was the only one that was not. -/
theorem cancelPrevious_param (htimed : s.Timed) {info : UserCallbackInfo}
    (hinfo : info ∈ cancelPrevious s) : info.userParam = true := by
  obtain ⟨before, hbefore, rfl⟩ := List.mem_map.mp hinfo
  split_ifs with hlast
  · rfl
  · cases hparam : before.userParam with
    | true => rfl
    | false => exact absurd (htimed.last before hbefore hparam).1 hlast

theorem cancelPrevious_ids (s : State) :
    (cancelPrevious s).map (·.id) = s.timers.map (·.id) := by
  rw [cancelPrevious, List.map_map]
  refine List.map_congr_left fun info _ => ?_
  dsimp only [Function.comp_apply]
  split_ifs
  · rfl
  · rfl

/-- A response that is accepted. -/
theorem accepted_timed (htimed : s.Timed) {now : Int}
    (hnow : s.clock ≤ now) {wakeType : WakeType}
    (hcalling : s.calling = some wakeType) :
    (finishResponse { s with clock := now } 0 wakeType).Timed ∧
      Released s (.responseDone 0 now)
        (finishResponse { s with clock := now } 0 wakeType) := by
  have hnot : ¬ s.Hasty (.responseDone 0 now) := fun hhasty => hhasty.1 rfl
  unfold finishResponse
  dsimp only
  rw [if_neg (not_not.mpr rfl)]
  cases wakeType with
  | DONT_WAKE =>
      exact ⟨⟨htimed.nodup, htimed.id_lt, htimed.last,
        fun hnone => by cases hnone⟩, released_of_same rfl hnot⟩
  | WAKE_PARTIAL =>
      rw [if_pos rfl]
      have htimed' := clock_timed htimed hnow
      have hids := cancelPrevious_ids { s with clock := now }
      have hmem : ∀ info ∈ cancelPrevious { s with clock := now },
          info.id < s.allocated := by
        intro info hinfo
        have hid : info.id ∈ s.timers.map (·.id) :=
          hids ▸ List.mem_map_of_mem hinfo
        obtain ⟨before, hbefore, hsame⟩ := List.mem_map.mp hid
        exact hsame ▸ htimed.id_lt before hbefore
      refine ⟨⟨?_, ?_, ?_, fun hnone => by cases hnone⟩,
        released_of_same rfl hnot⟩
      · rw [List.map_cons, hids]
        refine List.nodup_cons.mpr ⟨fun hid => ?_, htimed.nodup⟩
        obtain ⟨before, hbefore, hsame⟩ := List.mem_map.mp hid
        exact (htimed.id_lt before hbefore).ne hsame
      · intro info hinfo
        rcases List.mem_cons.mp hinfo with rfl | hinfo
        · exact Nat.lt_succ_self s.allocated
        · exact Nat.lt_succ_of_lt (hmem info hinfo)
      · intro info hinfo hparam
        rcases List.mem_cons.mp hinfo with rfl | hinfo
        · exact ⟨rfl, now, rfl, rfl⟩
        · rw [cancelPrevious_param htimed' hinfo] at hparam
          cases hparam

theorem userTimerCallback_timed (htimed : s.Timed) {info : UserCallbackInfo}
    (hinfo : info ∈ s.timers) {now : Int} (hnow : s.clock ≤ now)
    (hdue : info.timeout < now) :
    (userTimerCallback { s with clock := now } info).Timed ∧
      Released s (.timer info now)
        (userTimerCallback { s with clock := now } info) := by
  have hlast : ∀ other ∈ s.timers.erase info, other.userParam = false →
      (if s.sLastWakeTimeoutInfo = some info.id then none
        else s.sLastWakeTimeoutInfo) = some other.id ∧
      ∃ time, s.succeeded = some time ∧
        other.timeout = time + TIMEVAL_WAKE_TIMEOUT := by
    intro other hother hparam
    obtain ⟨hlast, htime⟩ :=
      htimed.last other (List.mem_of_mem_erase hother) hparam
    refine ⟨?_, htime⟩
    have hnodup : s.timers.Nodup := List.Nodup.of_map _ htimed.nodup
    have hne : other ≠ info := (hnodup.mem_erase_iff.mp hother).1
    rw [if_neg, hlast]
    intro hsame
    refine hne (List.inj_on_of_nodup_map htimed.nodup
      (List.mem_of_mem_erase hother) hinfo ?_)
    exact Option.some_inj.mp (hlast.symm.trans hsame)
  have hnodup : ((s.timers.erase info).map (·.id)).Nodup :=
    htimed.nodup.sublist (List.erase_sublist.map _)
  have hid : ∀ other ∈ s.timers.erase info, other.id < s.allocated :=
    fun other hother => htimed.id_lt other (List.mem_of_mem_erase hother)
  unfold userTimerCallback wakeTimeoutCallback
  cases hparam : info.userParam with
  | true =>
      refine ⟨⟨hnodup, hid, hlast, ?_⟩, released_of_same rfl id⟩
      exact (clock_timed htimed hnow).held
  | false =>
      obtain ⟨-, time, htime, htimeout⟩ := htimed.last info hinfo hparam
      have hlate : Late (now, s.succeeded) := by
        intro time' htime'
        rw [htime] at htime'
        obtain rfl := Option.some_inj.mp htime'
        exact (htimeout ▸ hdue).le
      obtain ⟨releases, heq, hreleases⟩ :=
        releaseWakeLock_eq { s with clock := now }
      rw [if_neg (by simp), heq]
      refine ⟨⟨hnodup, hid, hlast, fun _ => .inr hlate⟩, ?_⟩
      rw [Released, hreleases]
      dsimp only
      split_ifs
      · rw [all_late_cons]
        exact and_congr_right fun _ => iff_of_true hlate id
      · exact (and_iff_left id).symm

theorem step_timed (htimed : s.Timed) {event : Event}
    (hstep : s.step event = some s') : s'.Timed ∧ Released s event s' := by
  unfold State.step at hstep
  cases event with
  | register =>
      rw [← Option.some_inj.mp hstep]
      exact ⟨⟨htimed.nodup, htimed.id_lt, htimed.last, htimed.held⟩,
        released_of_same rfl id⟩
  | response unsolResponse now =>
      dsimp only at hstep
      split_ifs at hstep with hready
      rw [← Option.some_inj.mp hstep]
      obtain ⟨htimed', hsame⟩ := onUnsolicitedResponse_timed
        (clock_timed htimed hready.1) unsolResponse
      exact ⟨htimed', released_of_same hsame id⟩
  | responseDone ret now =>
      dsimp only at hstep
      split at hstep
      · cases hstep
      next wakeType hcalling =>
        split_ifs at hstep with hnow
        rw [← Option.some_inj.mp hstep]
        by_cases hret : ret = 0
        · subst hret
          exact accepted_timed htimed hnow hcalling
        · exact rejected_timed htimed hret hnow hcalling
  | timer info now =>
      dsimp only at hstep
      split_ifs at hstep with hready
      rw [← Option.some_inj.mp hstep]
      exact userTimerCallback_timed htimed hready.2.1 hready.1 hready.2.2

/-- Of the timers at most one is not cancelled. -/
theorem State.Timed.at_most_one (htimed : s.Timed) :
    (s.timers.filter fun info => !info.userParam).length ≤ 1 := by
  have hids : ((s.timers.filter fun info => !info.userParam).map
      (·.id)).Nodup := htimed.nodup.sublist (List.filter_sublist.map _)
  have hlast : ∀ info ∈ s.timers.filter fun info => !info.userParam,
      s.sLastWakeTimeoutInfo = some info.id := by
    intro info hinfo
    obtain ⟨hmem, hparam⟩ := List.mem_filter.mp hinfo
    exact (htimed.last info hmem (by simpa using hparam)).1
  generalize (s.timers.filter fun info => !info.userParam) = waiting at *
  match waiting, hids, hlast with
  | [], _, _ => exact Nat.zero_le 1
  | [_], _, _ => exact le_refl 1
  | first :: second :: rest, hids, hlast =>
      have hfirst := hlast first List.mem_cons_self
      have hsecond := hlast second (List.mem_cons_of_mem _ List.mem_cons_self)
      have hsame : first.id = second.id :=
        Option.some_inj.mp (hfirst.symm.trans hsecond)
      rw [List.map_cons, List.map_cons, hsame] at hids
      exact absurd List.mem_cons_self (List.nodup_cons.mp hids).1

/-- Releases are late, from a state on, if and only if no event is hasty. -/
theorem follow_late_iff {events : List Event} (htimed : s.Timed)
    (hfollow : follow State.step s events = some s') :
    s'.Timed ∧ ((∀ release ∈ s'.releases, Late release) ↔
      (∀ release ∈ s.releases, Late release) ∧ Unhurried s events) := by
  induction events generalizing s with
  | nil =>
      obtain rfl := Option.some_inj.mp hfollow
      exact ⟨htimed, (and_iff_left trivial).symm⟩
  | cons event events ih =>
      rw [follow] at hfollow
      cases hstep : s.step event with
      | none => simp [hstep] at hfollow
      | some next =>
          rw [hstep] at hfollow
          obtain ⟨hnext, hreleased⟩ := step_timed htimed hstep
          obtain ⟨htimed', hlate⟩ := ih hnext hfollow
          refine ⟨htimed', ?_⟩
          rw [Released] at hreleased
          rw [hlate, hreleased, Unhurried, hstep, and_assoc]
          simp only [Option.some.injEq, forall_eq']

end Steps

/-- In every run at most one timer is not cancelled; and the lock is never
released before the timeout after the last success if and only if no response
that wakes is rejected in this time. -/
theorem run_late_iff {s : State} {events : List Event}
    (hrun : follow State.step .start events = some s) :
    (s.timers.filter fun info => !info.userParam).length ≤ 1 ∧
      ((∀ release ∈ s.releases, Late release) ↔ Unhurried .start events) := by
  obtain ⟨htimed, hlate⟩ := follow_late_iff start_timed hrun
  refine ⟨htimed.at_most_one, hlate.trans (and_iff_right ?_)⟩
  exact fun release hmem => absurd hmem List.not_mem_nil

namespace RilWakeLockWitness

/-- A new message, and two seconds later the timer. -/
def woken : List Event :=
  [.register, .response 1003 10, .responseDone 0 20,
    .timer ⟨0, 1000020, false⟩ 2000000]

/-- The state after a list of events. -/
def last (events : List Event) : State :=
  (follow State.step .start events).getD .start

theorem woken_late :
    ((last woken).timers.filter fun info => !info.userParam).length ≤ 1 ∧
      ((∀ release ∈ (last woken).releases, Late release) ↔
        Unhurried .start woken) :=
  run_late_iff (show follow State.step .start woken = some (last woken) by
    decide +kernel)

/-- A new message, and within the second after it a
`RIL_UNSOL_SIM_REFRESH` whose data is a null pointer. -/
def hurried : List Event :=
  [.register, .response 1003 10, .responseDone 0 20, .response 1017 30,
    .responseDone (-1) 40]

theorem hurried_early :
    ¬ ∀ (events : List Event) (s : State),
      follow State.step .start events = some s →
        ∀ release ∈ s.releases, Late release := by
  intro hclaim
  have hlate := hclaim hurried (last hurried) (by decide +kernel) (40, some 20)
    (by decide +kernel) 20 rfl
  exact absurd hlate (by decide)

end RilWakeLockWitness

end RilWakeLock

end MetaOS
