/-
hardware/ril/ril-reader/reference-ril.c: the main loop, which opens the AT
channel again when it has been closed, and the callbacks that tell it so.

A step is one access of `s_closed`, of `s_state_mutex` or of `s_state_cond`, or
one call into atchannel.c, which touches none of the three.  A thread may wake
from `pthread_cond_wait` without having been woken.
-/
import MetaOS.EventRuns

namespace MetaOS

namespace RilReader

open EventRuns

/-- The next step of the main thread. -/
inductive MainPc where
  | opening
  | resetting (fd : Int)
  | atOpen (fd : Int)
  | sleeping
  | locking
  | testing
  | entering
  | waiting (woken : Bool)
  | unlocking
  | returned
deriving DecidableEq

/-- The steps of the other threads. -/
inductive Action where
  | readLines
  | testReaderClosed
  | setReaderClosed
  | atClose
  | setClosed
  | pthreadCondBroadcast
deriving DecidableEq

def onATReaderClosed : List Action := [.atClose, .setClosed]

def onATTimeout : List Action := [.atClose, .setClosed]

/-- `readerLoop`, with `onReaderClosed` of atchannel.c at its end. -/
def readerLoop : List Action :=
  [.readLines, .testReaderClosed, .setReaderClosed] ++ onATReaderClosed

/-- The variables that the threads share, and what each of the other threads
still has to do. -/
structure State where
  main : MainPc
  sStateMutex : Bool
  sClosed : Int
  sFd : Int
  sReaderClosed : Int
  threads : List (List Action)
deriving DecidableEq

/-- The callbacks are registered, and nothing has been opened. -/
def State.start : State where
  main := .opening
  sStateMutex := false
  sClosed := 0
  sFd := -1
  sReaderClosed := 0
  threads := []

/-- `pthread_create` has answered `created`: the reader thread exists if it is
zero. -/
def atOpen (s : State) (fd created : Int) : State :=
  { s with
    sFd := fd
    sReaderClosed := 0
    threads := if created = 0 then s.threads ++ [readerLoop] else s.threads }

/-- `result` is what the call of this step returns, where it makes one. -/
def mainLoop (s : State) (result : Int) : Option State :=
  match s.main with
  | .opening =>
      -- the device is tried again after a pause
      if result < 0 then some s
      else some { s with main := .resetting result }
  | .resetting fd => some { s with main := .atOpen fd, sClosed := 0 }
  | .atOpen fd =>
      let s := atOpen s fd result
      some { s with main := if result < 0 then .returned else .sleeping }
  | .sleeping => some { s with main := .locking }
  | .locking =>
      if s.sStateMutex then none
      else some { s with main := .testing, sStateMutex := true }
  | .testing =>
      some { s with
        main := if s.sClosed = 0 then .entering else .unlocking }
  | .entering =>
      -- the mutex is released and the thread blocks, in one step
      some { s with main := .waiting false, sStateMutex := false }
  | .waiting false => none
  | .waiting true =>
      if s.sStateMutex then none
      else some { s with main := .testing, sStateMutex := true }
  | .unlocking => some { s with main := .opening, sStateMutex := false }
  | .returned => none

def State.wake (s : State) : State :=
  if s.main = .waiting false then { s with main := .waiting true } else s

/-- The variables after an action, and what is left of a thread that had
`rest` to do after it. -/
def act (s : State) (rest : List Action) : Action → State × List Action
  | .readLines => (s, rest)
  | .testReaderClosed => (s, if s.sReaderClosed = 0 then rest else [])
  | .setReaderClosed => ({ s with sReaderClosed := 1 }, rest)
  | .atClose => ({ s with sFd := -1, sReaderClosed := 1 }, rest)
  | .setClosed => ({ s with sClosed := 1 }, rest)
  | .pthreadCondBroadcast => (s.wake, rest)

inductive Event where
  | main (result : Int)
  | spurious
  | timeout
  | thread (index : Nat)
deriving DecidableEq

def State.next (s : State) : Event → Option State
  | .main result => mainLoop s result
  | .spurious => some s.wake
  | .timeout => some { s with threads := s.threads ++ [onATTimeout] }
  | .thread index =>
      match s.threads[index]? with
      | some (action :: rest) =>
          let left := act s rest action
          some { left.1 with threads := s.threads.set index left.2 }
      | _ => none

/-- The process ends when the main loop returns. -/
def State.step (s : State) (event : Event) : Option State :=
  if s.main = .returned then none else s.next event

/-- The main thread is in `pthread_cond_wait`. -/
def State.Blocked (s : State) : Prop := ∃ woken, s.main = .waiting woken

/-- The main thread has been woken, or another thread is still to do so. -/
def State.WakeUpPending (s : State) : Prop :=
  s.main = .waiting true ∨
    ∃ actions ∈ s.threads, .pthreadCondBroadcast ∈ actions

def State.NotMissed (s : State) : Prop :=
  s.Blocked → s.sClosed = 0 ∨ s.WakeUpPending

/-- No callback stores to `s_closed` while the main thread is blocked, and none
has done so between the test of the flag and the wait. -/
def State.InTime (s : State) : Event → Prop
  | .main _ => s.main = .entering → s.sClosed = 0
  | .thread index =>
      (∃ rest, s.threads[index]? = some (.setClosed :: rest)) →
        s.main ≠ .waiting false
  | _ => True

/-- No thread is going to wake another. -/
def State.Silent (s : State) : Prop :=
  ∀ actions ∈ s.threads, .pthreadCondBroadcast ∉ actions

section Steps

variable {s s' : State}

@[simp] theorem wake_threads : s.wake.threads = s.threads := by
  rw [State.wake]
  split <;> rfl

theorem wake_main : s.wake.main ≠ .waiting false := by
  rw [State.wake]
  split
  · simp
  · assumption

theorem atOpen_threads (s : State) (fd created : Int) :
    (atOpen s fd created).threads = s.threads ∨
      (atOpen s fd created).threads = s.threads ++ [readerLoop] := by
  rw [atOpen]
  split
  · exact .inr rfl
  · exact .inl rfl

theorem mainLoop_threads {result : Int} (hmain : mainLoop s result = some s') :
    s'.threads = s.threads ∨ s'.threads = s.threads ++ [readerLoop] := by
  unfold mainLoop at hmain
  split at hmain
  case h_3 fd _ =>
    cases hmain
    exact atOpen_threads s fd result
  all_goals (try split at hmain) <;> cases hmain <;> exact .inl rfl

theorem act_threads (s : State) (rest : List Action) (action : Action) :
    (act s rest action).1.threads = s.threads ∧
      (act s rest action).2 ⊆ rest := by
  cases action <;> simp only [act, wake_threads, List.Subset.refl, and_self]
  split <;> simp

theorem silent_append {actions : List Action} (hsilent : s.Silent)
    (hactions : .pthreadCondBroadcast ∉ actions)
    (hthreads : s'.threads = s.threads ++ [actions]) : s'.Silent := by
  intro other hmem
  rw [hthreads, List.mem_append, List.mem_singleton] at hmem
  rcases hmem with hmem | rfl
  · exact hsilent other hmem
  · exact hactions

/-- Neither callback wakes a thread. -/
theorem step_silent {event : Event} (hsilent : s.Silent)
    (hstep : s.step event = some s') : s'.Silent := by
  rw [State.step] at hstep
  split at hstep
  · cases hstep
  cases event with
  | main result =>
      rcases mainLoop_threads hstep with hsame | hreader
      · rwa [State.Silent, hsame]
      · exact silent_append hsilent (by decide) hreader
  | spurious =>
      cases hstep
      rwa [State.Silent, wake_threads]
  | timeout =>
      cases hstep
      exact silent_append hsilent (by decide) rfl
  | thread index =>
      rw [State.next] at hstep
      split at hstep
      · rename_i action rest hthread
        have hleft := (act_threads s rest action).2
        cases hstep
        intro other hmem
        rcases List.mem_or_eq_of_mem_set hmem with hmem | rfl
        · exact hsilent other hmem
        · exact fun hbroadcast =>
            hsilent _ (List.mem_of_getElem? hthread)
              (List.mem_cons_of_mem action (hleft hbroadcast))
      · cases hstep

/-- With nobody to wake it, a thread that blocks has seen the flag in time. -/
theorem notMissed_iff (hsilent : s.Silent) :
    s.NotMissed ↔ (s.main = .waiting false → s.sClosed = 0) := by
  have hpending : s.WakeUpPending ↔ s.main = .waiting true := by
    rw [State.WakeUpPending, or_iff_left]
    rintro ⟨actions, hmem, hbroadcast⟩
    exact hsilent actions hmem hbroadcast
  rw [State.NotMissed, hpending]
  constructor
  · intro hnot hmain
    simpa [hmain] using hnot ⟨false, hmain⟩
  · rintro hclosed ⟨woken, hwoken⟩
    cases woken with
    | false => exact .inl (hclosed hwoken)
    | true => exact .inr hwoken

theorem mainLoop_waiting {result : Int} (hmain : mainLoop s result = some s') :
    s'.main = .waiting false ↔ s.main = .entering := by
  unfold mainLoop at hmain
  split at hmain <;> (try split at hmain) <;> cases hmain <;> simp_all

theorem act_waiting (rest : List Action) (action : Action) :
    (act s rest action).1.main = .waiting false ↔
      s.main = .waiting false ∧ action ≠ .pthreadCondBroadcast := by
  cases action <;> simp [act, wake_main]

/-- One step keeps the close from being missed exactly if it is in time. -/
theorem step_notMissed {event : Event} (hsilent : s.Silent)
    (hnot : s.NotMissed) (hstep : s.step event = some s') :
    s'.NotMissed ↔ s.InTime event := by
  rw [notMissed_iff (step_silent hsilent hstep)]
  rw [notMissed_iff hsilent] at hnot
  rw [State.step] at hstep
  split at hstep
  · cases hstep
  cases event with
  | main result =>
      rw [mainLoop_waiting hstep, State.InTime]
      refine forall_congr' fun hentering => ?_
      simp only [State.next, mainLoop, hentering, Option.some.injEq] at hstep
      rw [← hstep]
  | spurious =>
      cases hstep
      simp [wake_main, State.InTime]
  | timeout =>
      cases hstep
      simpa [State.InTime] using hnot
  | thread index =>
      rw [State.next] at hstep
      split at hstep
      · rename_i action rest hthread
        cases hstep
        rw [act_waiting]
        simp only [State.InTime, hthread]
        cases action <;> simp_all [act]
      · cases hstep

/-- A close that has been missed stays so until the thread wakes by itself. -/
theorem missed_stays {event : Event} (hsilent : s.Silent)
    (hmissed : s.main = .waiting false) (hevent : event ≠ .spurious)
    (hstep : s.step event = some s') : s'.main = .waiting false := by
  rw [State.step, if_neg (by simp [hmissed])] at hstep
  cases event with
  | main result => simp [State.next, mainLoop, hmissed] at hstep
  | spurious => exact absurd rfl hevent
  | timeout =>
      cases hstep
      exact hmissed
  | thread index =>
      rw [State.next] at hstep
      split at hstep
      · rename_i action rest hthread
        cases hstep
        refine act_waiting rest action |>.mpr ⟨hmissed, ?_⟩
        rintro rfl
        exact hsilent _ (List.mem_of_getElem? hthread) List.mem_cons_self
      · cases hstep

end Steps

/-- In every run of the main loop and the callbacks, the main thread is in no
state blocked with the flag set and no wake-up on its way, exactly if every
callback stores the flag before the main thread tests it or once it is
awake. -/
theorem notMissed_iff_inTime (events : List Event) {last : State}
    (hrun : follow State.step .start events = some last) :
    (∀ before after s, events = before ++ after →
        follow State.step .start before = some s → s.NotMissed) ↔
      ∀ before event after s, events = before ++ event :: after →
        follow State.step .start before = some s → s.InTime event := by
  have hstart : State.start.Silent := by
    intro actions hmem
    cases hmem
  refine follow_good_iff State.NotMissed State.Silent
    (fun _ _ _ => step_silent) (fun _ _ _ => step_notMissed) events hstart ?_
    hrun
  exact (notMissed_iff hstart).mpr nofun

namespace RilReaderWitness

/-- The reader thread comes to its end before the main loop waits. -/
theorem closed_early :
    let events : List Event :=
      [.main 3, .main 0, .main 0, .thread 0, .thread 0, .thread 0, .thread 0,
        .thread 0, .main 0, .main 0, .main 0, .main 0]
    (∀ before after s, events = before ++ after →
        follow State.step .start before = some s → s.NotMissed) ↔
      ∀ before event after s, events = before ++ event :: after →
        follow State.step .start before = some s → s.InTime event :=
  notMissed_iff_inTime _ rfl

/-- The channel is closed while the main loop waits for that. -/
theorem closed_missed :
    ¬ ∀ s, Runs State.step State.start s → s.NotMissed := by
  intro hall
  have hrun : Runs State.step .start ⟨.waiting false, false, 1, -1, 1, [[]]⟩ :=
    runs_of_follow
      [.main 3, .main 0, .main 0, .main 0, .main 0, .main 0, .main 0,
        .thread 0, .thread 0, .thread 0, .thread 0, .thread 0]
      Reach.refl rfl
  have hclosed := hall _ hrun ⟨false, rfl⟩
  revert hclosed
  simp [State.WakeUpPending]

end RilReaderWitness

end RilReader

end MetaOS
