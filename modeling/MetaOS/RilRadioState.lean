/-
hardware/ril/reference-ril/reference-ril.c: the state of the radio, the
callbacks that close the AT channel and the main loop that opens it again.

A step is one access of `s_closed`, of `sState`, of `s_state_mutex` or of
`s_state_cond`, or one call out of the file; the two that are compared in one
condition are read together, as `sState` does not change there.  A thread may
wake from `pthread_cond_wait` without having been woken.
-/
import Mathlib.Logic.Relation
import MetaOS.ReferenceRilLines
import MetaOS.ThreadPools

namespace MetaOS

namespace RilRadioState

open ThreadPools
open ReferenceRil (Radio RadioState)

/-- The next step of `mainLoop`, with `waitForClose`. -/
inductive MainPc where
  | opening
  | resetting
  | atOpen
  | sleeping
  | lock
  | test
  | enter
  | waiting
  | woken
  | unlock
  | returned
deriving DecidableEq

/-- The next step of a thread that closes the channel or sets the state. -/
inductive ThreadPc where
  | atClose
  | setClosed
  | lock (newState : RadioState)
  | read (newState : RadioState)
  | testClosed (newState oldState : RadioState)
  | compare (newState oldState : RadioState)
  | store (newState oldState : RadioState)
  | broadcast (oldState : RadioState)
  | unlock (oldState : RadioState)
  | look (oldState : RadioState)
  | notify
  | done
deriving DecidableEq

/-- The variables of the file; `announced` only records whether
`RIL_UNSOL_RESPONSE_RADIO_STATE_CHANGED` has been sent since the state changed
last. -/
structure State where
  main : MainPc
  mutex : Bool
  sClosed : Bool
  sState : RadioState
  threads : List ThreadPc
  announced : Bool

def State.start : State where
  main := .opening
  mutex := false
  sClosed := false
  sState := .UNAVAILABLE
  threads := []
  announced := true

def State.thread (s : State) (i : Nat) (pc : ThreadPc) : State :=
  { s with threads := s.threads.set i pc }

/-- `onATReaderClosed` and `onATTimeout` are both `closes`; a request, a timed
callback or what follows a change of the state may be `sets`. -/
inductive Step (s : State) : State → Prop
  | retry (hpc : s.main = .opening) : Step s s
  | opened (hpc : s.main = .opening) : Step s { s with main := .resetting }
  | reset (hpc : s.main = .resetting) :
      Step s { s with main := .atOpen, sClosed := false }
  | atOpenFails (hpc : s.main = .atOpen) :
      Step s { s with main := .returned }
  | atOpen (hpc : s.main = .atOpen) : Step s { s with main := .sleeping }
  | slept (hpc : s.main = .sleeping) : Step s { s with main := .lock }
  | mainLock (hpc : s.main = .lock) (hfree : s.mutex = false) :
      Step s { s with main := .test, mutex := true }
  | mainClosed (hpc : s.main = .test) (hclosed : s.sClosed = true) :
      Step s { s with main := .unlock }
  | mainOpen (hpc : s.main = .test) (hopen : s.sClosed = false) :
      Step s { s with main := .enter }
  | mainWait (hpc : s.main = .enter) :
      Step s { s with main := .waiting, mutex := false }
  | spurious (hpc : s.main = .waiting) : Step s { s with main := .woken }
  | mainRelock (hpc : s.main = .woken) (hfree : s.mutex = false) :
      Step s { s with main := .test, mutex := true }
  | mainUnlock (hpc : s.main = .unlock) :
      Step s { s with main := .opening, mutex := false }
  | closes : Step s { s with threads := s.threads ++ [.atClose] }
  | sets (newState : RadioState) :
      Step s { s with threads := s.threads ++ [.lock newState] }
  | atClose {i : Nat} (hpc : s.threads[i]? = some .atClose) :
      Step s (s.thread i .setClosed)
  | setClosed {i : Nat} (hpc : s.threads[i]? = some .setClosed) :
      Step s { s.thread i (.lock .UNAVAILABLE) with sClosed := true }
  | lock {i : Nat} {newState : RadioState}
      (hpc : s.threads[i]? = some (.lock newState))
      (hfree : s.mutex = false) :
      Step s { s.thread i (.read newState) with mutex := true }
  | read {i : Nat} {newState : RadioState}
      (hpc : s.threads[i]? = some (.read newState)) :
      Step s (s.thread i (.testClosed newState s.sState))
  | testClosed {i : Nat} {newState oldState : RadioState}
      (hpc : s.threads[i]? = some (.testClosed newState oldState)) :
      Step s (s.thread i
        (.compare (if s.sClosed then .UNAVAILABLE else newState) oldState))
  | differs {i : Nat} {newState oldState : RadioState}
      (hpc : s.threads[i]? = some (.compare newState oldState))
      (hdiffers : s.sState ≠ newState ∨ s.sClosed = true) :
      Step s (s.thread i (.store newState oldState))
  | same {i : Nat} {newState oldState : RadioState}
      (hpc : s.threads[i]? = some (.compare newState oldState))
      (hsame : s.sState = newState) (hopen : s.sClosed = false) :
      Step s (s.thread i (.unlock oldState))
  | store {i : Nat} {newState oldState : RadioState}
      (hpc : s.threads[i]? = some (.store newState oldState)) :
      Step s { s.thread i (.broadcast oldState) with
        sState := newState
        announced := decide (s.sState = newState) && s.announced }
  | broadcast {i : Nat} {oldState : RadioState}
      (hpc : s.threads[i]? = some (.broadcast oldState)) :
      Step s { s.thread i (.unlock oldState) with
        main := if s.main = .waiting then .woken else s.main }
  | unlock {i : Nat} {oldState : RadioState}
      (hpc : s.threads[i]? = some (.unlock oldState)) :
      Step s { s.thread i (.look oldState) with mutex := false }
  | changed {i : Nat} {oldState : RadioState}
      (hpc : s.threads[i]? = some (.look oldState))
      (hchanged : s.sState ≠ oldState) : Step s (s.thread i .notify)
  | unchanged {i : Nat} {oldState : RadioState}
      (hpc : s.threads[i]? = some (.look oldState))
      (hsame : s.sState = oldState) : Step s (s.thread i .done)
  | notify {i : Nat} (hpc : s.threads[i]? = some .notify) :
      Step s { s.thread i .done with announced := true }

abbrev Run : State → State → Prop := Relation.ReflTransGen Step

/-- The thread is between its lock and its unlock. -/
def MainPc.holds : MainPc → Bool
  | test | enter | unlock => true
  | _ => false

/-- The thread sleeps, or it is going to without another look. -/
def MainPc.sleeps : MainPc → Bool
  | enter | waiting => true
  | _ => false

namespace ThreadPc

def holds : ThreadPc → Bool
  | read _ | testClosed _ _ | compare _ _ | store _ _ | broadcast _
  | unlock _ => true
  | _ => false

/-- The thread is going to store that the radio is unavailable. -/
def closing : ThreadPc → Bool
  | lock newState | read newState | testClosed newState _
  | compare newState _ | store newState _ =>
      decide (newState = .UNAVAILABLE)
  | _ => false

/-- The thread is going to store something else, whether the channel is closed
or not. -/
def strays : ThreadPc → Bool
  | compare newState _ | store newState _ =>
      decide (newState ≠ .UNAVAILABLE)
  | _ => false

/-- The thread is going to wake the main thread, if the channel is closed. -/
def wakes : ThreadPc → Bool
  | store _ _ | broadcast _ => true
  | pc => pc.closing

/-- The thread is going to send that the state has changed, unless another one
changes it again. -/
def tells (sState : RadioState) : ThreadPc → Bool
  | broadcast oldState | unlock oldState | look oldState =>
      decide (sState ≠ oldState)
  | notify => true
  | _ => false

/-- What the thread has read under the mutex is still the state. -/
def Current (sState : RadioState) : ThreadPc → Prop
  | testClosed _ oldState | compare _ oldState | store _ oldState =>
      oldState = sState
  | _ => True

end ThreadPc

theorem current_of_outside {sState : RadioState} {pc : ThreadPc}
    (hpc : ¬ pc.holds = true) : pc.Current sState := by
  cases pc with
  | testClosed | compare | store => exact absurd rfl hpc
  | _ => trivial

theorem holds_of_strays {pc : ThreadPc} (hpc : pc.strays = true) :
    pc.holds = true := by
  cases pc with
  | compare | store => rfl
  | _ => cases hpc

structure Inv (s : State) : Prop where
  mutex : s.main.holds.toNat + s.threads.countP ThreadPc.holds =
    s.mutex.toNat
  current : ∀ pc ∈ s.threads, pc.Current s.sState
  closed : s.sClosed = true → 0 < s.threads.countP ThreadPc.closing ∨
    (s.sState = .UNAVAILABLE ∧ s.threads.countP ThreadPc.strays = 0)
  wakes : s.sClosed = true → s.main.sleeps = true →
    0 < s.threads.countP ThreadPc.wakes
  tells : s.announced = false →
    0 < s.threads.countP (ThreadPc.tells s.sState)

section Steps

variable {s : State}

/-- The main thread lets go of the mutex. -/
theorem Inv.mainOut (hinv : Inv s) {main : MainPc}
    (hinside : s.main.holds = true) (houtside : main.holds = false) :
    main.holds.toNat + s.mutex.toNat = s.main.holds.toNat + false.toNat := by
  have hcount := hinv.mutex
  have hle := s.mutex.toNat_le
  rw [hinside] at hcount ⊢
  rw [houtside]
  change 1 + _ = _ at hcount
  change 0 + _ = 1 + 0
  omega

/-- The main thread goes on and leaves the flag as it is. -/
theorem Inv.mainStep (hinv : Inv s) {main : MainPc} {mutex : Bool}
    (hmutex : main.holds.toNat + s.mutex.toNat =
      s.main.holds.toNat + mutex.toNat)
    (hsleeps : main.sleeps = true →
      s.main.sleeps = true ∨ s.sClosed = false) :
    Inv { s with main := main, mutex := mutex } := by
  have hinside := hinv.mutex
  refine ⟨?_, hinv.current, hinv.closed, fun hclosed hsleep => ?_,
    hinv.tells⟩
  · dsimp only
    omega
  · rcases hsleeps hsleep with hslept | hopen
    · exact hinv.wakes hclosed hslept
    · rw [hopen] at hclosed
      cases hclosed

/-- One more thread, which does not hold the mutex. -/
theorem Inv.spawn (hinv : Inv s) {pc : ThreadPc} (hholds : pc.holds = false)
    (hcurrent : pc.Current s.sState) (hstrays : pc.strays = false) :
    Inv { s with threads := s.threads ++ [pc] } := by
  have hmore : ∀ p : ThreadPc → Bool, 0 < s.threads.countP p →
      0 < (s.threads ++ [pc]).countP p := by
    intro p hpos
    rw [List.countP_append]
    omega
  refine ⟨?_, fun other hother => ?_, fun hclosed => ?_,
    fun hclosed hsleeps => hmore _ (hinv.wakes hclosed hsleeps),
    fun hannounced => hmore _ (hinv.tells hannounced)⟩
  · rw [List.countP_append, List.countP_singleton, hholds]
    exact hinv.mutex
  · rcases List.mem_append.mp hother with hother | hother
    · exact hinv.current other hother
    · rw [List.mem_singleton.mp hother]
      exact hcurrent
  · rcases hinv.closed hclosed with hclosing | ⟨hstate, hnone⟩
    · exact .inl (hmore _ hclosing)
    · refine .inr ⟨hstate, ?_⟩
      rw [List.countP_append, List.countP_singleton, hnone, hstrays]
      rfl

theorem current_set (hinv : Inv s) {i : Nat} {pc' : ThreadPc}
    (hcurrent : pc'.Current s.sState) :
    ∀ pc ∈ s.threads.set i pc', pc.Current s.sState := by
  intro pc hpc
  rcases List.mem_or_eq_of_mem_set hpc with hpc | rfl
  · exact hinv.current pc hpc
  · exact hcurrent

/-- A thread goes on and leaves the flag and the state as they are. -/
theorem Inv.thread (hinv : Inv s) {i : Nat} {pc pc' : ThreadPc}
    (hpc : s.threads[i]? = some pc) {mutex announced : Bool}
    (hmutex : pc'.holds.toNat + s.mutex.toNat = pc.holds.toNat + mutex.toNat)
    (hcurrent : pc'.Current s.sState)
    (hclosing : s.sClosed = true → pc.closing = true → pc'.closing = true)
    (hstrays : s.sClosed = true → pc'.strays = true → pc.strays = true)
    (hwakes : s.sClosed = true → pc.wakes = true → pc'.wakes = true)
    (htells : announced = false → s.announced = false ∧
      (pc.tells s.sState = true → pc'.tells s.sState = true)) :
    Inv { s.thread i pc' with mutex := mutex, announced := announced } := by
  have hholds := countP_set_add hpc pc' ThreadPc.holds
  have hinside := hinv.mutex
  refine ⟨?_, current_set hinv hcurrent, fun hclosed => ?_,
    fun hclosed hsleeps => countP_set_pos hpc (hwakes hclosed)
      (hinv.wakes hclosed hsleeps),
    fun hannounced => ?_⟩
  · change s.main.holds.toNat + (s.threads.set i pc').countP _ = mutex.toNat
    omega
  · rcases hinv.closed hclosed with hpos | ⟨hstate, hnone⟩
    · exact .inl (countP_set_pos hpc (hclosing hclosed) hpos)
    · exact .inr ⟨hstate, countP_set_zero hpc (hstrays hclosed) hnone⟩
  · obtain ⟨hbefore, hkeeps⟩ := htells hannounced
    exact countP_set_pos hpc hkeeps (hinv.tells hbefore)

theorem Inv.reset (hinv : Inv s) (hpc : s.main = .resetting) :
    Inv { s with main := .atOpen, sClosed := false } := by
  have hinside := hinv.mutex
  rw [hpc] at hinside
  exact ⟨hinside, hinv.current,
    fun hclosed => absurd hclosed Bool.false_ne_true,
    fun hclosed => absurd hclosed Bool.false_ne_true, hinv.tells⟩

/-- Whoever sets the flag is going to store the state and to wake the main
thread. -/
theorem Inv.setClosed (hinv : Inv s) {i : Nat}
    (hpc : s.threads[i]? = some .setClosed) :
    Inv { s.thread i (.lock .UNAVAILABLE) with sClosed := true } := by
  have hholds := countP_set_add hpc (.lock .UNAVAILABLE) ThreadPc.holds
  have hinside := hinv.mutex
  refine ⟨?_, current_set hinv trivial, fun _ => .inl ?_, fun _ _ => ?_,
    fun hannounced => ?_⟩
  · change s.main.holds.toNat + (s.threads.set i _).countP _ = s.mutex.toNat
    change _ + 0 = _ + 0 at hholds
    omega
  · exact countP_set_new hpc rfl
  · exact countP_set_new hpc rfl
  · exact countP_set_pos hpc id (hinv.tells hannounced)

theorem Inv.store (hinv : Inv s) {i : Nat} {newState oldState : RadioState}
    (hpc : s.threads[i]? = some (.store newState oldState)) :
    Inv { s.thread i (.broadcast oldState) with
      sState := newState
      announced := decide (s.sState = newState) && s.announced } := by
  have hold : oldState = s.sState := hinv.current _ (List.mem_of_getElem? hpc)
  have hholds := countP_set_add hpc (.broadcast oldState) ThreadPc.holds
  have hinside := hinv.mutex
  change _ + 1 = _ + 1 at hholds
  -- Whoever else has read the state would be inside too.
  have honly : ∀ pc ∈ s.threads.set i (.broadcast oldState),
      pc.holds = true → pc = .broadcast oldState := by
    intro pc hmem hpcInside
    have hle := s.mutex.toNat_le
    exact eq_of_countP_le_one (by omega) hmem
      (List.mem_set (List.getElem?_eq_some_iff.mp hpc).1 _) hpcInside rfl
  refine ⟨?_, fun pc hmem => ?_, fun hclosed => ?_,
    fun _ _ => countP_set_new hpc rfl, fun hannounced => ?_⟩
  · change s.main.holds.toNat + (s.threads.set i _).countP _ = s.mutex.toNat
    omega
  · by_cases hpcInside : pc.holds = true
    · rw [honly pc hmem hpcInside]
      trivial
    · exact current_of_outside hpcInside
  · by_cases hnew : newState = .UNAVAILABLE
    · refine .inr ⟨hnew, ?_⟩
      rw [List.countP_eq_zero]
      intro pc hmem hpcStrays
      rw [honly pc hmem (holds_of_strays hpcStrays)] at hpcStrays
      cases hpcStrays
    · have hstrays : (ThreadPc.store newState oldState).strays = true :=
        decide_eq_true hnew
      rcases hinv.closed hclosed with hpos | ⟨-, hnone⟩
      · refine .inl (countP_set_pos hpc (fun hclosing => ?_) hpos)
        exact absurd (of_decide_eq_true hclosing) hnew
      · have hpos := countP_pos hpc hstrays
        omega
  · dsimp only at hannounced ⊢
    by_cases hsame : s.sState = newState
    · rw [decide_eq_true hsame, Bool.true_and] at hannounced
      have htells := hinv.tells hannounced
      rw [hsame] at htells
      refine countP_set_pos hpc (fun hstore => ?_) htells
      cases hstore
    · refine countP_set_new hpc (decide_eq_true fun hunchanged => hsame ?_)
      rw [hunchanged, hold]

/-- Between its look at the flag and its sleep the main thread is inside, so
a broadcast does not come in there. -/
theorem Inv.broadcast (hinv : Inv s) {i : Nat} {oldState : RadioState}
    (hpc : s.threads[i]? = some (.broadcast oldState)) :
    Inv { s.thread i (.unlock oldState) with
      main := if s.main = .waiting then .woken else s.main } := by
  have hinside := hinv.mutex
  have hholds := countP_set_add hpc (.unlock oldState) ThreadPc.holds
  have hpos := countP_pos hpc (p := ThreadPc.holds) rfl
  have hle := s.mutex.toNat_le
  change _ + 1 = _ + 1 at hholds
  have hmain : (if s.main = .waiting then .woken else s.main).holds =
      s.main.holds := by
    split
    · next hwaiting => rw [hwaiting]; rfl
    · rfl
  have hawake :
      (if s.main = .waiting then .woken else s.main).sleeps = false := by
    split
    · rfl
    · next hnot =>
        cases hpcMain : s.main with
        | enter =>
            rw [hpcMain] at hinside
            change 1 + _ = _ at hinside
            omega
        | waiting => exact absurd hpcMain hnot
        | _ => rfl
  refine ⟨?_, current_set hinv trivial, fun hclosed => ?_,
    fun _ hsleeps => ?_,
    fun hannounced => countP_set_pos hpc id (hinv.tells hannounced)⟩
  · change (if s.main = .waiting then MainPc.woken else s.main).holds.toNat +
      (s.threads.set i _).countP _ = s.mutex.toNat
    rw [hmain]
    omega
  · rcases hinv.closed hclosed with hclosing | ⟨hstate, hnone⟩
    · exact .inl (countP_set_pos hpc id hclosing)
    · exact .inr ⟨hstate, countP_set_zero hpc id hnone⟩
  · rw [hawake] at hsleeps
    cases hsleeps

theorem Inv.unlock (hinv : Inv s) {i : Nat} {oldState : RadioState}
    (hpc : s.threads[i]? = some (.unlock oldState)) :
    Inv { s.thread i (.look oldState) with mutex := false } := by
  have hinside := hinv.mutex
  have hpos := countP_pos hpc (p := ThreadPc.holds) rfl
  have hle := s.mutex.toNat_le
  refine hinv.thread hpc ?_ trivial (fun _ => id)
    (fun _ => id) (fun _ => id) fun h => ⟨h, id⟩
  change 0 + _ = 1 + 0
  omega

theorem step_inv {s' : State} (hstep : Step s s') (hinv : Inv s) :
    Inv s' := by
  cases hstep with
  | retry => exact hinv
  | opened hpc =>
      exact hinv.mainStep (by rw [hpc]; rfl) fun hsleeps => by cases hsleeps
  | reset hpc => exact hinv.reset hpc
  | atOpenFails hpc =>
      exact hinv.mainStep (by rw [hpc]; rfl) fun hsleeps => by cases hsleeps
  | atOpen hpc =>
      exact hinv.mainStep (by rw [hpc]; rfl) fun hsleeps => by cases hsleeps
  | slept hpc =>
      exact hinv.mainStep (by rw [hpc]; rfl) fun hsleeps => by cases hsleeps
  | mainLock hpc hfree =>
      exact hinv.mainStep (by rw [hpc, hfree]; rfl)
        fun hsleeps => by cases hsleeps
  | mainClosed hpc hclosed =>
      exact hinv.mainStep (by rw [hpc]; rfl) fun hsleeps => by cases hsleeps
  | mainOpen hpc hopen =>
      exact hinv.mainStep (by rw [hpc]; rfl) fun _ => .inr hopen
  | mainWait hpc =>
      refine hinv.mainStep ?_ fun _ => .inl (by rw [hpc]; rfl)
      exact hinv.mainOut (by rw [hpc]; rfl) rfl
  | spurious hpc =>
      exact hinv.mainStep (by rw [hpc]; rfl) fun hsleeps => by cases hsleeps
  | mainRelock hpc hfree =>
      exact hinv.mainStep (by rw [hpc, hfree]; rfl)
        fun hsleeps => by cases hsleeps
  | mainUnlock hpc =>
      refine hinv.mainStep ?_ fun hsleeps => by cases hsleeps
      exact hinv.mainOut (by rw [hpc]; rfl) rfl
  | closes => exact hinv.spawn rfl trivial rfl
  | sets newState => exact hinv.spawn rfl trivial rfl
  | atClose hpc =>
      exact hinv.thread hpc rfl trivial (fun _ => id) (fun _ => id)
        (fun _ => id) fun h => ⟨h, id⟩
  | setClosed hpc => exact hinv.setClosed hpc
  | lock hpc hfree =>
      exact hinv.thread hpc (by rw [hfree]; rfl) trivial (fun _ => id)
        (fun _ => id) (fun _ => id) fun h => ⟨h, id⟩
  | read hpc =>
      exact hinv.thread hpc rfl rfl (fun _ => id) (fun _ => id)
        (fun _ => id) fun h => ⟨h, id⟩
  | testClosed hpc =>
      have hread := hinv.current _ (List.mem_of_getElem? hpc)
      refine hinv.thread hpc rfl hread (fun hclosed _ => ?_)
        (fun hclosed hstrays => ?_) (fun hclosed _ => ?_) fun h => ⟨h, id⟩
      · rw [if_pos hclosed]
        rfl
      · rw [if_pos hclosed] at hstrays
        cases hstrays
      · rw [if_pos hclosed]
        rfl
  | differs hpc hdiffers =>
      have hread := hinv.current _ (List.mem_of_getElem? hpc)
      exact hinv.thread hpc rfl hread (fun _ => id) (fun _ => id)
        (fun _ _ => rfl) fun h => ⟨h, id⟩
  | same hpc hsame hopen =>
      have hnot : s.sClosed ≠ true := by
        rw [hopen]
        decide
      exact hinv.thread hpc rfl trivial (fun h => absurd h hnot)
        (fun h => absurd h hnot) (fun h => absurd h hnot)
        fun h => ⟨h, fun htells => by cases htells⟩
  | store hpc => exact hinv.store hpc
  | broadcast hpc => exact hinv.broadcast hpc
  | unlock hpc => exact hinv.unlock hpc
  | changed hpc hchanged =>
      exact hinv.thread hpc rfl trivial (fun _ => id) (fun _ => id)
        (fun _ => id) fun h => ⟨h, fun _ => rfl⟩
  | unchanged hpc hsame =>
      refine hinv.thread hpc rfl trivial (fun _ => id) (fun _ => id)
        (fun _ => id) fun h => ⟨h, fun htells => ?_⟩
      exact absurd hsame (of_decide_eq_true htells)
  | notify hpc =>
      exact hinv.thread hpc rfl trivial (fun _ => id) (fun _ => id)
        (fun _ => id) fun h => by cases h

end Steps

section Undisturbed

variable {s : State}

/-- What the functions that make requests see of a state. -/
def State.radio (s : State) : Radio := ⟨s.sState, s.sClosed⟩

/-- A thread that nobody comes in between gets through the mutex, and leaves
behind it what `changeState` leaves. -/
theorem lock_run {i : Nat} {newState : RadioState}
    (hpc : s.threads[i]? = some (.lock newState)) (hfree : s.mutex = false) :
    ∃ s', Run s s' ∧ s'.mutex = false ∧
      s'.threads[i]? = some (.look s.sState) ∧
      s'.radio = { s.radio with
        sState := if s.sClosed then .UNAVAILABLE else newState } := by
  have hread := getElem?_set_of hpc (.read newState)
  have htest := getElem?_set_of hread (.testClosed newState s.sState)
  have hcompare := getElem?_set_of htest
    (.compare (if s.sClosed then .UNAVAILABLE else newState) s.sState)
  have hcompared : Run s _ :=
    .head (.lock hpc hfree) (.head (.read hread) (.single (.testClosed htest)))
  by_cases hdiffers :
      s.sState ≠ (if s.sClosed then .UNAVAILABLE else newState) ∨
        s.sClosed = true
  · have hstore := getElem?_set_of hcompare
      (.store (if s.sClosed then .UNAVAILABLE else newState) s.sState)
    have hbroadcast := getElem?_set_of hstore (.broadcast s.sState)
    have hunlock := getElem?_set_of hbroadcast (.unlock s.sState)
    have hleft := hcompared.trans (.head (.differs hcompare hdiffers)
      (.head (.store hstore) (.head (.broadcast hbroadcast)
        (.single (.unlock hunlock)))))
    exact ⟨_, hleft, rfl, getElem?_set_of hunlock _, rfl⟩
  · obtain ⟨hsame, hopen⟩ := not_or.mp hdiffers
    rw [not_not] at hsame
    rw [Bool.not_eq_true] at hopen
    have hunlock := getElem?_set_of hcompare (.unlock s.sState)
    have hleft := hcompared.trans (.head (.same hcompare hsame hopen)
      (.single (.unlock hunlock)))
    refine ⟨_, hleft, rfl, getElem?_set_of hunlock _, ?_⟩
    exact congrArg (Radio.mk · s.sClosed) hsame

/-- A close that nobody comes in between is the interference that requests
allow for. -/
theorem closes_run {i : Nat} (hpc : s.threads[i]? = some .atClose)
    (hfree : s.mutex = false) :
    ∃ s', Run s s' ∧ s'.mutex = false ∧
      s'.radio = s.radio.after .readerClosed := by
  have hset := getElem?_set_of hpc .setClosed
  have hlock := getElem?_set_of hset (.lock .UNAVAILABLE)
  have hclosed : Run s _ := .head (.atClose hpc) (.single (.setClosed hset))
  obtain ⟨s', hrun, hmutex, -, hradio⟩ := lock_run
    (s := { (s.thread i .setClosed).thread i (.lock .UNAVAILABLE) with
      sClosed := true }) hlock hfree
  exact ⟨s', hclosed.trans hrun, hmutex, hradio⟩

/-- So is the channel that is opened again. -/
theorem reset_run (hpc : s.main = .resetting) :
    ∃ s', Run s s' ∧ s'.radio = s.radio.after .reopened :=
  ⟨_, .single (.reset hpc), rfl⟩

end Undisturbed

theorem start_inv : Inv .start where
  mutex := rfl
  current := List.forall_mem_nil _
  closed := fun hclosed => by cases hclosed
  wakes := fun hclosed => by cases hclosed
  tells := fun hannounced => by cases hannounced

theorem run_inv {s s' : State} (hrun : Run s s') (hinv : Inv s) : Inv s' := by
  induction hrun with
  | refl => exact hinv
  | tail _ hstep ih => exact step_inv hstep ih

/-- What the callbacks, the main loop and whoever sets the state give each
other. -/
structure Reliable (s : State) : Prop where
  /-- The main thread is not left asleep behind a closed channel. -/
  noticed : s.sClosed = true → s.main.sleeps = true →
    ∃ pc ∈ s.threads, pc.wakes = true
  /-- Behind a closed channel the radio is unavailable, whatever state it is
  set to. -/
  unavailable : s.sClosed = true → s.sState = .UNAVAILABLE ∨
    ∃ pc ∈ s.threads, pc.closing = true
  /-- No change of the state is kept to the file. -/
  announced : s.announced = false → ∃ pc ∈ s.threads, pc.tells s.sState = true

theorem Inv.reliable {s : State} (hinv : Inv s) : Reliable s := by
  refine ⟨fun hclosed hsleeps => ?_, fun hclosed => ?_, fun hannounced => ?_⟩
  · exact List.countP_pos_iff.mp (hinv.wakes hclosed hsleeps)
  · rcases hinv.closed hclosed with hpos | ⟨hstate, -⟩
    · exact .inr (List.countP_pos_iff.mp hpos)
    · exact .inl hstate
  · exact List.countP_pos_iff.mp (hinv.tells hannounced)

/-- Where no thread is at it, the main thread does not sleep behind a closed
channel, the radio is unavailable there, and its last change has been sent. -/
theorem run_settled {s : State} (hrun : Run .start s)
    (hdone : ∀ pc ∈ s.threads, pc = .done) :
    (s.sClosed = true → s.main.sleeps = false ∧
      s.sState = .UNAVAILABLE) ∧ s.announced = true := by
  obtain ⟨hnoticed, hunavailable, hannounced⟩ :=
    (run_inv hrun start_inv).reliable
  have hnobody : ∀ p : ThreadPc → Bool, p .done = false →
      ¬ ∃ pc ∈ s.threads, p pc = true := by
    rintro p hp ⟨pc, hmem, hpc⟩
    rw [hdone pc hmem, hp] at hpc
    cases hpc
  refine ⟨fun hclosed => ⟨?_, ?_⟩, ?_⟩
  · rw [← Bool.not_eq_true]
    exact fun hsleeps => hnobody _ rfl (hnoticed hclosed hsleeps)
  · exact (hunavailable hclosed).resolve_right (hnobody _ rfl)
  · rw [← Bool.not_eq_false]
    exact fun hkept => hnobody _ rfl (hannounced hkept)

/-- Whatever the order of the steps, no close is missed, the radio is
unavailable behind it, and no change of the state is kept back. -/
theorem run_reliable {s : State} (hrun : Run .start s) : Reliable s :=
  (run_inv hrun start_inv).reliable

namespace RilRadioStateWitness

/-- The radio has been off, the channel has been closed behind the main
thread's back, and the main thread has been woken. -/
def woken : State where
  main := .woken
  mutex := true
  sClosed := true
  sState := .UNAVAILABLE
  threads := [.done, .unlock .OFF]
  announced := false

theorem woken_run : Run .start woken := by
  refine .head (.opened rfl) ?_
  refine .head (.reset rfl) ?_
  refine .head (.atOpen rfl) ?_
  refine .head (.slept rfl) ?_
  refine .head (.mainLock rfl rfl) ?_
  refine .head (.mainOpen rfl rfl) ?_
  refine .head (.mainWait rfl) ?_
  refine .head (.sets .OFF) ?_
  refine .head (.lock (i := 0) rfl rfl) ?_
  refine .head (.read (i := 0) rfl) ?_
  refine .head (.testClosed (i := 0) rfl) ?_
  refine .head (.differs (i := 0) rfl (.inl (by decide))) ?_
  refine .head (.store (i := 0) rfl) ?_
  refine .head (.broadcast (i := 0) rfl) ?_
  refine .head (.unlock (i := 0) rfl) ?_
  refine .head (.changed (i := 0) rfl (by decide)) ?_
  refine .head (.notify (i := 0) rfl) ?_
  refine .head (.mainRelock rfl rfl) ?_
  refine .head (.mainOpen rfl rfl) ?_
  refine .head (.mainWait rfl) ?_
  refine .head .closes ?_
  refine .head (.atClose (i := 1) rfl) ?_
  refine .head (.setClosed (i := 1) rfl) ?_
  refine .head (.lock (i := 1) rfl rfl) ?_
  refine .head (.read (i := 1) rfl) ?_
  refine .head (.testClosed (i := 1) rfl) ?_
  refine .head (.differs (i := 1) rfl (.inr rfl)) ?_
  refine .head (.store (i := 1) rfl) ?_
  exact .head (.broadcast (i := 1) rfl) .refl

theorem woken_reliable : Reliable woken := run_reliable woken_run

end RilRadioStateWitness

end RilRadioState

end MetaOS
