/-
bootable/recovery/ui.c: the key queue between the input thread and the threads
that wait for keys.

A step is one access of the queue or of the table of pressed keys, or one call
that locks, unlocks, waits or signals.  Threads interleave in any order, any
number of them wait for keys or clear the queue, and a thread may wake from
`pthread_cond_wait` without having been woken.  `ui_wait_key` moves the other
keys to the front with a `memcpy` whose two ranges overlap; here it is taken
for the shift that is meant.
-/
import Mathlib.Logic.Function.Basic
import Mathlib.Logic.Relation
import MetaOS.BoundedQueue
import MetaOS.ThreadPools

namespace MetaOS

namespace UiKeys

open BoundedQueue ThreadPools

def EV_SYN : Nat := 0
def EV_KEY : Nat := 1
def EV_REL : Nat := 2
def REL_Y : Nat := 1
def KEY_UP : Nat := 103
def KEY_DOWN : Nat := 108
def KEY_HOME : Nat := 102
def KEY_MAX : Nat := 0x1ff

structure InputEvent where
  type : Nat
  code : Nat
  value : Int

/-- A key event, which may be faked from the trackball. -/
structure Key where
  code : Nat
  value : Int
  fake : Bool

def Key.inRange (key : Key) : Option Key :=
  if KEY_MAX < key.code then none else some key

/-- The loop of `input_thread` that waits for the next key event: `rel_sum`,
and the key that ends the loop. -/
def nextKey (relSum : Int) (ev : InputEvent) : Int × Option Key :=
  if ev.type = EV_SYN then (relSum, none)
  else if ev.type = EV_REL then
    if ev.code = REL_Y then
      let relSum := relSum + ev.value
      if 3 < relSum then (0, Key.inRange ⟨KEY_DOWN, 1, true⟩)
      else if relSum < -3 then (0, Key.inRange ⟨KEY_UP, 1, true⟩)
      else (relSum, none)
    else (relSum, none)
  else if ev.type = EV_KEY then (0, Key.inRange ⟨ev.code, ev.value, false⟩)
  else (0, none)

/-- `rel_sum` and the key events after some input. -/
def decode : List InputEvent → Int × List Key → Int × List Key
  | [], decoded => decoded
  | ev :: events, (relSum, keys) =>
      let next := nextKey relSum ev
      decode events (next.1, keys ++ next.2.toList)

/-- The keys that are pressed down, in their order. -/
def pressedKeys (events : List InputEvent) : List Nat :=
  ((decode events (0, [])).2.filter fun key => 0 < key.value).map Key.code

/-- The next step of the input thread. -/
inductive InputPc where
  | get
  | lock (key : Key)
  | press (key : Key)
  | test (key : Key)
  | store (key : Key)
  | signal (key : Key)
  | unlock (key : Key)
  | toggle (key : Key)

/-- The next step of a thread that calls `ui_wait_key` and
`ui_clear_key_queue`. -/
inductive ReaderPc where
  | idle
  | lock
  | test
  | blocked
  | woken
  | take
  | unlock (key : Nat)
  | clearLock
  | clear
  | clearUnlock
  deriving DecidableEq

def queueMax : Nat := 256

/-- The variables of the threads; `events` and `log` only record what has
happened. -/
structure State where
  mutex : Bool
  queue : List Nat
  keyPressed : Nat → Int
  showText : Bool
  relSum : Int
  input : InputPc
  readers : List ReaderPc
  events : List InputEvent
  log : List (Op Nat)

/-- Nothing has happened, and so many threads may ask for keys. -/
def State.start (count : Nat) : State where
  mutex := false
  queue := []
  keyPressed _ := 0
  showText := true
  relSum := 0
  input := .get
  readers := List.replicate count .idle
  events := []
  log := []

/-- The thread goes on to the queue with a key. -/
def received : Option Key → InputPc
  | none => .get
  | some key => .lock key

/-- `ev_get` has delivered an event. -/
def State.read (s : State) (ev : InputEvent) : State :=
  let next := nextKey s.relSum ev
  { s with
    relSum := next.1
    input := received next.2
    events := s.events ++ [ev] }

def State.reader (s : State) (i : Nat) (pc : ReaderPc) : State :=
  { s with readers := s.readers.set i pc }

inductive Step (s : State) : State → Prop
  | get (hpc : s.input = .get) (ev : InputEvent) : Step s (s.read ev)
  | lock {key : Key} (hpc : s.input = .lock key) (hfree : s.mutex = false) :
      Step s { s with mutex := true, input := .press key }
  | press {key : Key} (hpc : s.input = .press key) :
      Step s { s with
        keyPressed :=
          if key.fake then s.keyPressed
          else Function.update s.keyPressed key.code (key.value % 256)
        input := .test key }
  | up {key : Key} (hpc : s.input = .test key) (hup : key.value ≤ 0) :
      Step s { s with input := .unlock key }
  | full {key : Key} (hpc : s.input = .test key) (hdown : 0 < key.value)
      (hfull : queueMax ≤ s.queue.length) :
      Step s { s with
        input := .unlock key, log := s.log ++ [.drop key.code] }
  | room {key : Key} (hpc : s.input = .test key) (hdown : 0 < key.value)
      (hroom : s.queue.length < queueMax) :
      Step s { s with input := .store key }
  | store {key : Key} (hpc : s.input = .store key) :
      Step s { s with
        queue := s.queue ++ [key.code]
        input := .signal key
        log := s.log ++ [.put key.code] }
  | signal {key : Key} {i : Nat} (hpc : s.input = .signal key)
      (hblocked : s.readers[i]? = some .blocked) :
      Step s { s.reader i .woken with input := .unlock key }
  | signalNobody {key : Key} (hpc : s.input = .signal key)
      (hnobody : .blocked ∉ s.readers) :
      Step s { s with input := .unlock key }
  | unlock {key : Key} (hpc : s.input = .unlock key) :
      Step s { s with mutex := false, input := .toggle key }
  | toggle {key : Key} (hpc : s.input = .toggle key) :
      Step s { s with
        showText :=
          if 0 < key.value ∧ key.code = KEY_HOME then !s.showText
          else s.showText
        input := .get }
  | callWaitKey {i : Nat} (hpc : s.readers[i]? = some .idle) :
      Step s (s.reader i .lock)
  | readerLock {i : Nat} (hpc : s.readers[i]? = some .lock)
      (hfree : s.mutex = false) :
      Step s { s.reader i .test with mutex := true }
  | block {i : Nat} (hpc : s.readers[i]? = some .test)
      (hempty : s.queue = []) :
      Step s { s.reader i .blocked with mutex := false }
  | found {i : Nat} (hpc : s.readers[i]? = some .test)
      (hsome : s.queue ≠ []) : Step s (s.reader i .take)
  | spurious {i : Nat} (hpc : s.readers[i]? = some .blocked) :
      Step s (s.reader i .woken)
  | relock {i : Nat} (hpc : s.readers[i]? = some .woken)
      (hfree : s.mutex = false) :
      Step s { s.reader i .test with mutex := true }
  | take {i : Nat} {key : Nat} {queue : List Nat}
      (hpc : s.readers[i]? = some .take) (hqueue : s.queue = key :: queue) :
      Step s { s.reader i (.unlock key) with
        queue := queue, log := s.log ++ [.take key] }
  | readerUnlock {i key : Nat} (hpc : s.readers[i]? = some (.unlock key)) :
      Step s { s.reader i .idle with mutex := false }
  | callClear {i : Nat} (hpc : s.readers[i]? = some .idle) :
      Step s (s.reader i .clearLock)
  | clearLock {i : Nat} (hpc : s.readers[i]? = some .clearLock)
      (hfree : s.mutex = false) :
      Step s { s.reader i .clear with mutex := true }
  | clear {i : Nat} (hpc : s.readers[i]? = some .clear) :
      Step s { s.reader i .clearUnlock with
        queue := [], log := s.log ++ [.clear] }
  | clearUnlock {i : Nat} (hpc : s.readers[i]? = some .clearUnlock) :
      Step s { s.reader i .idle with mutex := false }

abbrev Run : State → State → Prop := Relation.ReflTransGen Step

namespace InputPc

/-- The thread is between its lock and its unlock. -/
def holds : InputPc → Bool
  | press _ | test _ | store _ | signal _ | unlock _ => true
  | _ => false

def signals : InputPc → Bool
  | signal _ => true
  | _ => false

/-- The key that is still to be put into the queue. -/
def offering : InputPc → List Nat
  | lock key | press key | test key | store key =>
      if 0 < key.value then [key.code] else []
  | _ => []

/-- The key has a place in the table of pressed keys. -/
def InRange : InputPc → Prop
  | get => True
  | lock key | press key | test key | store key | signal key | unlock key
  | toggle key => key.code ≤ KEY_MAX

end InputPc

namespace ReaderPc

def holds : ReaderPc → Bool
  | test | take | unlock _ | clear | clearUnlock => true
  | _ => false

def takes : ReaderPc → Bool
  | take => true
  | _ => false

def clears : ReaderPc → Bool
  | clear => true
  | _ => false

/-- The thread is going to look at the queue although it has waited or could
have waited. -/
def awake : ReaderPc → Bool
  | woken | test | take => true
  | _ => false

def sleeps : ReaderPc → Bool
  | blocked => true
  | _ => false

end ReaderPc

/-- One thread at most is inside; what the queue holds has a history; no thread
sleeps while there are more keys than threads that are going to look. -/
structure Inv (s : State) : Prop where
  mutex : s.input.holds.toNat + s.readers.countP ReaderPc.holds =
    s.mutex.toNat
  takes : 0 < s.readers.countP ReaderPc.takes → 0 < s.queue.length
  stores : ∀ key, s.input = .store key →
    s.queue.length < queueMax ∧ 0 < key.value
  awake : 0 < s.readers.countP ReaderPc.sleeps →
    s.queue.length ≤ s.readers.countP ReaderPc.awake + s.input.signals.toNat
  history : replay queueMax [] s.log = some s.queue
  offered : offered s.log ++ s.input.offering = pressedKeys s.events
  relSum : s.relSum = (decode s.events (0, [])).1
  inRange : s.input.InRange

section Decode

theorem decode_append (events events' : List InputEvent)
    (decoded : Int × List Key) :
    decode (events ++ events') decoded =
      decode events' (decode events decoded) := by
  induction events generalizing decoded with
  | nil => rfl
  | cons ev events ih => exact ih _

/-- One more event. -/
theorem decode_snoc (events : List InputEvent) (ev : InputEvent) :
    decode (events ++ [ev]) (0, []) =
      ((nextKey (decode events (0, [])).1 ev).1,
        (decode events (0, [])).2 ++
          (nextKey (decode events (0, [])).1 ev).2.toList) := by
  rw [decode_append]
  rfl

theorem pressedKeys_snoc (events : List InputEvent) (ev : InputEvent) :
    pressedKeys (events ++ [ev]) = pressedKeys events ++
      (received (nextKey (decode events (0, [])).1 ev).2).offering := by
  unfold pressedKeys
  rw [decode_snoc, List.filter_append, List.map_append]
  congr 1
  cases (nextKey (decode events (0, [])).1 ev).2 with
  | none => rfl
  | some key =>
      by_cases hdown : 0 < key.value
      · simp [received, InputPc.offering, hdown]
      · simp [received, InputPc.offering, hdown]

theorem received_inRange (relSum : Int) (ev : InputEvent) :
    (received (nextKey relSum ev).2).InRange := by
  have hkey : ∀ key : Key, (received key.inRange).InRange := by
    intro key
    unfold Key.inRange
    split
    · trivial
    · rename_i hmax
      exact Nat.not_lt.mp hmax
  unfold nextKey
  dsimp only
  split
  · trivial
  split
  · split
    · split
      · exact hkey ⟨KEY_DOWN, 1, true⟩
      · split
        · exact hkey ⟨KEY_UP, 1, true⟩
        · trivial
    · trivial
  · split
    · exact hkey ⟨ev.code, ev.value, false⟩
    · trivial

end Decode

section Counts

/-- Threads that take and threads that clear are inside. -/
theorem countP_takes_clears (readers : List ReaderPc) :
    readers.countP ReaderPc.takes + readers.countP ReaderPc.clears ≤
      readers.countP ReaderPc.holds := by
  induction readers with
  | nil => exact Nat.le_refl _
  | cons pc readers ih =>
      cases pc with
      | _ =>
          simp only [List.countP_cons, ReaderPc.takes, ReaderPc.clears,
            ReaderPc.holds, Bool.false_eq_true, reduceIte]
          omega

end Counts

section Steps

variable {s : State}

/-- A reader goes on and leaves the queue as it is. -/
theorem Inv.reader (hinv : Inv s) {i : Nat} {pc pc' : ReaderPc}
    (hpc : s.readers[i]? = some pc) {mutex : Bool}
    (hmutex : pc'.holds.toNat + s.mutex.toNat = pc.holds.toNat + mutex.toNat)
    (htakes : pc'.takes = true → 0 < s.queue.length)
    (hawake : pc.awake = true → pc'.awake = true ∨ s.queue.length = 0)
    (hsleeps : pc'.sleeps = true → s.queue.length = 0) :
    Inv { s.reader i pc' with mutex := mutex } := by
  have hholds' := countP_set_add hpc pc' ReaderPc.holds
  have htakes' := countP_set_add hpc pc' ReaderPc.takes
  have hawake' := countP_set_add hpc pc' ReaderPc.awake
  have hsleeps' := countP_set_add hpc pc' ReaderPc.sleeps
  have hinside := hinv.mutex
  constructor
  · change s.input.holds.toNat + (s.readers.set i pc').countP _ =
      mutex.toNat
    omega
  · intro hcount
    change 0 < (s.readers.set i pc').countP _ at hcount
    by_cases htake : pc'.takes = true
    · exact htakes htake
    · rw [Bool.not_eq_true] at htake
      rw [htake, Bool.toNat_false] at htakes'
      exact hinv.takes (by omega)
  · exact hinv.stores
  · intro hcount
    change 0 < (s.readers.set i pc').countP _ at hcount
    change s.queue.length ≤ (s.readers.set i pc').countP _ +
      s.input.signals.toNat
    by_cases hempty : s.queue.length = 0
    · omega
    · have hsleep : pc'.sleeps = false :=
        Bool.eq_false_iff.mpr fun h => hempty (hsleeps h)
      rw [hsleep, Bool.toNat_false] at hsleeps'
      have hbefore := hinv.awake (by omega)
      have hstill : pc.awake.toNat ≤ pc'.awake.toNat := by
        cases hpcAwake : pc.awake with
        | false => exact Nat.zero_le _
        | true =>
            exact Nat.le_of_eq (congrArg Bool.toNat
              ((hawake hpcAwake).resolve_right hempty)).symm
      omega
  · exact hinv.history
  · exact hinv.offered
  · exact hinv.relSum
  · exact hinv.inRange

/-- The input thread goes on and leaves the queue and the readers as they
are. -/
theorem Inv.inputStep (hinv : Inv s) {pc : InputPc} {mutex : Bool}
    {keyPressed : Nat → Int} {showText : Bool}
    (hmutex : pc.holds.toNat + s.mutex.toNat =
      s.input.holds.toNat + mutex.toNat)
    (hstores : ∀ key, pc = .store key →
      s.queue.length < queueMax ∧ 0 < key.value)
    (hsignals : s.input.signals = true → pc.signals = true ∨
      s.readers.countP ReaderPc.sleeps = 0)
    (hoffering : pc.offering = s.input.offering) (hrange : pc.InRange) :
    Inv { s with mutex := mutex, keyPressed := keyPressed,
                 showText := showText, input := pc } := by
  have hinside := hinv.mutex
  constructor
  · change pc.holds.toNat + s.readers.countP _ = mutex.toNat
    omega
  · exact hinv.takes
  · exact hstores
  · intro hcount
    change s.queue.length ≤ s.readers.countP _ + pc.signals.toNat
    have hbefore := hinv.awake hcount
    have hstill : s.input.signals.toNat ≤ pc.signals.toNat := by
      cases hold : s.input.signals with
      | false => exact Nat.zero_le _
      | true =>
          exact Nat.le_of_eq (congrArg Bool.toNat
            ((hsignals hold).resolve_right (Nat.ne_of_gt hcount))).symm
    omega
  · exact hinv.history
  · change BoundedQueue.offered s.log ++ pc.offering = _
    rw [hoffering]
    exact hinv.offered
  · exact hinv.relSum
  · exact hrange

/-- A reader that is inside has the mutex. -/
theorem Inv.held (hinv : Inv s) {i : Nat} {pc : ReaderPc}
    (hpc : s.readers[i]? = some pc) (hholds : pc.holds = true) :
    s.mutex = true := by
  have hinside := hinv.mutex
  have hpos := countP_pos hpc hholds
  cases hmutex : s.mutex with
  | true => rfl
  | false =>
      rw [hmutex, Bool.toNat_false] at hinside
      omega

/-- So does the input thread. -/
theorem Inv.inputHeld (hinv : Inv s) (hholds : s.input.holds = true) :
    s.mutex = true := by
  have hinside := hinv.mutex
  cases hmutex : s.mutex with
  | true => rfl
  | false =>
      rw [hmutex, hholds] at hinside
      simp at hinside

theorem Inv.get (hinv : Inv s) (hpc : s.input = .get) (ev : InputEvent) :
    Inv (s.read ev) := by
  have hidle : ∀ key : Option Key, (received key).holds = false ∧
      (received key).signals = false ∧
      ∀ key', received key ≠ .store key' := by
    rintro (_ | key)
    · exact ⟨rfl, rfl, fun _ h => by cases h⟩
    · exact ⟨rfl, rfl, fun _ h => by cases h⟩
  obtain ⟨hholds, hsignals, hstore⟩ := hidle (nextKey s.relSum ev).2
  constructor
  · change (received _).holds.toNat + s.readers.countP _ = s.mutex.toNat
    rw [hholds, ← hinv.mutex, hpc]
    rfl
  · exact hinv.takes
  · exact fun key heq => absurd heq (hstore key)
  · intro hcount
    have hbefore := hinv.awake hcount
    rw [hpc] at hbefore
    exact Nat.le_trans hbefore (Nat.add_le_add_left (Nat.zero_le _) _)
  · exact hinv.history
  · have hoffered := hinv.offered
    rw [hpc] at hoffered
    change BoundedQueue.offered s.log ++
      (received (nextKey s.relSum ev).2).offering = _
    rw [hinv.relSum, State.read, pressedKeys_snoc, ← hoffered]
    simp [InputPc.offering]
  · change (nextKey s.relSum ev).1 = (decode (s.events ++ [ev]) (0, [])).1
    rw [decode_snoc, hinv.relSum]
  · exact received_inRange s.relSum ev

/-- A key that comes when the queue is full is dropped. -/
theorem Inv.full (hinv : Inv s) {key : Key} (hpc : s.input = .test key)
    (hdown : 0 < key.value) (hfull : queueMax ≤ s.queue.length) :
    Inv { s with
      input := .unlock key, log := s.log ++ [.drop key.code] } := by
  have hrange := hinv.inRange
  rw [hpc] at hrange
  constructor
  · rw [← hinv.mutex, hpc]
    rfl
  · exact hinv.takes
  · exact fun _ h => by cases h
  · intro hcount
    have hbefore := hinv.awake hcount
    rw [hpc] at hbefore
    exact hbefore
  · exact replay_snoc hinv.history (apply_drop.mpr ⟨hfull, rfl⟩)
  · have hoffered := hinv.offered
    rw [hpc] at hoffered
    simpa [InputPc.offering, hdown, BoundedQueue.offered] using hoffered
  · exact hinv.relSum
  · exact hrange

/-- A key is put into the queue, and the thread is about to signal. -/
theorem Inv.store (hinv : Inv s) {key : Key} (hpc : s.input = .store key) :
    Inv { s with
      queue := s.queue ++ [key.code]
      input := .signal key
      log := s.log ++ [.put key.code] } := by
  have hrange := hinv.inRange
  rw [hpc] at hrange
  obtain ⟨hroom, hdown⟩ := hinv.stores key hpc
  constructor
  · rw [← hinv.mutex, hpc]
    rfl
  · intro _
    simp
  · exact fun _ h => by cases h
  · intro hcount
    have hbefore := hinv.awake hcount
    rw [hpc] at hbefore
    rw [List.length_append]
    exact Nat.add_le_add_right hbefore 1
  · exact replay_snoc hinv.history (apply_put.mpr ⟨hroom, rfl⟩)
  · have hoffered := hinv.offered
    rw [hpc] at hoffered
    simpa [InputPc.offering, hdown, BoundedQueue.offered] using hoffered
  · exact hinv.relSum
  · exact hrange

/-- The signal is passed on to a thread that sleeps. -/
theorem Inv.signal (hinv : Inv s) {key : Key} {i : Nat}
    (hpc : s.input = .signal key) (hblocked : s.readers[i]? = some .blocked) :
    Inv { s.reader i .woken with input := .unlock key } := by
  have hinside := hinv.mutex
  have hrange := hinv.inRange
  rw [hpc] at hrange
  have hholds' := countP_set_add hblocked .woken ReaderPc.holds
  have htakes' := countP_set_add hblocked .woken ReaderPc.takes
  have hawake' := countP_set_add hblocked .woken ReaderPc.awake
  have hsleeping : 0 < s.readers.countP ReaderPc.sleeps :=
    countP_pos hblocked rfl
  have hbefore := hinv.awake hsleeping
  rw [hpc] at hbefore hinside
  simp only [ReaderPc.holds, ReaderPc.takes, ReaderPc.awake,
    Bool.toNat_false, Bool.toNat_true, InputPc.signals, InputPc.holds]
    at hholds' htakes' hawake' hbefore hinside
  constructor
  · change 1 + (s.readers.set i .woken).countP _ = s.mutex.toNat
    omega
  · intro hcount
    change 0 < (s.readers.set i .woken).countP _ at hcount
    exact hinv.takes (by omega)
  · exact fun _ h => by cases h
  · intro _
    change s.queue.length ≤ (s.readers.set i .woken).countP _ + 0
    omega
  · exact hinv.history
  · have hoffered := hinv.offered
    rw [hpc] at hoffered
    exact hoffered
  · exact hinv.relSum
  · exact hrange

/-- A reader takes the first key. -/
theorem Inv.take (hinv : Inv s) {i key : Nat} {queue : List Nat}
    (hpc : s.readers[i]? = some .take) (hqueue : s.queue = key :: queue) :
    Inv { s.reader i (.unlock key) with
      queue := queue, log := s.log ++ [.take key] } := by
  have hinside := hinv.mutex
  have htakesLe := countP_takes_clears s.readers
  have hholds' := countP_set_add hpc (.unlock key) ReaderPc.holds
  have htakes' := countP_set_add hpc (.unlock key) ReaderPc.takes
  have hawake' := countP_set_add hpc (.unlock key) ReaderPc.awake
  have hsleeps' := countP_set_add hpc (.unlock key) ReaderPc.sleeps
  have hholding := countP_pos hpc (p := ReaderPc.holds) rfl
  have hbefore := hinv.awake
  have hbool := Bool.toNat_le s.mutex
  rw [hqueue, List.length_cons] at hbefore
  simp only [ReaderPc.holds, ReaderPc.takes, ReaderPc.awake,
    ReaderPc.sleeps, Bool.toNat_false, Bool.toNat_true]
    at hholds' htakes' hawake' hsleeps'
  constructor
  · change s.input.holds.toNat + (s.readers.set i _).countP _ =
      s.mutex.toNat
    omega
  · intro hcount
    change 0 < (s.readers.set i _).countP _ at hcount
    omega
  · intro key' hstore
    change s.input = _ at hstore
    rw [hstore] at hinside
    simp only [InputPc.holds, Bool.toNat_true] at hinside
    omega
  · intro hcount
    change 0 < (s.readers.set i _).countP _ at hcount
    change queue.length ≤ (s.readers.set i _).countP _ +
      s.input.signals.toNat
    have hcovered := hbefore (by omega)
    omega
  · have hhistory := hinv.history
    rw [hqueue] at hhistory
    exact replay_snoc hhistory (apply_take.mpr rfl)
  · change BoundedQueue.offered (s.log ++ [.take key]) ++
      s.input.offering = _
    have hnone : BoundedQueue.offered [Op.take key] = [] := rfl
    rw [offered_append, hnone, List.append_nil]
    exact hinv.offered
  · exact hinv.relSum
  · exact hinv.inRange

/-- A reader that is inside empties the queue, so no other is about to take. -/
theorem Inv.clear (hinv : Inv s) {i : Nat}
    (hpc : s.readers[i]? = some .clear) :
    Inv { s.reader i .clearUnlock with
      queue := [], log := s.log ++ [.clear] } := by
  have hinside := hinv.mutex
  have hholds' := countP_set_add hpc .clearUnlock ReaderPc.holds
  have htakes' := countP_set_add hpc .clearUnlock ReaderPc.takes
  have hholding := countP_pos hpc (p := ReaderPc.holds) rfl
  have hclears : s.readers.countP ReaderPc.takes = 0 := by
    have hsum := countP_takes_clears s.readers
    have hclearing := countP_pos hpc (p := ReaderPc.clears) rfl
    have hbool := Bool.toNat_le s.mutex
    omega
  simp only [ReaderPc.holds, ReaderPc.takes, Bool.toNat_false,
    Bool.toNat_true] at hholds' htakes'
  constructor
  · change s.input.holds.toNat + (s.readers.set i _).countP _ =
      s.mutex.toNat
    omega
  · intro hcount
    change 0 < (s.readers.set i _).countP _ at hcount
    omega
  · intro key hstore
    change s.input = _ at hstore
    exact ⟨(by decide : 0 < queueMax), (hinv.stores key hstore).2⟩
  · intro _
    exact Nat.zero_le _
  · exact replay_snoc hinv.history rfl
  · change BoundedQueue.offered (s.log ++ [.clear]) ++ s.input.offering = _
    have hnone : BoundedQueue.offered [(Op.clear : Op Nat)] = [] := rfl
    rw [offered_append, hnone, List.append_nil]
    exact hinv.offered
  · exact hinv.relSum
  · exact hinv.inRange

/-- What one step leads to. -/
theorem step_inv {s' : State} (hstep : Step s s') (hinv : Inv s) : Inv s' := by
  have hrange := hinv.inRange
  cases hstep with
  | get hpc ev => exact hinv.get hpc ev
  | @lock key hpc hfree =>
      rw [hpc] at hrange
      refine hinv.inputStep ?_ nofun (by simp [hpc, InputPc.signals]) ?_ hrange
      · simp [hpc, hfree, InputPc.holds]
      · simp [hpc, InputPc.offering]
  | @press key hpc =>
      rw [hpc] at hrange
      refine hinv.inputStep ?_ nofun (by simp [hpc, InputPc.signals]) ?_ hrange
      · simp [hpc, InputPc.holds]
      · simp [hpc, InputPc.offering]
  | @up key hpc hup =>
      rw [hpc] at hrange
      refine hinv.inputStep ?_ nofun (by simp [hpc, InputPc.signals]) ?_ hrange
      · simp [hpc, InputPc.holds]
      · simp [hpc, InputPc.offering, hup]
  | full hpc hdown hfull => exact hinv.full hpc hdown hfull
  | @room key hpc hdown hroom =>
      rw [hpc] at hrange
      refine hinv.inputStep ?_ ?_ (by simp [hpc, InputPc.signals]) ?_ hrange
      · simp [hpc, InputPc.holds]
      · intro key' heq
        cases heq
        exact ⟨hroom, hdown⟩
      · simp [hpc, InputPc.offering]
  | store hpc => exact hinv.store hpc
  | signal hpc hblocked => exact hinv.signal hpc hblocked
  | @signalNobody key hpc hnobody =>
      rw [hpc] at hrange
      refine hinv.inputStep ?_ nofun (fun _ => .inr ?_) ?_ hrange
      · simp [hpc, InputPc.holds]
      · rw [List.countP_eq_zero]
        rintro pc hmem hsleeps
        cases pc with
        | blocked => exact hnobody hmem
        | _ => cases hsleeps
      · simp [hpc, InputPc.offering]
  | @unlock key hpc =>
      rw [hpc] at hrange
      have hheld := hinv.inputHeld (by rw [hpc]; rfl)
      refine hinv.inputStep ?_ nofun (by simp [hpc, InputPc.signals]) ?_ hrange
      · simp [hpc, hheld, InputPc.holds]
      · simp [hpc, InputPc.offering]
  | @toggle key hpc =>
      refine hinv.inputStep ?_ nofun (by simp [hpc, InputPc.signals]) ?_
        trivial
      · simp [hpc, InputPc.holds]
      · simp [hpc, InputPc.offering]
  | callWaitKey hpc => exact hinv.reader hpc rfl nofun nofun nofun
  | readerLock hpc hfree =>
      exact hinv.reader hpc (by rw [hfree]; rfl) nofun nofun nofun
  | block hpc hempty =>
      have hlength : s.queue.length = 0 := by rw [hempty]; rfl
      exact hinv.reader hpc (by rw [hinv.held hpc rfl]; rfl) nofun
        (fun _ => .inr hlength) fun _ => hlength
  | found hpc hsome =>
      exact hinv.reader hpc rfl (fun _ => List.length_pos_iff.mpr hsome)
        (fun _ => .inl rfl) nofun
  | spurious hpc => exact hinv.reader hpc rfl nofun nofun nofun
  | relock hpc hfree =>
      exact hinv.reader hpc (by rw [hfree]; rfl) nofun (fun _ => .inl rfl)
        nofun
  | take hpc hqueue => exact hinv.take hpc hqueue
  | readerUnlock hpc =>
      exact hinv.reader hpc (by rw [hinv.held hpc rfl]; rfl) nofun nofun nofun
  | callClear hpc => exact hinv.reader hpc rfl nofun nofun nofun
  | clearLock hpc hfree =>
      exact hinv.reader hpc (by rw [hfree]; rfl) nofun nofun nofun
  | clear hpc => exact hinv.clear hpc
  | clearUnlock hpc =>
      exact hinv.reader hpc (by rw [hinv.held hpc rfl]; rfl) nofun nofun nofun

theorem start_inv (count : Nat) : Inv (State.start count) := by
  have hnone : ∀ p : ReaderPc → Bool, p .idle = false →
      (List.replicate count ReaderPc.idle).countP p = 0 := by
    intro p hp
    rw [List.countP_replicate, hp]
    rfl
  constructor
  · exact congrArg (0 + ·) (hnone _ rfl)
  · intro hcount
    exact absurd hcount (Nat.not_lt.mpr (Nat.le_of_eq (hnone _ rfl)))
  · exact nofun
  · intro _
    exact Nat.zero_le _
  · rfl
  · rfl
  · rfl
  · trivial

theorem run_inv {s' : State} (hrun : Run s s') (hinv : Inv s) : Inv s' := by
  induction hrun with
  | refl => exact hinv
  | tail _ hstep ih => exact step_inv hstep ih

end Steps

/-- What the queue is for. -/
structure Delivers (s : State) : Prop where
  /-- Each key that has been pressed has been put into the queue or dropped, in
  the order of the keys, but for the one in progress. -/
  offered : offered s.log ++ s.input.offering = pressedKeys s.events
  /-- A key is dropped only when the queue is full. -/
  history : replay queueMax [] s.log = some s.queue
  /-- Keys are taken in their order and once at most. -/
  order : (taken s.log ++ s.queue).Sublist (accepted s.log)
  /-- Only `ui_clear_key_queue` loses a key. -/
  complete : Op.clear ∉ s.log → taken s.log ++ s.queue = accepted s.log
  /-- A key is stored in the array, and one is read only where there is one. -/
  stores : ∀ key : Key, s.input = .store key → s.queue.length < queueMax
  takes : ∀ i : Nat, s.readers[i]? = some ReaderPc.take → s.queue ≠ []
  presses : ∀ key, s.input = .press key → key.code ≤ KEY_MAX
  /-- No thread sleeps beside a key unless another is about to look. -/
  wakes : ReaderPc.blocked ∈ s.readers → s.queue ≠ [] →
    s.input.signals = true ∨ ∃ pc ∈ s.readers, pc.awake = true

/-- However the threads interleave and however many of them there are, the key
queue is first come, first served, within its array, and misses no wake-up. -/
theorem run_delivers {count : Nat} {s : State} (hrun : Run (.start count) s) :
    Delivers s := by
  have hinv := run_inv hrun (start_inv count)
  have horder := taken_sublist hinv.history
  rw [List.nil_append] at horder
  constructor
  · exact hinv.offered
  · exact hinv.history
  · exact horder
  · intro hclear
    have hall := taken_append hclear hinv.history
    rwa [List.nil_append] at hall
  · exact fun key hstore => (hinv.stores key hstore).1
  · intro i hpc
    exact List.length_pos_iff.mp (hinv.takes (countP_pos hpc rfl))
  · intro key hpc
    have hrange := hinv.inRange
    rw [hpc] at hrange
    exact hrange
  · intro hblocked hsome
    have hsleeps : 0 < s.readers.countP ReaderPc.sleeps :=
      List.countP_pos_iff.mpr ⟨_, hblocked, rfl⟩
    have hcovered := hinv.awake hsleeps
    have hlength := List.length_pos_iff.mpr hsome
    cases hsignals : s.input.signals with
    | true => exact .inl rfl
    | false =>
        rw [hsignals, Bool.toNat_false] at hcovered
        have hpos : 0 < s.readers.countP ReaderPc.awake := by omega
        obtain ⟨pc, hmem, hawake⟩ := List.countP_pos_iff.mp hpos
        exact .inr ⟨pc, hmem, hawake⟩

namespace UiKeysWitness

/-- A thread has slept, a key has been pressed, and the thread has woken and
taken it. -/
def served : State where
  mutex := true
  queue := []
  keyPressed := Function.update (fun _ => 0) KEY_DOWN 1
  showText := true
  relSum := 0
  input := .toggle ⟨KEY_DOWN, 1, false⟩
  readers := [.unlock KEY_DOWN]
  events := [⟨EV_KEY, KEY_DOWN, 1⟩]
  log := [.put KEY_DOWN, .take KEY_DOWN]

theorem served_run : Run (.start 1) served := by
  refine .head (.callWaitKey (i := 0) rfl) ?_
  refine .head (.readerLock (i := 0) rfl rfl) ?_
  refine .head (.block (i := 0) rfl rfl) ?_
  refine .head (.get rfl ⟨EV_KEY, KEY_DOWN, 1⟩) ?_
  refine .head (.lock rfl rfl) ?_
  refine .head (.press rfl) ?_
  refine .head (.room rfl (by decide) (by decide)) ?_
  refine .head (.store rfl) ?_
  refine .head (.signal (i := 0) rfl rfl) ?_
  refine .head (.unlock rfl) ?_
  refine .head (.relock (i := 0) rfl rfl) ?_
  refine .head (.found (i := 0) rfl nofun) ?_
  exact .head (.take (i := 0) rfl rfl) .refl

theorem served_delivers : Delivers served := run_delivers served_run

end UiKeysWitness

end UiKeys

end MetaOS
