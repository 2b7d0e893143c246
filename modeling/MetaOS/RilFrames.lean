/-
hardware/ril/libril/ril.cpp: frames on the command socket.

`sendResponseRaw` writes the size of the data and then the data, each in a
loop of `write` calls that may take a part of the bytes or be interrupted.
Any number of threads send at the same time; a step is what a thread does
between two points where another may come in.
-/
import MetaOS.ByteString
import MetaOS.RilConnection

namespace MetaOS

namespace LibRil

namespace Frames

open EventRuns
open scoped List

def MAX_COMMAND_BYTES : Nat := 8 * 1024

/-- `htonl`, as the bytes of the result lie in memory. -/
def htonl (n : Nat) : Bytes := (Bytes.ofLeNat 4 n).reverse

/-- The number a big-endian byte string denotes. -/
def beNat (bytes : Bytes) : Nat := Bytes.leNat bytes.reverse

/-- The length in four big-endian bytes, and as many bytes of data. -/
def IsFrame (data frame : Bytes) : Prop :=
  ∃ header, header.length = 4 ∧ beNat header = data.length ∧
    frame = header ++ data

/-- Where a call of `sendResponseRaw` is: before it reads `s_fdCommand`,
before it takes `s_writeMutex`, and in the two calls of `blockingWrite`. -/
inductive Stage where
  | entered
  | fetched (fd : Fd)
  | header (fd : Fd) (writeOffset : Nat)
  | data (fd : Fd) (writeOffset : Nat)
deriving DecidableEq

structure Call where
  serial : Nat
  data : Bytes
  stage : Stage
deriving DecidableEq

/-- A call that has returned. -/
structure Return where
  serial : Nat
  data : Bytes
  ret : Int
deriving DecidableEq

structure State (Thread : Type) where
  sFdCommand : Option Fd
  sWriteMutex : Option Thread
  /-- the bytes that the socket of `s_fdCommand` has taken -/
  stream : Bytes
  /-- the socket has not been closed -/
  isOpen : Bool
  /-- the data of all calls made so far -/
  calls : List Bytes
  senders : Thread → Option Call
  returned : List Return

/-- What a `write` call answers: how many bytes it took, an interrupt, or
another error. -/
inductive WriteAnswer where
  | wrote (count : Nat)
  | interrupted
  | failed
deriving DecidableEq

inductive Event (Thread : Type) where
  | call (thread : Thread) (data : Bytes)
  | fetch (thread : Thread)
  | lock (thread : Thread)
  | write (thread : Thread) (answer : WriteAnswer)
  | proceed (thread : Thread)

/-- A connection on which nothing has been sent. -/
def State.connected {Thread : Type} (fd : Fd) : State Thread :=
  ⟨some fd, none, [], true, [], fun _ => none, []⟩

variable {Thread : Type} [DecidableEq Thread]

def State.setStage (s : State Thread) (thread : Thread) (call : Call)
    (stage : Stage) : State Thread :=
  { s with
    senders := Function.update s.senders thread
      (some { call with stage := stage }) }

def State.finish (s : State Thread) (thread : Thread) (call : Call)
    (ret : Int) : State Thread :=
  { s with
    senders := Function.update s.senders thread none
    returned := s.returned ++ [⟨call.serial, call.data, ret⟩] }

/-- The checks of `sendResponseRaw`. -/
def sendResponseRaw (s : State Thread) (thread : Thread) (call : Call) :
    State Thread :=
  match s.sFdCommand with
  | none => s.finish thread call (-1)
  | some fd =>
      if call.data.length > MAX_COMMAND_BYTES then s.finish thread call (-1)
      else s.setStage thread call (.fetched fd)

/-- One `write` of `blockingWrite`, of `buffer` from `writeOffset` on.  The
descriptor is closed on an error. -/
def blockingWrite (s : State Thread) (thread : Thread) (call : Call)
    (buffer : Bytes) (writeOffset : Nat) (stage : Nat → Stage) :
    WriteAnswer → Option (State Thread)
  | .wrote count =>
      if s.isOpen ∧ count ≤ buffer.length - writeOffset then
        some { s.setStage thread call (stage (writeOffset + count)) with
          stream := s.stream ++ buffer.window writeOffset count }
      else none
  | .interrupted => some s
  | .failed =>
      some { s.finish thread call (-1) with
        isOpen := false
        sWriteMutex := none }

def State.step (s : State Thread) : Event Thread → Option (State Thread)
  | .call thread data =>
      match s.senders thread with
      | none => some { s with
          calls := s.calls ++ [data]
          senders := Function.update s.senders thread
            (some ⟨s.calls.length, data, .entered⟩) }
      | some _ => none
  | .fetch thread =>
      match s.senders thread with
      | some ⟨serial, data, .entered⟩ =>
          some (sendResponseRaw s thread ⟨serial, data, .entered⟩)
      | _ => none
  | .lock thread =>
      match s.senders thread, s.sWriteMutex with
      | some ⟨serial, data, .fetched fd⟩, none =>
          some { s.setStage thread ⟨serial, data, .fetched fd⟩ (.header fd 0)
            with sWriteMutex := some thread }
      | _, _ => none
  | .write thread answer =>
      match s.senders thread with
      | some ⟨serial, data, .header fd writeOffset⟩ =>
          if writeOffset < (htonl data.length).length then
            blockingWrite s thread ⟨serial, data, .header fd writeOffset⟩
              (htonl data.length) writeOffset (.header fd) answer
          else none
      | some ⟨serial, data, .data fd writeOffset⟩ =>
          if writeOffset < data.length then
            blockingWrite s thread ⟨serial, data, .data fd writeOffset⟩ data
              writeOffset (.data fd) answer
          else none
      | _ => none
  | .proceed thread =>
      -- the loop condition of `blockingWrite` is false
      match s.senders thread with
      | some ⟨serial, data, .header fd writeOffset⟩ =>
          if writeOffset < (htonl data.length).length then none
          else some (s.setStage thread ⟨serial, data, .header fd writeOffset⟩
            (.data fd 0))
      | some ⟨serial, data, .data fd writeOffset⟩ =>
          if writeOffset < data.length then none
          else some { s.finish thread ⟨serial, data, .data fd writeOffset⟩ 0
            with sWriteMutex := none }
      | _ => none

/-- No `write` call fails but by an interrupt. -/
def Unbroken (_ : State Thread) : Event Thread → Prop
  | .write _ .failed => False
  | _ => True

/-- The bytes that a call sends. -/
def frame (data : Bytes) : Bytes := htonl data.length ++ data

theorem htonl_length (n : Nat) : (htonl n).length = 4 := by
  simp [htonl]

theorem isFrame_frame {data : Bytes}
    (hsize : data.length ≤ MAX_COMMAND_BYTES) : IsFrame data (frame data) := by
  refine ⟨htonl data.length, htonl_length _, ?_, rfl⟩
  unfold MAX_COMMAND_BYTES at hsize
  rw [beNat, htonl, List.reverse_reverse, Bytes.leNat_ofLeNat]
  exact Nat.mod_eq_of_lt (by omega)

/-- How much of its frame a call has written. -/
def Stage.written : Stage → Nat
  | .entered | .fetched _ => 0
  | .header _ writeOffset => writeOffset
  | .data _ writeOffset => 4 + writeOffset

/-- The call is between the two ends of the mutex. -/
def Stage.writes : Stage → Bool
  | .entered | .fetched _ => false
  | .header _ _ | .data _ _ => true

/-- Past the checks the data fits, and the writes stay inside their
buffers. -/
def Stage.Bounded (data : Bytes) : Stage → Prop
  | .entered => True
  | .fetched _ => data.length ≤ MAX_COMMAND_BYTES
  | .header _ writeOffset =>
      data.length ≤ MAX_COMMAND_BYTES ∧ writeOffset ≤ 4
  | .data _ writeOffset =>
      data.length ≤ MAX_COMMAND_BYTES ∧ writeOffset ≤ data.length

/-- The data of the calls that have succeeded, in the order of their
returns. -/
def State.completed (s : State Thread) : List Bytes :=
  (s.returned.filter (·.ret = 0)).map Return.data

/-- The part of a frame that the thread with the mutex has written. -/
def State.current (s : State Thread) : Bytes :=
  match s.sWriteMutex.bind s.senders with
  | none => []
  | some call => (frame call.data).take call.stage.written

/-- Every call has its number and its data, and it is under way in one thread
or has returned once. -/
structure State.Counted (s : State Thread) : Prop where
  underWay (thread : Thread) (call : Call)
    (hcall : s.senders thread = some call) :
    s.calls[call.serial]? = some call.data ∧
      call.serial ∉ s.returned.map Return.serial
  apart (thread other : Thread) (call call' : Call)
    (hcall : s.senders thread = some call)
    (hcall' : s.senders other = some call')
    (hserial : call.serial = call'.serial) : thread = other
  returned (done : Return) (hmem : done ∈ s.returned) :
    s.calls[done.serial]? = some done.data
  once : (s.returned.map Return.serial).Nodup
  all (n : Nat) (hn : n < s.calls.length) :
    n ∈ s.returned.map Return.serial ∨
      ∃ thread call, s.senders thread = some call ∧ call.serial = n

/-- What is on the socket, and who writes. -/
structure State.Framed (s : State Thread) : Prop where
  connected : s.sFdCommand ≠ none
  stream : s.stream = (s.completed.map frame).flatten ++ s.current
  holder (thread : Thread) (call : Call)
    (hcall : s.senders thread = some call) :
    call.stage.writes = true ↔ s.sWriteMutex = some thread
  held (thread : Thread) (hheld : s.sWriteMutex = some thread) :
    s.senders thread ≠ none
  bounded (thread : Thread) (call : Call)
    (hcall : s.senders thread = some call) : call.stage.Bounded call.data
  verdict (done : Return) (hmem : done ∈ s.returned) :
    if done.data.length ≤ MAX_COMMAND_BYTES then done.ret = 0
    else done.ret = -1

/-- What a step can do. -/
inductive Moves (s : State Thread) : Event Thread → State Thread → Prop
  | call {thread : Thread} {data : Bytes} (hfree : s.senders thread = none) :
      Moves s (.call thread data) { s with
        calls := s.calls ++ [data]
        senders := Function.update s.senders thread
          (some ⟨s.calls.length, data, .entered⟩) }
  | refuse {thread : Thread} {serial : Nat} {data : Bytes}
      (hcall : s.senders thread = some ⟨serial, data, .entered⟩)
      (hreason : s.sFdCommand = none ∨ MAX_COMMAND_BYTES < data.length) :
      Moves s (.fetch thread) (s.finish thread ⟨serial, data, .entered⟩ (-1))
  | fetch {thread : Thread} {serial : Nat} {data : Bytes} {fd : Fd}
      (hcall : s.senders thread = some ⟨serial, data, .entered⟩)
      (hfd : s.sFdCommand = some fd)
      (hsize : data.length ≤ MAX_COMMAND_BYTES) :
      Moves s (.fetch thread)
        (s.setStage thread ⟨serial, data, .entered⟩ (.fetched fd))
  | lock {thread : Thread} {serial : Nat} {data : Bytes} {fd : Fd}
      (hcall : s.senders thread = some ⟨serial, data, .fetched fd⟩)
      (hfree : s.sWriteMutex = none) :
      Moves s (.lock thread)
        { s.setStage thread ⟨serial, data, .fetched fd⟩ (.header fd 0) with
          sWriteMutex := some thread }
  | wroteHeader {thread : Thread} {serial : Nat} {data : Bytes} {fd : Fd}
      {writeOffset count : Nat}
      (hcall : s.senders thread = some ⟨serial, data, .header fd writeOffset⟩)
      (hcount : count ≤ (htonl data.length).length - writeOffset) :
      Moves s (.write thread (.wrote count))
        { s.setStage thread ⟨serial, data, .header fd writeOffset⟩
            (.header fd (writeOffset + count)) with
          stream := s.stream ++
            (htonl data.length).window writeOffset count }
  | wroteData {thread : Thread} {serial : Nat} {data : Bytes} {fd : Fd}
      {writeOffset count : Nat}
      (hcall : s.senders thread = some ⟨serial, data, .data fd writeOffset⟩)
      (hcount : count ≤ data.length - writeOffset) :
      Moves s (.write thread (.wrote count))
        { s.setStage thread ⟨serial, data, .data fd writeOffset⟩
            (.data fd (writeOffset + count)) with
          stream := s.stream ++ data.window writeOffset count }
  | interrupted {thread : Thread} : Moves s (.write thread .interrupted) s
  | failed {thread : Thread} {call : Call}
      (hcall : s.senders thread = some call) :
      Moves s (.write thread .failed) { s.finish thread call (-1) with
        isOpen := false
        sWriteMutex := none }
  | headerDone {thread : Thread} {serial : Nat} {data : Bytes} {fd : Fd}
      {writeOffset : Nat}
      (hcall : s.senders thread = some ⟨serial, data, .header fd writeOffset⟩)
      (hdone : ¬ writeOffset < (htonl data.length).length) :
      Moves s (.proceed thread)
        (s.setStage thread ⟨serial, data, .header fd writeOffset⟩
          (.data fd 0))
  | dataDone {thread : Thread} {serial : Nat} {data : Bytes} {fd : Fd}
      {writeOffset : Nat}
      (hcall : s.senders thread = some ⟨serial, data, .data fd writeOffset⟩)
      (hdone : ¬ writeOffset < data.length) :
      Moves s (.proceed thread)
        { s.finish thread ⟨serial, data, .data fd writeOffset⟩ 0 with
          sWriteMutex := none }

theorem step_moves {s s' : State Thread} {event : Event Thread}
    (hstep : s.step event = some s') : Moves s event s' := by
  unfold State.step at hstep
  split at hstep
  next thread data =>
    split at hstep
    next hfree =>
      rw [← Option.some_inj.mp hstep]
      exact .call hfree
    next => cases hstep
  next thread =>
    split at hstep
    next serial data hcall =>
      rw [← Option.some_inj.mp hstep]
      unfold sendResponseRaw
      split
      next hnone => exact .refuse hcall (.inl hnone)
      next fd hfd =>
        split
        next hsize => exact .refuse hcall (.inr hsize)
        next hsize => exact .fetch hcall hfd (Nat.not_lt.mp hsize)
    next => cases hstep
  next thread =>
    split at hstep
    next serial data fd hcall hfree =>
      rw [← Option.some_inj.mp hstep]
      exact .lock hcall hfree
    next => cases hstep
  next thread answer =>
    split at hstep
    next serial data fd writeOffset hcall =>
      split at hstep
      next =>
        cases answer with
        | wrote count =>
            obtain ⟨⟨-, hcount⟩, hnext⟩ :=
              Option.ite_none_right_eq_some.mp hstep
            rw [← Option.some_inj.mp hnext]
            exact .wroteHeader hcall hcount
        | interrupted =>
            rw [← Option.some_inj.mp hstep]
            exact .interrupted
        | failed =>
            rw [← Option.some_inj.mp hstep]
            exact .failed hcall
      next => cases hstep
    next serial data fd writeOffset hcall =>
      split at hstep
      next =>
        cases answer with
        | wrote count =>
            obtain ⟨⟨-, hcount⟩, hnext⟩ :=
              Option.ite_none_right_eq_some.mp hstep
            rw [← Option.some_inj.mp hnext]
            exact .wroteData hcall hcount
        | interrupted =>
            rw [← Option.some_inj.mp hstep]
            exact .interrupted
        | failed =>
            rw [← Option.some_inj.mp hstep]
            exact .failed hcall
      next => cases hstep
    next => cases hstep
  next thread =>
    split at hstep
    next serial data fd writeOffset hcall =>
      split at hstep
      next => cases hstep
      next hdone =>
        rw [← Option.some_inj.mp hstep]
        exact .headerDone hcall hdone
    next serial data fd writeOffset hcall =>
      split at hstep
      next => cases hstep
      next hdone =>
        rw [← Option.some_inj.mp hstep]
        exact .dataDone hcall hdone
    next => cases hstep

section Counting

variable {s s' : State Thread} {thread : Thread} {call : Call}

/-- A call of a thread after something has happened to one thread. -/
theorem update_eq_some {senders : Thread → Option Call} {other : Thread}
    {value : Option Call} {call' : Call}
    (hcall : Function.update senders thread value other = some call') :
    (other = thread ∧ value = some call') ∨
      (other ≠ thread ∧ senders other = some call') := by
  by_cases hother : other = thread
  · subst hother
    rw [Function.update_self] at hcall
    exact .inl ⟨rfl, hcall⟩
  · rw [Function.update_of_ne hother] at hcall
    exact .inr ⟨hother, hcall⟩

/-- A call moves on. -/
theorem State.Counted.moved (hcounted : s.Counted)
    (hcall : s.senders thread = some call) {stage : Stage}
    (hsenders : s'.senders = Function.update s.senders thread
      (some { call with stage := stage }))
    (hcalls : s'.calls = s.calls) (hreturned : s'.returned = s.returned) :
    s'.Counted := by
  have hbefore : ∀ other call', s'.senders other = some call' →
      ∃ old, s.senders other = some old ∧ old.serial = call'.serial ∧
        old.data = call'.data := by
    intro other call' hcall'
    rw [hsenders] at hcall'
    rcases update_eq_some hcall' with ⟨rfl, hnew⟩ | ⟨-, hold⟩
    · rw [← Option.some_inj.mp hnew]
      exact ⟨call, hcall, rfl, rfl⟩
    · exact ⟨call', hold, rfl, rfl⟩
  constructor
  · intro other call' hcall'
    obtain ⟨old, hold, hserial, hdata⟩ := hbefore other call' hcall'
    rw [hcalls, hreturned, ← hserial, ← hdata]
    exact hcounted.underWay other old hold
  · intro first second call₁ call₂ hcall₁ hcall₂ hserial
    obtain ⟨old₁, hold₁, hserial₁, -⟩ := hbefore first call₁ hcall₁
    obtain ⟨old₂, hold₂, hserial₂, -⟩ := hbefore second call₂ hcall₂
    exact hcounted.apart first second old₁ old₂ hold₁ hold₂
      (by rw [hserial₁, hserial, hserial₂])
  · rw [hreturned, hcalls]
    exact hcounted.returned
  · rw [hreturned]
    exact hcounted.once
  · intro n hn
    rw [hcalls] at hn
    rw [hreturned]
    rcases hcounted.all n hn with hdone | ⟨other, call', hcall', rfl⟩
    · exact .inl hdone
    · right
      by_cases hother : other = thread
      · subst hother
        obtain rfl : call = call' :=
          Option.some_inj.mp (hcall.symm.trans hcall')
        exact ⟨other, { call with stage := stage },
          by rw [hsenders, Function.update_self], rfl⟩
      · exact ⟨other, call', by
          rw [hsenders, Function.update_of_ne hother, hcall'], rfl⟩

/-- A call returns. -/
theorem State.Counted.finished (hcounted : s.Counted)
    (hcall : s.senders thread = some call) {ret : Int}
    (hsenders : s'.senders = Function.update s.senders thread none)
    (hcalls : s'.calls = s.calls)
    (hreturned : s'.returned =
      s.returned ++ [⟨call.serial, call.data, ret⟩]) : s'.Counted := by
  have hserials : s'.returned.map Return.serial =
      s.returned.map Return.serial ++ [call.serial] := by
    rw [hreturned, List.map_append]
    rfl
  obtain ⟨hdata, hfresh⟩ := hcounted.underWay thread call hcall
  have hbefore : ∀ other call', s'.senders other = some call' →
      other ≠ thread ∧ s.senders other = some call' := by
    intro other call' hcall'
    rw [hsenders] at hcall'
    rcases update_eq_some hcall' with ⟨-, hnone⟩ | hold
    · cases hnone
    · exact hold
  constructor
  · intro other call' hcall'
    obtain ⟨hother, hold⟩ := hbefore other call' hcall'
    obtain ⟨hdata', hfresh'⟩ := hcounted.underWay other call' hold
    rw [hcalls, hserials]
    refine ⟨hdata', ?_⟩
    rw [List.mem_append, List.mem_singleton, not_or]
    refine ⟨hfresh', fun hserial => hother ?_⟩
    exact hcounted.apart other thread call' call hold hcall hserial
  · intro first second call₁ call₂ hcall₁ hcall₂ hserial
    exact hcounted.apart first second call₁ call₂ (hbefore _ _ hcall₁).2
      (hbefore _ _ hcall₂).2 hserial
  · intro done hmem
    rw [hcalls]
    rw [hreturned, List.mem_append, List.mem_singleton] at hmem
    rcases hmem with hold | rfl
    · exact hcounted.returned done hold
    · exact hdata
  · rw [hserials, ← List.concat_eq_append]
    exact hcounted.once.concat hfresh
  · intro n hn
    rw [hcalls] at hn
    rw [hserials, List.mem_append, List.mem_singleton]
    rcases hcounted.all n hn with hdone | ⟨other, call', hcall', rfl⟩
    · exact .inl (.inl hdone)
    · by_cases hother : other = thread
      · subst hother
        obtain rfl : call = call' :=
          Option.some_inj.mp (hcall.symm.trans hcall')
        exact .inl (.inr rfl)
      · exact .inr ⟨other, call', by
          rw [hsenders, Function.update_of_ne hother, hcall'], rfl⟩

/-- A call is made. -/
theorem State.Counted.called (hcounted : s.Counted)
    (hfree : s.senders thread = none) {data : Bytes}
    (hsenders : s'.senders = Function.update s.senders thread
      (some ⟨s.calls.length, data, .entered⟩))
    (hcalls : s'.calls = s.calls ++ [data])
    (hreturned : s'.returned = s.returned) : s'.Counted := by
  have hlt : ∀ {n : Nat} {text : Bytes}, s.calls[n]? = some text →
      n < s.calls.length := by
    intro n text hget
    exact (List.getElem?_eq_some_iff.mp hget).1
  have hkept : ∀ {n : Nat} {text : Bytes}, s.calls[n]? = some text →
      s'.calls[n]? = some text := by
    intro n text hget
    rw [hcalls, List.getElem?_append_left (hlt hget), hget]
  have hbefore : ∀ other call', s'.senders other = some call' →
      (other = thread ∧ call' = ⟨s.calls.length, data, .entered⟩) ∨
        s.senders other = some call' := by
    intro other call' hcall'
    rw [hsenders] at hcall'
    rcases update_eq_some hcall' with ⟨rfl, hnew⟩ | ⟨-, hold⟩
    · exact .inl ⟨rfl, (Option.some_inj.mp hnew).symm⟩
    · exact .inr hold
  constructor
  · intro other call' hcall'
    rw [hreturned]
    rcases hbefore other call' hcall' with ⟨rfl, rfl⟩ | hold
    · refine ⟨by simp [hcalls], ?_⟩
      rw [List.mem_map]
      rintro ⟨done, hmem, hserial⟩
      have hbelow := hlt (hcounted.returned done hmem)
      rw [hserial] at hbelow
      exact lt_irrefl _ hbelow
    · obtain ⟨hdata, hfresh⟩ := hcounted.underWay other call' hold
      exact ⟨hkept hdata, hfresh⟩
  · intro first second call₁ call₂ hcall₁ hcall₂ hserial
    rcases hbefore first call₁ hcall₁ with ⟨rfl, rfl⟩ | hold₁
    · rcases hbefore second call₂ hcall₂ with ⟨rfl, rfl⟩ | hold₂
      · rfl
      · have hbelow := hlt (hcounted.underWay second call₂ hold₂).1
        dsimp only at hserial
        omega
    · have hbelow := hlt (hcounted.underWay first call₁ hold₁).1
      rcases hbefore second call₂ hcall₂ with ⟨rfl, rfl⟩ | hold₂
      · dsimp only at hserial
        omega
      · exact hcounted.apart first second call₁ call₂ hold₁ hold₂ hserial
  · intro done hmem
    rw [hreturned] at hmem
    exact hkept (hcounted.returned done hmem)
  · rw [hreturned]
    exact hcounted.once
  · intro n hn
    rw [hcalls, List.length_append, List.length_singleton] at hn
    rw [hreturned]
    by_cases hnew : n = s.calls.length
    · exact .inr ⟨thread, _, by rw [hsenders, Function.update_self],
        hnew.symm⟩
    · rcases hcounted.all n (by omega) with hdone | ⟨other, call', hcall', rfl⟩
      · exact .inl hdone
      · have hother : other ≠ thread := by
          rintro rfl
          rw [hfree] at hcall'
          cases hcall'
        exact .inr ⟨other, call', by
          rw [hsenders, Function.update_of_ne hother, hcall'], rfl⟩

omit [DecidableEq Thread] in
/-- When no call is under way, the data of the returns is the data of the
calls, in another order. -/
theorem State.Counted.perm (hcounted : s.Counted)
    (hquiet : ∀ thread, s.senders thread = none) :
    (s.returned.map Return.data).Perm s.calls := by
  have hserials : (s.returned.map Return.serial).Perm
      (List.range s.calls.length) := by
    rw [List.perm_ext_iff_of_nodup hcounted.once List.nodup_range]
    intro n
    rw [List.mem_range]
    constructor
    · intro hmem
      obtain ⟨done, hdone, rfl⟩ := List.mem_map.mp hmem
      exact (List.getElem?_eq_some_iff.mp (hcounted.returned done hdone)).1
    · intro hn
      rcases hcounted.all n hn with hdone | ⟨thread, call, hcall, -⟩
      · exact hdone
      · rw [hquiet thread] at hcall
        cases hcall
  have hdata : s.returned.map Return.data =
      (s.returned.map Return.serial).map fun n => s.calls[n]?.getD [] := by
    rw [List.map_map]
    apply List.map_congr_left
    intro done hmem
    simp [hcounted.returned done hmem]
  have hcalls : (List.range s.calls.length).map
      (fun n => s.calls[n]?.getD []) = s.calls := by
    apply List.ext_getElem
    · simp
    · intro n hn hn'
      simp [hn']
  calc s.returned.map Return.data
      = (s.returned.map Return.serial).map
          fun n => s.calls[n]?.getD [] := hdata
    _ ~ (List.range s.calls.length).map fun n => s.calls[n]?.getD [] :=
        hserials.map _
    _ = s.calls := hcalls

omit [DecidableEq Thread] in
theorem connected_counted (fd : Fd) :
    (State.connected fd : State Thread).Counted := by
  constructor <;> simp [State.connected]

theorem step_counted {event : Event Thread} (hcounted : s.Counted)
    (hmoves : Moves s event s') : s'.Counted := by
  cases hmoves with
  | call hfree => exact hcounted.called hfree rfl rfl rfl
  | refuse hcall _ => exact hcounted.finished hcall rfl rfl rfl
  | fetch hcall _ _ => exact hcounted.moved hcall rfl rfl rfl
  | lock hcall _ => exact hcounted.moved hcall rfl rfl rfl
  | wroteHeader hcall _ => exact hcounted.moved hcall rfl rfl rfl
  | wroteData hcall _ => exact hcounted.moved hcall rfl rfl rfl
  | interrupted => exact hcounted
  | failed hcall => exact hcounted.finished hcall rfl rfl rfl
  | headerDone hcall _ => exact hcounted.moved hcall rfl rfl rfl
  | dataDone hcall _ => exact hcounted.finished hcall rfl rfl rfl

end Counting

section Framing

variable {s s' : State Thread} {thread : Thread} {call : Call}

omit [DecidableEq Thread] in
theorem current_of_free (hfree : s.sWriteMutex = none) : s.current = [] := by
  simp [State.current, hfree]

omit [DecidableEq Thread] in
theorem current_of_held (hheld : s.sWriteMutex = some thread)
    (hcall : s.senders thread = some call) :
    s.current = (frame call.data).take call.stage.written := by
  simp [State.current, hheld, hcall]

omit [DecidableEq Thread] in
theorem stream_of_held {before : Bytes}
    (hheld : s.sWriteMutex = some thread)
    (hcall : s.senders thread = some call)
    (hstream : s.stream =
      before ++ (frame call.data).take call.stage.written) :
    s.stream = before ++ s.current := by
  rw [hstream, current_of_held hheld hcall]

/-- What a thread without the mutex does leaves the frame under way alone. -/
theorem stream_of_other {value : Option Call} {before : Bytes}
    (hmutex : s'.sWriteMutex = s.sWriteMutex)
    (hsenders : s'.senders = Function.update s.senders thread value)
    (hother : s.sWriteMutex ≠ some thread)
    (hstream : s'.stream = before ++ s.current) :
    s'.stream = before ++ s'.current := by
  rw [hstream]
  unfold State.current
  rw [hmutex, hsenders]
  cases hheld : s.sWriteMutex with
  | none => rfl
  | some holder =>
      have hne : holder ≠ thread := by
        rintro rfl
        exact hother hheld
      simp [Function.update_of_ne hne]

/-- A call is made or moves on, with or without the mutex. -/
theorem State.Framed.moved (hframed : s.Framed)
    (hsenders : s'.senders = Function.update s.senders thread (some call))
    (hfd : s'.sFdCommand = s.sFdCommand)
    (hreturned : s'.returned = s.returned)
    (hstream : s'.stream = (s.completed.map frame).flatten ++ s'.current)
    (hmutex : s'.sWriteMutex = if call.stage.writes then some thread
      else s.sWriteMutex)
    (hkept : call.stage.writes = true → s.sWriteMutex = none ∨
      s.sWriteMutex = some thread)
    (hleft : ¬ call.stage.writes = true → s.sWriteMutex ≠ some thread)
    (hbounded : call.stage.Bounded call.data) : s'.Framed where
  connected := by
    rw [hfd]
    exact hframed.connected
  stream := by
    rw [hstream, State.completed, State.completed, hreturned]
  holder other call' hcall' := by
    rw [hsenders] at hcall'
    rcases update_eq_some hcall' with ⟨rfl, hnew⟩ | ⟨hother, hold⟩
    · rw [← Option.some_inj.mp hnew, hmutex]
      by_cases hwrites : call.stage.writes = true
      · simp [hwrites]
      · simp [hwrites, hleft hwrites]
    · rw [hmutex, hframed.holder other call' hold]
      by_cases hwrites : call.stage.writes = true
      · simp only [hwrites, if_true, Option.some_inj, Ne.symm hother,
          iff_false]
        rcases hkept hwrites with hnone | hsome
        · simp [hnone]
        · simpa [hsome] using Ne.symm hother
      · simp [hwrites]
  held other hheld := by
    rw [hsenders]
    by_cases hother : other = thread
    · simp [hother]
    · rw [Function.update_of_ne hother]
      apply hframed.held
      rw [hmutex] at hheld
      by_cases hwrites : call.stage.writes = true
      · rw [if_pos hwrites, Option.some_inj] at hheld
        exact absurd hheld.symm hother
      · rwa [if_neg hwrites] at hheld
  bounded other call' hcall' := by
    rw [hsenders] at hcall'
    rcases update_eq_some hcall' with ⟨rfl, hnew⟩ | ⟨-, hold⟩
    · rw [← Option.some_inj.mp hnew]
      exact hbounded
    · exact hframed.bounded other call' hold
  verdict := by
    rw [hreturned]
    exact hframed.verdict

/-- A call returns. -/
theorem State.Framed.finished (hframed : s.Framed)
    (hcall : s.senders thread = some call) {ret : Int}
    (hsenders : s'.senders = Function.update s.senders thread none)
    (hfd : s'.sFdCommand = s.sFdCommand)
    (hreturned : s'.returned =
      s.returned ++ [⟨call.serial, call.data, ret⟩])
    (hstream : s'.stream = (s'.completed.map frame).flatten ++ s'.current)
    (hmutex : s'.sWriteMutex = if call.stage.writes then none
      else s.sWriteMutex)
    (hverdict : if call.data.length ≤ MAX_COMMAND_BYTES then ret = 0
      else ret = -1) : s'.Framed where
  connected := by
    rw [hfd]
    exact hframed.connected
  stream := hstream
  holder other call' hcall' := by
    rw [hsenders] at hcall'
    rcases update_eq_some hcall' with ⟨-, hnone⟩ | ⟨hother, hold⟩
    · cases hnone
    · rw [hmutex, hframed.holder other call' hold]
      by_cases hwrites : call.stage.writes = true
      · have hheld := (hframed.holder thread call hcall).mp hwrites
        simpa [hwrites, hheld] using Ne.symm hother
      · simp [hwrites]
  held other hheld := by
    rw [hmutex] at hheld
    by_cases hwrites : call.stage.writes = true
    · simp [hwrites] at hheld
    · rw [if_neg hwrites] at hheld
      have hother : other ≠ thread := by
        rintro rfl
        exact hwrites ((hframed.holder other call hcall).mpr hheld)
      rw [hsenders, Function.update_of_ne hother]
      exact hframed.held other hheld
  bounded other call' hcall' := by
    rw [hsenders] at hcall'
    rcases update_eq_some hcall' with ⟨-, hnone⟩ | ⟨-, hold⟩
    · cases hnone
    · exact hframed.bounded other call' hold
  verdict done hmem := by
    rw [hreturned, List.mem_append, List.mem_singleton] at hmem
    rcases hmem with hold | rfl
    · exact hframed.verdict done hold
    · exact hverdict

omit [DecidableEq Thread] in
theorem connected_framed (fd : Fd) :
    (State.connected fd : State Thread).Framed := by
  constructor <;> simp [State.connected, State.completed, State.current]

omit [DecidableEq Thread] in
/-- A thread that does not write has not got the mutex. -/
theorem State.Framed.not_held (hframed : s.Framed)
    (hcall : s.senders thread = some call)
    (hwrites : call.stage.writes = false) : s.sWriteMutex ≠ some thread := by
  intro hheld
  have hwrites' := (hframed.holder thread call hcall).mpr hheld
  rw [hwrites] at hwrites'
  cases hwrites'

/-- More of a buffer has been written. -/
theorem take_append_window (buffer rest : Bytes) {writeOffset count : Nat}
    (hcount : count ≤ buffer.length - writeOffset) :
    (buffer ++ rest).take writeOffset ++ buffer.window writeOffset count =
      (buffer ++ rest).take (writeOffset + count) := by
  by_cases hin : writeOffset ≤ buffer.length
  · rw [List.take_append_of_le_length hin,
      List.take_append_of_le_length (by omega), List.take_add]
    rfl
  · have hnone : count = 0 := by omega
    simp [hnone, Bytes.window]

theorem step_framed {event : Event Thread} (hframed : s.Framed)
    (hunbroken : Unbroken s event) (hmoves : Moves s event s') :
    s'.Framed := by
  cases hmoves with
  | @call thread data hfree =>
      have hother : s.sWriteMutex ≠ some thread := fun hheld =>
        hframed.held thread hheld hfree
      refine hframed.moved rfl rfl rfl ?_ rfl (by simp [Stage.writes])
        (fun _ => hother) trivial
      exact stream_of_other (s := s) rfl rfl hother hframed.stream
  | @refuse thread serial data hcall hreason =>
      have hother := hframed.not_held hcall rfl
      have hlarge : ¬ data.length ≤ MAX_COMMAND_BYTES :=
        Nat.not_le.mpr (hreason.resolve_left hframed.connected)
      refine hframed.finished hcall rfl rfl rfl ?_ rfl ?_
      · refine stream_of_other (s := s) rfl rfl hother ?_
        simpa [State.completed, State.finish] using hframed.stream
      · rw [if_neg hlarge]
  | fetch hcall _ hsize =>
      have hother := hframed.not_held hcall rfl
      refine hframed.moved rfl rfl rfl ?_ rfl (by simp [Stage.writes])
        (fun _ => hother) hsize
      exact stream_of_other (s := s) rfl rfl hother hframed.stream
  | @lock thread serial data fd hcall hfree =>
      refine hframed.moved rfl rfl rfl ?_ rfl (fun _ => .inl hfree)
        (by simp [Stage.writes])
        ⟨hframed.bounded thread _ hcall, Nat.zero_le _⟩
      refine stream_of_held rfl (Function.update_self ..) ?_
      have hstream := hframed.stream
      rw [current_of_free hfree] at hstream
      exact hstream
  | @wroteHeader thread serial data fd writeOffset count hcall hcount =>
      have hheld := (hframed.holder thread _ hcall).mp rfl
      obtain ⟨hsize, hoffset⟩ := hframed.bounded thread _ hcall
      have hlength := htonl_length data.length
      refine hframed.moved rfl rfl rfl ?_ hheld (fun _ => .inr hheld)
        (by simp [Stage.writes]) ⟨hsize, by omega⟩
      refine stream_of_held hheld (Function.update_self ..) ?_
      have hstream := hframed.stream
      rw [current_of_held hheld hcall] at hstream
      change s.stream ++ _ = _
      rw [hstream, List.append_assoc]
      congr 1
      exact take_append_window _ _ hcount
  | @wroteData thread serial data fd writeOffset count hcall hcount =>
      have hheld := (hframed.holder thread _ hcall).mp rfl
      obtain ⟨hsize, hoffset⟩ := hframed.bounded thread _ hcall
      dsimp only at hoffset
      refine hframed.moved rfl rfl rfl ?_ hheld (fun _ => .inr hheld)
        (by simp [Stage.writes]) ⟨hsize, by dsimp only; omega⟩
      refine stream_of_held hheld (Function.update_self ..) ?_
      have hstream := hframed.stream
      rw [current_of_held hheld hcall] at hstream
      change s.stream ++ _ = _
      rw [hstream, List.append_assoc]
      congr 1
      have hlength := htonl_length data.length
      have hbefore : ∀ n, (frame data).take (4 + n) =
          htonl data.length ++ data.take n := by
        intro n
        rw [frame, List.take_append, hlength,
          List.take_of_length_le (by omega)]
        simp
      simp only [Stage.written, hbefore, List.append_assoc,
        List.append_cancel_left_eq]
      have hwindow := take_append_window data [] hcount
      rwa [List.append_nil] at hwindow
  | interrupted => exact hframed
  | failed hcall => exact hunbroken.elim
  | @headerDone thread serial data fd writeOffset hcall hdone =>
      have hheld := (hframed.holder thread _ hcall).mp rfl
      obtain ⟨hsize, hoffset⟩ := hframed.bounded thread _ hcall
      have hfull : writeOffset = 4 := by
        rw [htonl_length] at hdone
        omega
      refine hframed.moved rfl rfl rfl ?_ hheld (fun _ => .inr hheld)
        (by simp [Stage.writes]) ⟨hsize, Nat.zero_le _⟩
      refine stream_of_held hheld (Function.update_self ..) ?_
      have hstream := hframed.stream
      rw [current_of_held hheld hcall, hfull] at hstream
      exact hstream
  | @dataDone thread serial data fd writeOffset hcall hdone =>
      have hheld := (hframed.holder thread _ hcall).mp rfl
      obtain ⟨hsize, hoffset⟩ := hframed.bounded thread _ hcall
      have hfull : writeOffset = data.length := by
        dsimp only at hoffset
        omega
      refine hframed.finished hcall rfl rfl rfl ?_ rfl ?_
      · have hstream := hframed.stream
        rw [current_of_held hheld hcall] at hstream
        rw [current_of_free rfl, List.append_nil]
        have hall : (frame data).take (4 + data.length) = frame data := by
          apply List.take_of_length_le
          simp [frame, htonl_length]
        simp only [Stage.written, hfull, hall] at hstream
        simpa [State.completed, State.finish] using hstream
      · rw [if_pos hsize]

/-- However many threads send and however the writes are cut and
interrupted: what is on the socket is one frame after the other, one for each
call that has returned without an oversized payload, and behind them a part
of the frame of the thread that writes.  When all calls have returned, the
frames are those of all calls but the oversized ones. -/
theorem stream_eq_frames {fd : Fd}
    (hreach : Reach State.step Unbroken (State.connected fd) s) :
    (∃ frames rest, s.stream = frames.flatten ++ rest ∧
      List.Forall₂ IsFrame s.completed frames ∧
      (s.sWriteMutex = none → rest = []) ∧
      ∀ thread, s.sWriteMutex = some thread →
        ∃ call, s.senders thread = some call ∧
          rest <+: htonl call.data.length ++ call.data) ∧
    (∀ done ∈ s.returned, s.calls[done.serial]? = some done.data ∧
      (done.ret = 0 ↔ done.data.length ≤ MAX_COMMAND_BYTES)) ∧
    (s.returned.map Return.serial).Nodup ∧
    ((∀ thread, s.senders thread = none) →
      s.completed ~ s.calls.filter (·.length ≤ MAX_COMMAND_BYTES) ∧
      ∃ frames, s.stream = frames.flatten ∧
        List.Forall₂ IsFrame s.completed frames) := by
  obtain ⟨hcounted, hframed⟩ : s.Counted ∧ s.Framed := by
    refine Reach.invariant (fun s => s.Counted ∧ s.Framed) ?_ hreach
      ⟨connected_counted fd, connected_framed fd⟩
    rintro s event s' ⟨hcounted, hframed⟩ hunbroken hstep
    have hmoves := step_moves hstep
    exact ⟨step_counted hcounted hmoves,
      step_framed hframed hunbroken hmoves⟩
  have hret : ∀ done ∈ s.returned,
      (done.ret = 0 ↔ done.data.length ≤ MAX_COMMAND_BYTES) := by
    intro done hmem
    have hverdict := hframed.verdict done hmem
    split at hverdict
    next hsize => simp [hverdict, hsize]
    next hsize => simp [hverdict, hsize]
  have hframes : List.Forall₂ IsFrame s.completed
      (s.completed.map frame) := by
    rw [List.forall₂_map_right_iff, List.forall₂_same]
    intro data hmem
    obtain ⟨done, hdone, rfl⟩ := List.mem_map.mp hmem
    obtain ⟨hdone, hzero⟩ := List.mem_filter.mp hdone
    exact isFrame_frame ((hret done hdone).mp (by simpa using hzero))
  refine ⟨⟨_, _, hframed.stream, hframes, current_of_free, ?_⟩, ?_,
    hcounted.once, ?_⟩
  · intro thread hheld
    obtain ⟨call, hcall⟩ :=
      Option.ne_none_iff_exists'.mp (hframed.held thread hheld)
    refine ⟨call, hcall, ?_⟩
    rw [current_of_held hheld hcall]
    exact List.take_prefix _ _
  · exact fun done hmem => ⟨hcounted.returned done hmem, hret done hmem⟩
  · intro hquiet
    have hfree : s.sWriteMutex = none := by
      cases hheld : s.sWriteMutex with
      | none => rfl
      | some thread => exact absurd (hquiet thread) (hframed.held thread hheld)
    refine ⟨?_, _, ?_, hframes⟩
    · have hfilter : s.completed = (s.returned.map Return.data).filter
          (·.length ≤ MAX_COMMAND_BYTES) := by
        rw [State.completed, List.filter_map]
        congr 1
        apply List.filter_congr
        intro done hmem
        simp [hret done hmem]
      rw [hfilter]
      exact (hcounted.perm hquiet).filter _
    · have hstream := hframed.stream
      rwa [current_of_free hfree, List.append_nil] at hstream

end Framing

namespace RilFramesWitness

/-- Two threads send; the first one's header is cut in two and interrupted
while the other waits for the mutex. -/
def sending : List (Event Bool) :=
  [.call true [7, 8], .call false [], .fetch true, .fetch false, .lock true,
    .write true (.wrote 3), .write true .interrupted, .write true (.wrote 1),
    .proceed true, .write true (.wrote 2), .proceed true, .lock false,
    .write false (.wrote 4), .proceed false, .proceed false]

def sent : State Bool :=
  (follow State.step (State.connected 7) sending).getD (State.connected 7)

/-- Both frames are on the socket. -/
theorem sent_eq_frames :
    sent.stream = [0, 0, 0, 2, 7, 8, 0, 0, 0, 0] ∧
      sent.completed ~ sent.calls.filter (·.length ≤ MAX_COMMAND_BYTES) ∧
      ∃ frames, sent.stream = frames.flatten ∧
        List.Forall₂ IsFrame sent.completed frames := by
  have hreach : Reach State.step Unbroken (State.connected 7) sent := by
    refine reach_of_follow sending Reach.refl ?_ rfl
    simp [sending, Unbroken]
  have hquiet : ∀ thread, sent.senders thread = none := by
    intro thread
    cases thread <;> rfl
  exact ⟨by decide, (stream_eq_frames hreach).2.2.2 hquiet⟩

end RilFramesWitness

end Frames

end LibRil

end MetaOS
