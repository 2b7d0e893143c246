/-
hardware/ril/libril/ril_event.cpp: the mutex around the table of watched
events and the lists of timers and pending events.

Any thread makes the calls; a call that has to wait for the mutex does not
return before the mutex is free.  A call that goes round for ever or follows a
null pointer does not return either.
-/
import MetaOS.RilTimers
import MetaOS.RilWatch

namespace MetaOS

namespace RilMutex

open EventRuns LinkedRing RilTimers

/-- The watched events, the links and timeouts of all events, how many timers
have been added, and whether the mutex is held. -/
structure State where
  watch : RilWatch.State
  links : Links Ptr
  timeout : Ptr → Timeval
  added : Nat
  listMutex : Bool

/-- After `ril_event_init`. -/
def State.start : State where
  watch := .start
  links := RilTimers.State.start.links
  timeout _ := ⟨0, 0⟩
  added := 0
  listMutex := false

/-- A list has no more timers than were added, so the loops over it get as much
fuel. -/
def State.fuel (s : State) : Nat := s.added + 1

/-- The caller waits while the mutex is held. -/
def MUTEX_ACQUIRE (s : State) : Option State :=
  if s.listMutex then none else some { s with listMutex := true }

def MUTEX_RELEASE (s : State) : State := { s with listMutex := false }

/-- The event is zeroed first, its links too. -/
def rilEventSet (s : State) (ev : Nat) (fd : Int) (persist : Bool) :
    State :=
  { s with
    watch := RilWatch.rilEventSet s.watch ev fd persist
    links := (s.links.setNext (.event ev) none).setPrev (.event ev) none
    timeout := Function.update s.timeout (.event ev) ⟨0, 0⟩ }

def rilEventAdd (s : State) (ev : Nat) : Option State := do
  let s ← MUTEX_ACQUIRE s
  let s := { s with watch := RilWatch.rilEventAdd s.watch ev }
  pure (MUTEX_RELEASE s)

/-- An event that has no place in the table is left alone, and nothing else is
done either. -/
def rilEventDel (s : State) (ev : Nat) : Option State := do
  let s ← MUTEX_ACQUIRE s
  match s.watch.place ev with
  | none => pure s
  | some index =>
      let s := { s with watch := RilWatch.removeWatch s.watch ev index }
      pure (MUTEX_RELEASE s)

def rilTimerAdd (s : State) (ev : Nat) (tv : Option Timeval)
    (now : Timeval) : Option State := do
  let s ← MUTEX_ACQUIRE s
  match tv with
  | none => pure (MUTEX_RELEASE s)
  | some tv =>
      let list ← s.links.next .timerList
      let watch := { s.watch with fd := Function.update s.watch.fd ev (-1) }
      let t := timeradd now tv
      let timeout := Function.update s.timeout (.event ev) t
      let list ← keepSorted s.links timeout t s.fuel list
      let links ← addToList s.links (.event ev) list
      let s := { s with
        watch := watch
        links := links
        timeout := timeout
        added := s.added + 1 }
      pure (MUTEX_RELEASE s)

def processTimeouts (s : State) (now : Timeval) : Option State := do
  let s ← MUTEX_ACQUIRE s
  let tev ← s.links.next .timerList
  let links ← expire s.timeout now s.fuel s.links tev
  pure (MUTEX_RELEASE { s with links := links })

/-- The table and the links have nothing in common, so the events are linked
in after the loop over the table. -/
def processReadReadies (s : State) (rfds : Finset Int) (n : Int) :
    Option State := do
  let s ← MUTEX_ACQUIRE s
  let watch := RilWatch.processReadReadies
    { s.watch with pendingList := [] } rfds n
  let links ← addReadies s.links watch.pendingList
  pure (MUTEX_RELEASE { s with watch := watch, links := links })

/-- A round of `firePending`, which takes no mutex; the callback's own calls
come next. -/
def firePending (s : State) : Option State := do
  match ← s.links.next .pendingList with
  | .event ev =>
      let links ← removeFromList s.links (.event ev)
      pure { s with links := links }
  | _ => pure s

inductive Call where
  | set (ev : Nat) (fd : Int) (persist : Bool)
  | add (ev : Nat)
  | del (ev : Nat)
  | timerAdd (ev : Nat) (tv : Option Timeval) (now : Timeval)
  | timeouts (now : Timeval)
  | readies (rfds : Finset Int) (n : Int)
  | fire

/-- A call that returns leaves the next state. -/
def State.step (s : State) : Call → Option State
  | .set ev fd persist => some (rilEventSet s ev fd persist)
  | .add ev => rilEventAdd s ev
  | .del ev => rilEventDel s ev
  | .timerAdd ev tv now => rilTimerAdd s ev tv now
  | .timeouts now => processTimeouts s now
  | .readies rfds n => processReadReadies s rfds n
  | .fire => firePending s

/-- The events that `processReadReadies` finds when `n` of them are ready. -/
def State.found (s : State) (rfds : Finset Int) (n : Int) : List Nat :=
  (s.watch.ready rfds).take n.toNat

/-- `ril_event_del` is called for an event whose index is in the table. -/
def State.Releases (s : State) : Call → Prop
  | .del ev => 0 ≤ s.watch.index ev ∧ s.watch.index ev < RilWatch.MAX_FD_EVENTS
  | _ => True

/-- The event is in neither list, so that its link is null. -/
def State.Unlinked (s : State) (ev : Nat) : Prop :=
  s.links.next (.event ev) = none

/-- Besides, an event is set up or put into a list only while it is in none,
and once. -/
def State.Careful (s : State) : Call → Prop
  | .set ev _ _ => s.Unlinked ev
  | .timerAdd ev (some _) _ => s.Unlinked ev
  | .readies rfds n =>
      (s.found rfds n).Nodup ∧ ∀ rev ∈ s.found rfds n, s.Unlinked rev
  | call => s.Releases call

/-- The calls that take the mutex. -/
def Call.Locks : Call → Prop
  | .set _ _ _ => False
  | .fire => False
  | _ => True

section Calls

variable {s s' : State}

theorem acquire_eq_some :
    MUTEX_ACQUIRE s = some s' ↔
      s.listMutex = false ∧ s' = { s with listMutex := true } := by
  unfold MUTEX_ACQUIRE
  cases s.listMutex with
  | true => simp
  | false => simp [eq_comm]

/-- A call that returns had the mutex to itself. -/
theorem section_of_some {body : State → Option State}
    (hcall : (MUTEX_ACQUIRE s).bind body = some s') :
    s.listMutex = false ∧
      body { s with listMutex := true } = some s' := by
  obtain ⟨s₁, hacquire, hbody⟩ := Option.bind_eq_some_iff.mp hcall
  obtain ⟨hfree, rfl⟩ := acquire_eq_some.mp hacquire
  exact ⟨hfree, hbody⟩

theorem rilEventAdd_released {ev : Nat}
    (hcall : rilEventAdd s ev = some s') : s'.listMutex = false := by
  obtain ⟨-, hbody⟩ := section_of_some hcall
  rw [← Option.some_inj.mp hbody]
  rfl

theorem rilTimerAdd_released {ev : Nat} {tv : Option Timeval} {now : Timeval}
    (hcall : rilTimerAdd s ev tv now = some s') :
    s'.listMutex = false := by
  obtain ⟨-, hbody⟩ := section_of_some hcall
  cases tv with
  | none =>
      rw [← Option.some_inj.mp hbody]
      rfl
  | some tv =>
      obtain ⟨list, -, hbody⟩ := Option.bind_eq_some_iff.mp hbody
      obtain ⟨list, -, hbody⟩ := Option.bind_eq_some_iff.mp hbody
      obtain ⟨links, -, hbody⟩ := Option.bind_eq_some_iff.mp hbody
      rw [← Option.some_inj.mp hbody]
      rfl

theorem processTimeouts_released {now : Timeval}
    (hcall : processTimeouts s now = some s') : s'.listMutex = false := by
  obtain ⟨-, hbody⟩ := section_of_some hcall
  obtain ⟨tev, -, hbody⟩ := Option.bind_eq_some_iff.mp hbody
  obtain ⟨links, -, hbody⟩ := Option.bind_eq_some_iff.mp hbody
  rw [← Option.some_inj.mp hbody]
  rfl

theorem processReadReadies_released {rfds : Finset Int} {n : Int}
    (hcall : processReadReadies s rfds n = some s') :
    s'.listMutex = false := by
  obtain ⟨-, hbody⟩ := section_of_some hcall
  obtain ⟨links, -, hbody⟩ := Option.bind_eq_some_iff.mp hbody
  rw [← Option.some_inj.mp hbody]
  rfl

/-- Only an event that has a place leaves by the way that releases the
mutex. -/
theorem rilEventDel_released_iff {ev : Nat}
    (hcall : rilEventDel s ev = some s') :
    s'.listMutex = false ↔ s.Releases (.del ev) := by
  obtain ⟨-, hbody⟩ := section_of_some hcall
  have hplace := @RilWatch.place_eq_none_iff s.watch ev
  cases hindex : s.watch.place ev with
  | none =>
      simp only [hindex] at hbody
      rw [← Option.some_inj.mp hbody]
      exact iff_of_false Bool.noConfusion (hplace.mp hindex)
  | some index =>
      simp only [hindex] at hbody
      have hplaced : s.Releases (.del ev) := by
        by_contra hout
        exact absurd (hindex.symm.trans (hplace.mpr hout))
          (Option.some_ne_none index)
      rw [← Option.some_inj.mp hbody]
      exact iff_of_true rfl hplaced

theorem firePending_listMutex (hcall : firePending s = some s') :
    s'.listMutex = s.listMutex := by
  obtain ⟨ev, -, hbody⟩ := Option.bind_eq_some_iff.mp hcall
  cases ev with
  | event ev =>
      obtain ⟨links, -, hbody⟩ := Option.bind_eq_some_iff.mp hbody
      rw [← Option.some_inj.mp hbody]
  | timerList => rw [← Option.some_inj.mp hbody]
  | pendingList => rw [← Option.some_inj.mp hbody]

/-- A call that returns leaves the mutex free exactly if it is not a
`ril_event_del` of an event without a place. -/
theorem step_released_iff (hfree : s.listMutex = false) {call : Call}
    (hstep : s.step call = some s') :
    s'.listMutex = false ↔ s.Releases call := by
  cases call with
  | set ev fd persist =>
      rw [← Option.some_inj.mp hstep]
      exact iff_of_true hfree trivial
  | add ev => exact iff_of_true (rilEventAdd_released hstep) trivial
  | del ev => exact rilEventDel_released_iff hstep
  | timerAdd ev tv now =>
      exact iff_of_true (rilTimerAdd_released hstep) trivial
  | timeouts now => exact iff_of_true (processTimeouts_released hstep) trivial
  | readies rfds n =>
      exact iff_of_true (processReadReadies_released hstep) trivial
  | fire =>
      exact iff_of_true ((firePending_listMutex hstep).trans hfree) trivial

theorem acquire_held (hheld : s.listMutex = true) :
    MUTEX_ACQUIRE s = none := by
  rw [MUTEX_ACQUIRE, hheld]
  rfl

/-- A mutex that stays held stops every later call that takes it, and nothing
releases it any more. -/
theorem step_held (hheld : s.listMutex = true) {call : Call}
    (hstep : s.step call = some s') :
    ¬ call.Locks ∧ s'.listMutex = true := by
  have hwaits {body : State → Option State} :
      (MUTEX_ACQUIRE s).bind body ≠ some s' := by
    rw [acquire_held hheld]
    exact (Option.some_ne_none s').symm
  cases call with
  | set ev fd persist =>
      rw [← Option.some_inj.mp hstep]
      exact ⟨id, hheld⟩
  | fire => exact ⟨id, (firePending_listMutex hstep).trans hheld⟩
  | add ev => exact absurd hstep hwaits
  | del ev => exact absurd hstep hwaits
  | timerAdd ev tv now => exact absurd hstep hwaits
  | timeouts now => exact absurd hstep hwaits
  | readies rfds n => exact absurd hstep hwaits

/-- What holds between two calls: nobody has the mutex, and the lists are what
they seem. -/
structure State.Kept (s : State) (timers pending : List Nat) : Prop where
  free : s.listMutex = false
  timer_ring : s.links.Ring .timerList (timers.map .event)
  pending_ring : s.links.Ring .pendingList (pending.map .event)
  disjoint : ∀ ev ∈ timers, ev ∉ pending
  unlinked (ev : Nat) (htimers : ev ∉ timers) (hpending : ev ∉ pending) :
    s.Unlinked ev
  length_le : timers.length ≤ s.added

/-- A call returns, and what holds between two calls holds again. -/
def State.Returns (s : State) (call : Call) : Prop :=
  ∃ s', s.step call = some s' ∧ ∃ timers pending, s'.Kept timers pending

variable {timers pending : List Nat}

theorem start_kept : State.start.Kept [] [] := by
  have hlists := RilTimers.start_kept.lists
  exact ⟨rfl, hlists.timer_ring, hlists.pending_ring, hlists.disjoint,
    fun _ _ _ => rfl, le_refl 0⟩

theorem State.Kept.not_mem (hkept : s.Kept timers pending) {ev : Nat}
    (hunlinked : s.Unlinked ev) : ev ∉ timers ∧ ev ∉ pending :=
  ⟨fun hmem => ring_next_ne_none hkept.timer_ring hmem hunlinked,
    fun hmem => ring_next_ne_none hkept.pending_ring hmem hunlinked⟩

theorem State.Kept.acquire (hkept : s.Kept timers pending) :
    MUTEX_ACQUIRE s = some { s with listMutex := true } :=
  acquire_eq_some.mpr ⟨hkept.free, rfl⟩

/-- The links are all that the lists depend on. -/
theorem State.Kept.congr (hkept : s.Kept timers pending)
    (hfree : s'.listMutex = false) (hlinks : s'.links = s.links)
    (hadded : s'.added = s.added) : s'.Kept timers pending := by
  obtain ⟨-, htimers, hpending, hdisjoint, hunlinked, hlength⟩ := hkept
  refine ⟨hfree, ?_, ?_, hdisjoint, fun ev hev hev' => ?_, ?_⟩
  · rwa [hlinks]
  · rwa [hlinks]
  · rw [State.Unlinked, hlinks]
    exact hunlinked ev hev hev'
  · rwa [hadded]

theorem rilEventSet_returns (hkept : s.Kept timers pending) {ev : Nat}
    (hunlinked : s.Unlinked ev) (fd : Int) (persist : Bool) :
    s.Returns (.set ev fd persist) := by
  obtain ⟨hev, hev'⟩ := hkept.not_mem hunlinked
  have hsame : ∀ c ∉ [Ptr.event ev],
      (rilEventSet s ev fd persist).links.next c = s.links.next c ∧
        (rilEventSet s ev fd persist).links.prev c = s.links.prev c := by
    intro c hc
    have hne : c ≠ .event ev := fun h => hc (h ▸ List.mem_singleton_self _)
    exact ⟨Function.update_of_ne hne _ _, Function.update_of_ne hne _ _⟩
  refine ⟨_, rfl, timers, pending, hkept.free, ?_, ?_, hkept.disjoint, ?_,
    hkept.length_le⟩
  · refine ring_apart hkept.timer_ring hsame (by simp) fun e he => ?_
    have hne : e ≠ ev := fun h => hev (h ▸ he)
    simp [hne]
  · refine ring_apart hkept.pending_ring hsame (by simp) fun e he => ?_
    have hne : e ≠ ev := fun h => hev' (h ▸ he)
    simp [hne]
  · intro e he he'
    by_cases hne : e = ev
    · rw [hne]
      exact Function.update_self _ _ _
    · exact (hsame _ (by simp [hne])).1.trans (hkept.unlinked e he he')

theorem rilEventAdd_returns (hkept : s.Kept timers pending) (ev : Nat) :
    s.Returns (.add ev) := by
  refine ⟨{ s with
    watch := RilWatch.rilEventAdd s.watch ev
    listMutex := false }, ?_, timers, pending, hkept.congr rfl rfl rfl⟩
  rw [State.step, rilEventAdd, hkept.acquire]
  rfl

theorem rilEventDel_returns (hkept : s.Kept timers pending) {ev : Nat}
    (hplaced : s.Releases (.del ev)) : s.Returns (.del ev) := by
  have hplace : s.watch.place ev ≠ none := fun hnone =>
    RilWatch.place_eq_none_iff.mp hnone hplaced
  obtain ⟨index, hindex⟩ := Option.ne_none_iff_exists'.mp hplace
  refine ⟨{ s with
    watch := RilWatch.removeWatch s.watch ev index
    listMutex := false }, ?_, timers, pending, hkept.congr rfl rfl rfl⟩
  rw [State.step, rilEventDel, hkept.acquire]
  simp only [Option.bind_eq_bind, Option.bind_some, hindex]
  rfl

theorem rilTimerAdd_returns (hkept : s.Kept timers pending) {ev : Nat}
    {tv : Option Timeval} {now : Timeval}
    (hcareful : s.Careful (.timerAdd ev tv now)) :
    s.Returns (.timerAdd ev tv now) := by
  cases tv with
  | none =>
      refine ⟨{ s with listMutex := false }, ?_, timers, pending,
        hkept.congr rfl rfl rfl⟩
      rw [State.step, rilTimerAdd, hkept.acquire]
      rfl
  | some tv =>
      obtain ⟨hev, hev'⟩ := hkept.not_mem hcareful
      generalize ht : timeradd now tv = t
      generalize htimeout :
        Function.update s.timeout (.event ev) t = timeout
      obtain ⟨list, links, hplace, hadd, htimers, hpending, hsame⟩ :=
        add_timer hkept.timer_ring hkept.pending_ring hkept.disjoint hev hev'
          timeout t (Nat.lt_succ_of_le hkept.length_le)
      have hcut := List.takeWhile_append_dropWhile
        (p := before timeout t) (l := timers)
      generalize timers.takeWhile (before timeout t) = xs at hcut htimers
      generalize timers.dropWhile (before timeout t) = ys at hcut htimers
      have hmem (e : Nat) : e ∈ xs ++ ev :: ys ↔ e = ev ∨ e ∈ timers := by
        rw [← hcut]
        simp only [List.mem_append, List.mem_cons]
        tauto
      refine ⟨{ s with
        watch := { s.watch with fd := Function.update s.watch.fd ev (-1) }
        links := links
        timeout := timeout
        added := s.added + 1
        listMutex := false }, ?_, xs ++ ev :: ys, pending, rfl, htimers,
        hpending, ?_, ?_, ?_⟩
      · rw [State.step, rilTimerAdd, hkept.acquire]
        simp only [Option.bind_eq_bind, Option.bind_some,
          hkept.timer_ring.next_head, ht, htimeout, State.fuel, hplace, hadd]
        rfl
      · intro e he
        rcases (hmem e).mp he with rfl | he
        · exact hev'
        · exact hkept.disjoint e he
      · intro e he he'
        obtain ⟨hne, he⟩ := not_or.mp (mt (hmem e).mpr he)
        exact (hsame e hne he).trans (hkept.unlinked e he he')
      · have hlength := congrArg List.length hcut
        have hle := hkept.length_le
        simp only [List.length_append, List.length_cons] at hlength ⊢
        change xs.length + (ys.length + 1) ≤ s.added + 1
        omega

theorem processTimeouts_returns (hkept : s.Kept timers pending)
    (now : Timeval) : s.Returns (.timeouts now) := by
  obtain ⟨links, hexpire, htimers, hpending, hsame⟩ := expire_eq s.timeout now
    hkept.timer_ring hkept.pending_ring hkept.disjoint
    (Nat.lt_succ_of_le hkept.length_le)
  have hcut := List.takeWhile_append_dropWhile
    (p := before s.timeout now) (l := timers)
  have hnodup := (List.nodup_cons.mp hkept.timer_ring.nodup).2.of_map
  generalize timers.takeWhile (before s.timeout now) = due at hcut hpending
  generalize timers.dropWhile (before s.timeout now) = rest at hcut htimers
  subst hcut
  obtain ⟨-, -, hapart⟩ := List.nodup_append.mp hnodup
  refine ⟨{ s with links := links, listMutex := false }, ?_, rest,
    pending ++ due, rfl, htimers, hpending, ?_, ?_, ?_⟩
  · rw [State.step, processTimeouts, hkept.acquire]
    simp only [Option.bind_eq_bind, Option.bind_some,
      hkept.timer_ring.next_head, State.fuel, hexpire]
    rfl
  · intro e he hmem
    rcases List.mem_append.mp hmem with hmem | hmem
    · exact hkept.disjoint e (List.mem_append_right due he) hmem
    · exact hapart e hmem e he rfl
  · intro e he he'
    rw [List.mem_append, not_or] at he'
    have hnot : e ∉ due ++ rest := by
      rw [List.mem_append, not_or]
      exact ⟨he'.2, he⟩
    exact (hsame e hnot he'.1).trans (hkept.unlinked e hnot he'.1)
  · have hle := hkept.length_le
    rw [List.length_append] at hle
    exact (Nat.le_add_left _ _).trans hle

theorem processReadReadies_returns (hkept : s.Kept timers pending)
    {rfds : Finset Int} {n : Int} (hcareful : s.Careful (.readies rfds n)) :
    s.Returns (.readies rfds n) := by
  obtain ⟨hnodup, hfree⟩ := hcareful
  obtain ⟨links, hadd, htimers, hpending, hsame⟩ := addReadies_eq
    hkept.timer_ring hkept.pending_ring hkept.disjoint hnodup
    fun rev hrev => hkept.not_mem (hfree rev hrev)
  have hqueued : (RilWatch.processReadReadies
      { s.watch with pendingList := [] } rfds n).pendingList =
        s.found rfds n :=
    RilWatch.processReadReadies_pending _ rfds n
  refine ⟨{ s with
    watch := RilWatch.processReadReadies { s.watch with pendingList := [] }
      rfds n
    links := links
    listMutex := false }, ?_, timers, pending ++ s.found rfds n, rfl, htimers,
    hpending, ?_, ?_, hkept.length_le⟩
  · rw [State.step, processReadReadies, hkept.acquire]
    simp only [Option.bind_eq_bind, Option.bind_some, hqueued, hadd]
    rfl
  · intro e he hmem
    rcases List.mem_append.mp hmem with hmem | hmem
    · exact hkept.disjoint e he hmem
    · exact (hkept.not_mem (hfree e hmem)).1 he
  · intro e he he'
    have hpend : e ∉ pending := fun h => he' (List.mem_append_left _ h)
    exact (hsame e he').trans (hkept.unlinked e he hpend)

theorem firePending_returns (hkept : s.Kept timers pending) :
    s.Returns .fire := by
  have hhead := hkept.pending_ring.next_head
  cases pending with
  | nil =>
      refine ⟨s, ?_, timers, [], hkept⟩
      rw [State.step, firePending, hhead]
      rfl
  | cons ev rest =>
      obtain ⟨links, hremove, hpending, htimers, hnone, hsame⟩ := remove_first
        hkept.pending_ring hkept.timer_ring (by simp) (fun e => by simp)
        hkept.disjoint
      refine ⟨{ s with links := links }, ?_, timers, rest, hkept.free, htimers,
        hpending, ?_, ?_, hkept.length_le⟩
      · rw [State.step, firePending, hhead]
        simp only [List.map_cons, start, List.head?_cons, Option.getD_some,
          Option.bind_eq_bind, Option.bind_some, hremove]
        rfl
      · exact fun e he hmem =>
          hkept.disjoint e he (List.mem_cons_of_mem ev hmem)
      · intro e he he'
        by_cases hne : e = ev
        · rw [hne]
          exact hnone
        · have hmem : e ∉ ev :: rest := by
            simp only [List.mem_cons, not_or]
            exact ⟨hne, he'⟩
          exact (hsame e hmem).trans (hkept.unlinked e he hmem)

/-- A call that is made with care returns. -/
theorem State.Kept.returns (hkept : s.Kept timers pending) {call : Call}
    (hcareful : s.Careful call) : s.Returns call := by
  cases call with
  | set ev fd persist => exact rilEventSet_returns hkept hcareful fd persist
  | add ev => exact rilEventAdd_returns hkept ev
  | del ev => exact rilEventDel_returns hkept hcareful
  | timerAdd ev tv now => exact rilTimerAdd_returns hkept hcareful
  | timeouts now => exact processTimeouts_returns hkept now
  | readies rfds n => exact processReadReadies_returns hkept hcareful
  | fire => exact firePending_returns hkept

end Calls

/-- Once the mutex was left held, the daemon never takes it again. -/
theorem frozen {s₀ s s' : State} (hheld : s₀.listMutex = true)
    (hruns : Runs State.step s₀ s) {call : Call}
    (hstep : s.step call = some s') : ¬ call.Locks := by
  have hstill : s.listMutex = true := hruns.invariant (·.listMutex = true)
    (fun s call s' hs hstep => (step_held hs hstep).2) hheld
  exact (step_held hstill hstep).1

/-- In every run in which only events with a place in the table are removed
from it, and only events that are in no list are put into one, each such call
returns and leaves the mutex free; and the removal of an event without a place
is the one call that returns and does not. -/
theorem reach_released {s : State}
    (hreach : Reach State.step State.Careful .start s) :
    s.listMutex = false ∧
      (∀ call, s.Careful call → ∃ s', s.step call = some s' ∧
        s'.listMutex = false) ∧
      ∀ call s', s.step call = some s' →
        (s'.listMutex = false ↔ s.Releases call) := by
  have hkept : ∃ timers pending, s.Kept timers pending := by
    refine hreach.invariant (fun s => ∃ timers pending, s.Kept timers pending)
      ?_ ⟨[], [], start_kept⟩
    rintro s call s' ⟨timers, pending, hkept⟩ hcareful hstep
    obtain ⟨after, hafter, hkept'⟩ := hkept.returns hcareful
    rwa [Option.some_inj.mp (hafter.symm.trans hstep)] at hkept'
  obtain ⟨timers, pending, hkept⟩ := hkept
  refine ⟨hkept.free, fun call hcareful => ?_,
    fun call s' hstep => step_released_iff hkept.free hstep⟩
  obtain ⟨s', hstep, _, _, hkept'⟩ := hkept.returns hcareful
  exact ⟨s', hstep, hkept'.free⟩

namespace RilMutexWitness

/-- Event 4 is watched for descriptor 7, and event 5 is a timer. -/
theorem one_mutex :
    ∃ s, follow State.step .start [.set 4 7 true, .add 4,
        .timerAdd 5 (some ⟨1, 0⟩) ⟨0, 0⟩] = some s ∧
      s.listMutex = false ∧
      (∀ call, s.Careful call → ∃ s', s.step call = some s' ∧
        s'.listMutex = false) ∧
      ∀ call s', s.step call = some s' →
        (s'.listMutex = false ↔ s.Releases call) := by
  have hset : Reach State.step State.Careful .start
      (rilEventSet .start 4 7 true) := Reach.refl.tail (.set 4 7 true) rfl rfl
  have hadd := hset.tail (.add 4) trivial rfl
  exact ⟨_, rfl, reach_released
    (hadd.tail (.timerAdd 5 (some ⟨1, 0⟩) ⟨0, 0⟩) rfl rfl)⟩

/-- An event is removed twice. -/
theorem removed_twice : ¬ ∀ s, Runs State.step State.start s →
    s.listMutex = false := by
  intro hreleased
  have hruns := @runs_of_follow _ _ State.step
    [.set 4 7 true, .add 4, .del 4, .del 4] .start .start _ Reach.refl rfl
  cases hreleased _ hruns

end RilMutexWitness

end RilMutex

end MetaOS
