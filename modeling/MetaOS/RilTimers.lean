/-
hardware/ril/libril/ril_event.cpp: timers in a list sorted by the time they
are due, and the iterations of the loop that takes the expired ones to the
list of pending events and calls them.

Callbacks and other threads add timers whenever the list is not locked, so an
iteration is taken in the pieces between which that may happen.
-/
import MetaOS.EventRuns
import MetaOS.LinkedRing

namespace MetaOS

namespace RilTimers

open EventRuns LinkedRing

structure Timeval where
  tvSec : Int32
  tvUsec : Int32
deriving DecidableEq

def timeradd (tvp uvp : Timeval) : Timeval :=
  let tvSec := tvp.tvSec + uvp.tvSec
  let tvUsec := tvp.tvUsec + uvp.tvUsec
  if 1000000 ≤ tvUsec then ⟨tvSec + 1, tvUsec - 1000000⟩
  else ⟨tvSec, tvUsec⟩

/-- `timercmp(a, b, <)` -/
def timercmp (a b : Timeval) : Bool :=
  if a.tvSec = b.tvSec then a.tvUsec < b.tvUsec else a.tvSec < b.tvSec

/-- The heads of the two lists, and the events that may be in one of them. -/
inductive Ptr where
  | timerList
  | pendingList
  | event (ev : Nat)
deriving DecidableEq

/-- Where the loop is: before `processTimeouts`, before `processReadReadies`,
or in `firePending` with its variable `ev`. -/
inductive Phase where
  | select
  | readReadies
  | firing (ev : Ptr)
deriving DecidableEq

/-- The links and timeouts of the events.  Timers are numbered in the order in
which they are added: `timer` is the number of a timer that was not called
yet, and `fired` are those that were. -/
structure State where
  links : Links Ptr
  timeout : Ptr → Timeval
  phase : Phase
  added : Nat
  timer : Nat → Option Nat
  fired : List Nat

/-- After `ril_event_init`. -/
def State.start : State where
  links := ((⟨fun _ => none, fun _ => none⟩ : Links Ptr).single
    .timerList).single .pendingList
  timeout _ := ⟨0, 0⟩
  phase := .select
  added := 0
  timer _ := none
  fired := []

def addToList (links : Links Ptr) (ev list : Ptr) : Option (Links Ptr) :=
  links.insertBefore ev list

def removeFromList (links : Links Ptr) (ev : Ptr) : Option (Links Ptr) :=
  links.remove ev

/-- The loop of `ril_timer_add`, which compares before it looks for the end of
the list. -/
def keepSorted (links : Links Ptr) (timeout : Ptr → Timeval) (t : Timeval) :
    (fuel : Nat) → (list : Ptr) → Option Ptr
  | 0, _ => none
  | fuel + 1, list =>
      if timercmp (timeout list) t ∧ list ≠ .timerList then do
        keepSorted links timeout t fuel (← links.next list)
      else some list

/-- A list has no more events than were added, so the loops over it get as
much fuel. -/
def State.fuel (s : State) : Nat := s.added + 1

def rilTimerAdd (s : State) (ev : Nat) (tv : Option Timeval)
    (now : Timeval) : Option State :=
  match tv with
  | none => some s
  | some tv => do
      let list ← s.links.next .timerList
      let t := timeradd now tv
      let timeout := Function.update s.timeout (.event ev) t
      let list ← keepSorted s.links timeout t s.fuel list
      let links ← addToList s.links (.event ev) list
      pure { s with
        links := links
        timeout := timeout
        added := s.added + 1
        timer := Function.update s.timer ev (some s.added) }

/-- The loop of `processTimeouts`. -/
def expire (timeout : Ptr → Timeval) (now : Timeval) :
    (fuel : Nat) → (links : Links Ptr) → (tev : Ptr) → Option (Links Ptr)
  | 0, _, _ => none
  | fuel + 1, links, tev =>
      if tev ≠ .timerList ∧ timercmp (timeout tev) now then do
        let next ← links.next tev
        let links ← removeFromList links tev
        let links ← addToList links tev .pendingList
        expire timeout now fuel links next
      else some links

def processTimeouts (s : State) (now : Timeval) : Option State := do
  let tev ← s.links.next .timerList
  let links ← expire s.timeout now s.fuel s.links tev
  pure { s with links := links, phase := .readReadies }

/-- The watched events `revs` are ready. -/
def addReadies : (links : Links Ptr) → (revs : List Nat) → Option (Links Ptr)
  | links, [] => some links
  | links, rev :: revs => do
      addReadies (← addToList links (.event rev) .pendingList) revs

/-- `processReadReadies`, and the beginning of `firePending`. -/
def processReadReadies (s : State) (revs : List Nat) : Option State := do
  let links ← addReadies s.links revs
  let ev ← links.next .pendingList
  pure { s with links := links, phase := .firing ev }

/-- One round of the loop of `firePending`. -/
def firePending (s : State) : (ev : Ptr) → Option State
  | .pendingList => some { s with phase := .select }
  | .timerList => none
  | .event ev => do
      let next ← s.links.next (.event ev)
      let links ← removeFromList s.links (.event ev)
      pure { s with
        links := links
        phase := .firing next
        timer := Function.update s.timer ev none
        fired := (s.timer ev).toList ++ s.fired }

/-- What is done next, with the time that `getNow` returns where it is
asked. -/
inductive Event where
  | timerAdd (ev : Nat) (tv : Option Timeval) (now : Timeval)
  | timeouts (now : Timeval)
  | readies (revs : List Nat)
  | fire

def State.step (s : State) : Event → Option State
  | .timerAdd ev tv now => rilTimerAdd s ev tv now
  | .timeouts now =>
      match s.phase with
      | .select => processTimeouts s now
      | _ => none
  | .readies revs =>
      match s.phase with
      | .readReadies => processReadReadies s revs
      | _ => none
  | .fire =>
      match s.phase with
      | .firing ev => firePending s ev
      | _ => none

/-- An event is added only while it is in no list; its links are then null. -/
def State.Careful (s : State) : Event → Prop
  | .timerAdd ev _ _ => s.links.next (.event ev) = none
  | .readies revs =>
      revs.Nodup ∧ ∀ rev ∈ revs, s.links.next (.event rev) = none
  | _ => True

/-- It is the turn of this piece of the loop. -/
def State.Enabled (s : State) : Event → Prop
  | .timerAdd _ _ _ => True
  | .timeouts _ => s.phase = .select
  | .readies _ => s.phase = .readReadies
  | .fire => ∃ ev, s.phase = .firing ev

/-- Seconds count more than microseconds. -/
def Timeval.key (t : Timeval) : Int ×ₗ Int :=
  toLex (t.tvSec.toInt, t.tvUsec.toInt)

theorem Timeval.key_injective : Function.Injective Timeval.key := by
  intro a b hkey
  obtain ⟨hsec, husec⟩ := Prod.mk.inj (toLex.injective hkey)
  have hsame := Int32.toInt_inj.mp hsec
  have hsame' := Int32.toInt_inj.mp husec
  obtain ⟨sec, usec⟩ := a
  obtain ⟨sec', usec'⟩ := b
  exact congr (congrArg Timeval.mk hsame) hsame'

noncomputable instance : LinearOrder Timeval :=
  LinearOrder.lift' Timeval.key Timeval.key_injective

theorem timercmp_iff (a b : Timeval) : timercmp a b = true ↔ a < b := by
  change _ ↔ a.key < b.key
  rw [Prod.Lex.lt_iff, timercmp]
  split
  next hsec =>
    simp [Timeval.key, hsec, Int32.lt_iff_toInt_lt]
  next hsec =>
    have hne : a.tvSec.toInt ≠ b.tvSec.toInt :=
      fun h => hsec (Int32.toInt_inj.mp h)
    simp [Timeval.key, hne, Int32.lt_iff_toInt_lt]

/-- An event's timeout is before a time. -/
def before (timeout : Ptr → Timeval) (t : Timeval) (ev : Nat) : Bool :=
  timercmp (timeout (.event ev)) t

/-- The two lists: what they hold, in order. -/
structure State.Lists (s : State) (timers pending : List Nat) : Prop where
  timer_ring : s.links.Ring .timerList (timers.map .event)
  pending_ring : s.links.Ring .pendingList (pending.map .event)
  disjoint : ∀ ev ∈ timers, ev ∉ pending
  sorted : (timers.map fun ev => s.timeout (.event ev)).Pairwise (· ≤ ·)

/-- Every timer that was added either was called, once, or is in a list. -/
structure State.Accounted (s : State) (timers pending : List Nat) :
    Prop where
  fired_nodup : s.fired.Nodup
  once (ev : Nat) (n : Nat) (htimer : s.timer ev = some n) : n ∉ s.fired
  unique (ev ev' n : Nat) (htimer : s.timer ev = some n)
    (htimer' : s.timer ev' = some n) : ev = ev'
  added_iff (n : Nat) :
    n < s.added ↔ n ∈ s.fired ∨ ∃ ev, s.timer ev = some n
  listed (ev n : Nat) (htimer : s.timer ev = some n) :
    ev ∈ timers ∨ ev ∈ pending
  timers (ev : Nat) (hmem : ev ∈ timers) : ∃ n, s.timer ev = some n

/-- What else the steps rely on. -/
structure State.Kept (s : State) (timers pending : List Nat) : Prop where
  lists : s.Lists timers pending
  accounted : s.Accounted timers pending
  unlinked (ev : Nat) (htimers : ev ∉ timers) (hpending : ev ∉ pending) :
    s.links.next (.event ev) = none
  length_le : timers.length ≤ s.added
  select (hphase : s.phase = .select) : pending = []
  firing (ev : Ptr) (hphase : s.phase = .firing ev) :
    ev = LinkedRing.start .pendingList (pending.map .event)

section Steps

variable {s s' : State} {timers pending : List Nat}

theorem event_injective : Function.Injective Ptr.event :=
  fun _ _ h => Ptr.event.inj h

/-- A member of a ring has a link. -/
theorem ring_next_ne_none {links : Links Ptr} {head : Ptr} {evs : List Nat}
    (hring : links.Ring head (evs.map .event)) {ev : Nat} (hmem : ev ∈ evs) :
    links.next (.event ev) ≠ none := by
  obtain ⟨front, back, rfl⟩ := List.append_of_mem hmem
  rw [List.map_append, List.map_cons] at hring
  rw [hring.next_member]
  exact Option.some_ne_none _

theorem State.Lists.not_mem_of_unlinked (hlists : s.Lists timers pending)
    {ev : Nat} (hnone : s.links.next (.event ev) = none) :
    ev ∉ timers ∧ ev ∉ pending :=
  ⟨fun hmem => ring_next_ne_none hlists.timer_ring hmem hnone,
    fun hmem => ring_next_ne_none hlists.pending_ring hmem hnone⟩

/-- The loop stops at the first event that is not earlier. -/
theorem keepSorted_eq {links : Links Ptr} {timeout : Ptr → Timeval}
    {t : Timeval} {xs ys : List Nat}
    (hring : links.Ring .timerList ((xs ++ ys).map .event)) {fuel : Nat}
    (hfuel : ys.length < fuel) :
    keepSorted links timeout t fuel (start .timerList (ys.map .event)) =
      some (start .timerList
        ((ys.dropWhile (before timeout t)).map .event)) := by
  induction ys generalizing xs fuel with
  | nil =>
      obtain ⟨fuel, rfl⟩ :=
        Nat.exists_eq_succ_of_ne_zero (Nat.ne_zero_of_lt hfuel)
      simp [keepSorted, start]
  | cons y ys ih =>
      obtain ⟨fuel, rfl⟩ :=
        Nat.exists_eq_succ_of_ne_zero (Nat.ne_zero_of_lt hfuel)
      have hnext : links.next (.event y) =
          some (start .timerList (ys.map .event)) := by
        rw [List.map_append, List.map_cons] at hring
        exact hring.next_member
      rw [List.append_cons] at hring
      rw [keepSorted, List.map_cons, start, List.head?_cons, Option.getD_some,
        List.dropWhile_cons]
      by_cases hearlier : before timeout t y = true
      · rw [if_pos ⟨hearlier, by simp⟩, if_pos hearlier, hnext]
        exact ih hring (Nat.lt_of_succ_lt_succ hfuel)
      · rw [if_neg fun h => hearlier h.1, if_neg hearlier]
        rfl

/-- The elements that are due are the first ones of a sorted list. -/
theorem takeWhile_eq_filter {α : Type} {p : α → Bool} {xs : List α}
    (hxs : xs.Pairwise fun a b => p b = true → p a = true) :
    xs.takeWhile p = xs.filter p ∧
      xs.dropWhile p = xs.filter fun a => !p a := by
  induction xs with
  | nil => exact ⟨rfl, rfl⟩
  | cons x xs ih =>
      obtain ⟨hx, hxs⟩ := List.pairwise_cons.mp hxs
      obtain ⟨htake, hdrop⟩ := ih hxs
      cases hp : p x with
      | true => simp [hp, htake, hdrop]
      | false =>
          have hnone : ∀ a ∈ xs, p a = false := by
            intro a ha
            by_contra htrue
            rw [hx a ha (by simpa using htrue)] at hp
            cases hp
          have hall : xs.filter p = [] :=
            List.filter_eq_nil_iff.mpr fun a ha => by simp [hnone a ha]
          have hkeep : (xs.filter fun a => !p a) = xs :=
            List.filter_eq_self.mpr fun a ha => by simp [hnone a ha]
          simp [hp, hall, hkeep]

theorem mem_map_event {evs : List Nat} {ev : Nat} :
    Ptr.event ev ∈ evs.map .event ↔ ev ∈ evs :=
  List.mem_map_of_injective event_injective

/-- Two lists that change one after the other do not disturb each other. -/
theorem ring_apart {links links' : Links Ptr} {head : Ptr} {evs : List Nat}
    {changed : List Ptr} (hring : links.Ring head (evs.map .event))
    (hsame : ∀ c ∉ changed,
      links'.next c = links.next c ∧ links'.prev c = links.prev c)
    (hhead : head ∉ changed) (hevs : ∀ ev ∈ evs, .event ev ∉ changed) :
    links'.Ring head (evs.map .event) := by
  refine hring.congr fun c hc => hsame c ?_
  rcases List.mem_cons.mp hc with rfl | hc
  · exact hhead
  · obtain ⟨ev, hev, rfl⟩ := List.mem_map.mp hc
    exact hevs ev hev

/-- An event that is in no list goes to the end of the pending events. -/
theorem add_pending {links : Links Ptr} {ev : Nat} {timers pending : List Nat}
    (htimers : links.Ring .timerList (timers.map .event))
    (hpending : links.Ring .pendingList (pending.map .event))
    (hev : ev ∉ timers) (hev' : ev ∉ pending)
    (hdisjoint : ∀ e ∈ timers, e ∉ pending) :
    ∃ links', addToList links (.event ev) .pendingList = some links' ∧
      links'.Ring .timerList (timers.map .event) ∧
      links'.Ring .pendingList ((pending ++ [ev]).map .event) ∧
      ∀ e ≠ ev, e ∉ pending →
        links'.next (.event e) = links.next (.event e) := by
  have hends : links.Ring .pendingList (pending.map .event ++ []) := by
    rwa [List.append_nil]
  have hnot : Ptr.event ev ∉
      .pendingList :: (pending.map Ptr.event ++ []) := by
    simp [hev']
  obtain ⟨links', hadd, hring, hsame⟩ := hends.insertBefore hnot
  refine ⟨links', hadd, ?_, ?_, ?_⟩
  · refine ring_apart htimers hsame (by simp) fun e he => ?_
    have hne : e ≠ ev := fun h => hev (h ▸ he)
    simp [hne, hdisjoint e he]
  · rwa [List.map_append]
  · intro e hne hmem
    exact (hsame _ (by simp [hne, hmem])).1

/-- An event is taken from the front of a list, of which it was the first. -/
theorem remove_first {links : Links Ptr} {head other : Ptr} {ev : Nat}
    {evs others : List Nat} (hring : links.Ring head ((ev :: evs).map .event))
    (hother : links.Ring other (others.map .event))
    (hhead : other ≠ head) (hheads : ∀ e, head ≠ .event e ∧ other ≠ .event e)
    (hdisjoint : ∀ e ∈ others, e ∉ ev :: evs) :
    ∃ links', removeFromList links (.event ev) = some links' ∧
      links'.Ring head (evs.map .event) ∧
      links'.Ring other (others.map .event) ∧
      links'.next (.event ev) = none ∧
      ∀ e ∉ ev :: evs, links'.next (.event e) = links.next (.event e) := by
  have hfront : links.Ring head ([] ++ .event ev :: evs.map .event) := hring
  obtain ⟨links', hremove, hring', hnone, -, hsame⟩ := hfront.remove
  refine ⟨links', hremove, hring', ?_, hnone, ?_⟩
  · refine ring_apart hother hsame ?_ fun e he => ?_
    · have hother : ∀ e, Ptr.event e ≠ other := fun e => (hheads e).2.symm
      simp [hhead, hother, (hheads ev).2]
    · have hnot := hdisjoint e he
      rw [List.mem_cons, not_or] at hnot
      simp [Ne.symm (hheads e).1, hnot]
  · intro e he
    rw [List.mem_cons, not_or] at he
    exact (hsame _ (by simp [Ne.symm (hheads e).1, he])).1

theorem next_first {links : Links Ptr} {head : Ptr} {ev : Nat}
    {evs : List Nat} (hring : links.Ring head ((ev :: evs).map .event)) :
    links.next (.event ev) = some (start head (evs.map .event)) := by
  have hfront : links.Ring head ([] ++ .event ev :: evs.map .event) := hring
  exact hfront.next_member

/-- The loop of `processTimeouts` takes the events that are due, in order. -/
theorem expire_eq (timeout : Ptr → Timeval) (now : Timeval)
    {links : Links Ptr} {timers pending : List Nat}
    (htimers : links.Ring .timerList (timers.map .event))
    (hpending : links.Ring .pendingList (pending.map .event))
    (hdisjoint : ∀ e ∈ timers, e ∉ pending) {fuel : Nat}
    (hfuel : timers.length < fuel) :
    ∃ links', expire timeout now fuel links
        (start .timerList (timers.map .event)) = some links' ∧
      links'.Ring .timerList
        ((timers.dropWhile (before timeout now)).map .event) ∧
      links'.Ring .pendingList
        ((pending ++ timers.takeWhile (before timeout now)).map .event) ∧
      ∀ e ∉ timers, e ∉ pending →
        links'.next (.event e) = links.next (.event e) := by
  induction timers generalizing links pending fuel with
  | nil =>
      obtain ⟨fuel, rfl⟩ := Nat.exists_eq_succ_of_ne_zero
        (Nat.ne_zero_of_lt hfuel)
      refine ⟨links, by simp [expire, start], htimers, ?_, fun e _ _ => rfl⟩
      rwa [List.takeWhile_nil, List.append_nil]
  | cons ev timers ih =>
      obtain ⟨fuel, rfl⟩ := Nat.exists_eq_succ_of_ne_zero
        (Nat.ne_zero_of_lt hfuel)
      rw [expire, List.map_cons, start, List.head?_cons, Option.getD_some]
      by_cases hdue : before timeout now ev = true
      · have hnext : links.next (.event ev) =
            some (start .timerList (timers.map .event)) :=
          next_first htimers
        obtain ⟨hfirst, hnodup⟩ := List.nodup_cons.mp
          (List.nodup_cons.mp htimers.nodup).2
        obtain ⟨links₁, hremove, htimers₁, hpending₁, -, hsame₁⟩ :=
          remove_first htimers hpending (by simp) (fun e => by simp)
            fun e he he' => hdisjoint e he' he
        obtain ⟨links₂, hadd, htimers₂, hpending₂, hsame₂⟩ :=
          add_pending htimers₁ hpending₁ (mt mem_map_event.mpr hfirst)
            (hdisjoint ev List.mem_cons_self)
            fun e he => hdisjoint e (List.mem_cons_of_mem ev he)
        have hdisjoint₂ : ∀ e ∈ timers, e ∉ pending ++ [ev] := by
          intro e he hmem
          rcases List.mem_append.mp hmem with hmem | hmem
          · exact hdisjoint e (List.mem_cons_of_mem ev he) hmem
          · obtain rfl := List.mem_singleton.mp hmem
            exact hfirst (mem_map_event.mpr he)
        obtain ⟨links', hexpire, htimers', hpending', hsame'⟩ :=
          ih htimers₂ hpending₂ hdisjoint₂ (Nat.lt_of_succ_lt_succ hfuel)
        rw [if_pos ⟨by simp, hdue⟩, hnext, List.dropWhile_cons_of_pos hdue,
          List.takeWhile_cons_of_pos hdue]
        refine ⟨links', ?_, htimers', ?_, ?_⟩
        · simp only [Option.bind_eq_bind, Option.bind_some, hremove, hadd,
            hexpire]
        · rwa [List.append_assoc, List.singleton_append] at hpending'
        · intro e he he'
          obtain ⟨hne, he⟩ := not_or.mp (mt List.mem_cons.mpr he)
          rw [hsame' e he (by simp [he', hne]), hsame₂ e hne he',
            hsame₁ e (by simp [hne, he])]
      · rw [if_neg fun h => hdue h.2, List.dropWhile_cons_of_neg hdue,
          List.takeWhile_cons_of_neg hdue]
        refine ⟨links, rfl, htimers, ?_, fun e _ _ => rfl⟩
        rwa [List.append_nil]

/-- In a sorted list what comes before an event that is before a time is so,
too. -/
theorem before_closed {timeout : Ptr → Timeval} (t : Timeval)
    {timers : List Nat} (hsorted : timers.Pairwise fun a b =>
      timeout (.event a) ≤ timeout (.event b)) :
    timers.Pairwise fun a b =>
      before timeout t b = true → before timeout t a = true := by
  refine hsorted.imp fun hle hb => ?_
  exact (timercmp_iff _ _).mpr (hle.trans_lt ((timercmp_iff _ _).mp hb))

theorem start_kept : State.start.Kept [] [] := by
  have hpending : State.start.links.Ring .pendingList [] := ring_single _ _
  have htimers : State.start.links.Ring .timerList [] := by
    refine (ring_single (⟨fun _ => none, fun _ => none⟩ : Links Ptr)
      .timerList).congr fun c hc => ?_
    obtain rfl := List.mem_singleton.mp hc
    exact ⟨rfl, rfl⟩
  refine ⟨⟨htimers, hpending, fun _ hmem => absurd hmem List.not_mem_nil,
      List.Pairwise.nil⟩, ⟨List.nodup_nil, ?_, ?_, ?_, ?_, ?_⟩,
    fun ev _ _ => rfl, le_refl 0, fun _ => rfl, ?_⟩
  · exact fun ev n htimer => by cases htimer
  · exact fun ev ev' n htimer => by cases htimer
  · intro n
    simp [State.start]
  · exact fun ev n htimer => by cases htimer
  · exact fun ev hmem => by cases hmem
  · exact fun ev hphase => by cases hphase

/-- An event that is in no list goes in front of the first timer that is not
earlier. -/
theorem add_timer {links : Links Ptr} {ev : Nat} {timers pending : List Nat}
    (htimers : links.Ring .timerList (timers.map .event))
    (hpending : links.Ring .pendingList (pending.map .event))
    (hdisjoint : ∀ e ∈ timers, e ∉ pending) (hev : ev ∉ timers)
    (hev' : ev ∉ pending) (timeout : Ptr → Timeval) (t : Timeval) {fuel : Nat}
    (hfuel : timers.length < fuel) :
    ∃ list links', keepSorted links timeout t fuel
        (start .timerList (timers.map .event)) = some list ∧
      addToList links (.event ev) list = some links' ∧
      links'.Ring .timerList ((timers.takeWhile (before timeout t) ++
        ev :: timers.dropWhile (before timeout t)).map .event) ∧
      links'.Ring .pendingList (pending.map .event) ∧
      ∀ e ≠ ev, e ∉ timers →
        links'.next (.event e) = links.next (.event e) := by
  have hplace : keepSorted links timeout t fuel
      (start .timerList (timers.map .event)) =
      some (start .timerList
        ((timers.dropWhile (before timeout t)).map .event)) := by
    have hring : links.Ring .timerList (([] ++ timers).map .event) := htimers
    exact keepSorted_eq hring hfuel
  have hcut := List.takeWhile_append_dropWhile
    (p := before timeout t) (l := timers)
  generalize timers.takeWhile (before timeout t) = xs at hcut ⊢
  generalize timers.dropWhile (before timeout t) = ys at hplace hcut ⊢
  have hring : links.Ring .timerList (xs.map .event ++ ys.map .event) := by
    rw [← List.map_append, hcut]
    exact htimers
  have hnot : Ptr.event ev ∉
      .timerList :: (xs.map .event ++ ys.map .event) := by
    rw [← List.map_append, hcut]
    simp [hev]
  obtain ⟨links', hadd, htimers', hsame⟩ := hring.insertBefore hnot
  rw [← List.map_append, hcut] at hsame
  rw [← List.map_cons, ← List.map_append] at htimers'
  refine ⟨_, links', hplace, hadd, htimers', ?_, ?_⟩
  · refine ring_apart hpending hsame (by simp) fun e he => ?_
    have hne : e ≠ ev := fun h => hev' (h ▸ he)
    have hother : e ∉ timers := fun h => hdisjoint e h he
    simp [hne, hother]
  · intro e hne he
    exact (hsame _ (by simp [hne, he])).1

/-- Times stay in order when a new one goes in front of the first that is not
earlier. -/
theorem sorted_insert {timeout : Ptr → Timeval} {ev : Nat} {timers : List Nat}
    (hsorted : (timers.map fun e => timeout (.event e)).Pairwise (· ≤ ·)) :
    ((timers.takeWhile (before timeout (timeout (.event ev))) ++
      ev :: timers.dropWhile (before timeout (timeout (.event ev)))).map
        fun e => timeout (.event e)).Pairwise (· ≤ ·) := by
  rw [List.pairwise_map] at hsorted ⊢
  obtain ⟨htake, hdrop⟩ := takeWhile_eq_filter
    (before_closed (timeout (.event ev)) hsorted)
  have hearlier : ∀ e ∈ timers.takeWhile
      (before timeout (timeout (.event ev))),
      timeout (.event e) ≤ timeout (.event ev) := by
    intro e he
    rw [htake, List.mem_filter] at he
    exact ((timercmp_iff _ _).mp he.2).le
  have hlater : ∀ e ∈ timers.dropWhile
      (before timeout (timeout (.event ev))),
      timeout (.event ev) ≤ timeout (.event e) := by
    intro e he
    rw [hdrop, List.mem_filter, Bool.not_eq_true'] at he
    refine le_of_not_gt fun hlt => ?_
    rw [before, (timercmp_iff _ _).mpr hlt] at he
    cases he.2
  rw [← List.takeWhile_append_dropWhile
    (p := before timeout (timeout (.event ev))) (l := timers),
    List.pairwise_append] at hsorted
  obtain ⟨htakes, hdrops, hacross⟩ := hsorted
  refine List.pairwise_append.mpr
    ⟨htakes, List.pairwise_cons.mpr ⟨hlater, hdrops⟩, ?_⟩
  intro a ha b hb
  rcases List.mem_cons.mp hb with rfl | hb
  · exact hearlier a ha
  · exact hacross a ha b hb

/-- The number of a timer that is added. -/
theorem State.Accounted.add {timers' : List Nat}
    (haccounted : s.Accounted timers pending) {ev : Nat}
    (hev : ev ∉ timers) (hev' : ev ∉ pending)
    (hmem : ∀ e, e ∈ timers' ↔ e = ev ∨ e ∈ timers)
    (hadded : s'.added = s.added + 1) (hfired : s'.fired = s.fired)
    (htimer : s'.timer = Function.update s.timer ev (some s.added)) :
    s'.Accounted timers' pending := by
  have hold {e n : Nat} (h : s.timer e = some n) : n < s.added :=
    (haccounted.added_iff n).mpr (.inr ⟨e, h⟩)
  have hnone : s.timer ev = none := by
    rw [Option.eq_none_iff_forall_ne_some]
    intro n h
    exact (haccounted.listed ev n h).elim hev hev'
  have hcases {e n : Nat} (h : s'.timer e = some n) :
      (e = ev ∧ n = s.added) ∨ (e ≠ ev ∧ s.timer e = some n) := by
    rw [htimer] at h
    by_cases he : e = ev
    · subst he
      rw [Function.update_self] at h
      exact .inl ⟨rfl, (Option.some_inj.mp h).symm⟩
    · rw [Function.update_of_ne he] at h
      exact .inr ⟨he, h⟩
  constructor
  · rw [hfired]
    exact haccounted.fired_nodup
  · intro e n h
    rw [hfired]
    rcases hcases h with ⟨rfl, rfl⟩ | ⟨-, h⟩
    · exact fun hmem =>
        ((haccounted.added_iff s.added).mpr (.inl hmem)).false
    · exact haccounted.once e n h
  · intro e e' n h h'
    rcases hcases h with ⟨rfl, rfl⟩ | ⟨-, h⟩
    · rcases hcases h' with ⟨rfl, -⟩ | ⟨-, h'⟩
      · rfl
      · exact absurd (hold h') (lt_irrefl _)
    · rcases hcases h' with ⟨rfl, rfl⟩ | ⟨-, h'⟩
      · exact absurd (hold h) (lt_irrefl _)
      · exact haccounted.unique e e' n h h'
  · intro n
    rw [hadded, hfired, Nat.lt_succ_iff_lt_or_eq, haccounted.added_iff]
    constructor
    · rintro ((hmem | ⟨e, h⟩) | rfl)
      · exact .inl hmem
      · have he : e ≠ ev := by
          rintro rfl
          rw [hnone] at h
          cases h
        exact .inr ⟨e, by rw [htimer, Function.update_of_ne he, h]⟩
      · exact .inr ⟨ev, by rw [htimer, Function.update_self]⟩
    · rintro (hmem | ⟨e, h⟩)
      · exact .inl (.inl hmem)
      · rcases hcases h with ⟨-, rfl⟩ | ⟨-, h⟩
        · exact .inr rfl
        · exact .inl (.inr ⟨e, h⟩)
  · intro e n h
    rcases hcases h with ⟨rfl, -⟩ | ⟨-, h⟩
    · exact .inl ((hmem e).mpr (.inl rfl))
    · exact (haccounted.listed e n h).imp (fun h => (hmem e).mpr (.inr h)) id
  · intro e he
    rw [htimer]
    by_cases hne : e = ev
    · exact ⟨s.added, by rw [hne, Function.update_self]⟩
    · rw [Function.update_of_ne hne]
      exact haccounted.timers e (((hmem e).mp he).resolve_left hne)

/-- The timers with a new one, which is due at `t`. -/
def State.withTimer (s : State) (timers : List Nat) (ev : Nat) (t : Timeval) :
    List Nat :=
  timers.filter (before s.timeout t) ++
    ev :: timers.filter fun e => !before s.timeout t e

/-- What `ril_timer_add` leaves: the event in its place in the list, with the
time it is due, and counted. -/
structure State.Added (s : State) (timers pending : List Nat) (ev : Nat)
    (t : Timeval) (s' : State) : Prop where
  lists : s'.Lists (s.withTimer timers ev t) pending
  timeout : s'.timeout = Function.update s.timeout (.event ev) t
  added : s'.added = s.added + 1
  timer : s'.timer = Function.update s.timer ev (some s.added)
  fired : s'.fired = s.fired

/-- A new timeout does not concern the timers of the list; it parts them into
those before it and the others. -/
theorem State.Lists.parts (hlists : s.Lists timers pending) {ev : Nat}
    (hev : ev ∉ timers) {t : Timeval} {timeout : Ptr → Timeval}
    (htimeout : Function.update s.timeout (.event ev) t = timeout) :
    (timers.map fun e => timeout (.event e)).Pairwise (· ≤ ·) ∧
      timers.takeWhile (before timeout t) =
        timers.filter (before s.timeout t) ∧
      timers.dropWhile (before timeout t) =
        timers.filter (fun e => !before s.timeout t e) := by
  have hother : ∀ e ∈ timers, timeout (.event e) = s.timeout (.event e) := by
    intro e he
    have hne : Ptr.event e ≠ .event ev :=
      fun h => hev (event_injective h ▸ he)
    rw [← htimeout, Function.update_of_ne hne]
  have hsorted : (timers.map fun e => timeout (.event e)).Pairwise
      (· ≤ ·) := by
    rw [List.map_congr_left hother]
    exact hlists.sorted
  have hbefore : ∀ e ∈ timers,
      before timeout t e = before s.timeout t e := by
    intro e he
    rw [before, before, hother e he]
  obtain ⟨htake, hdrop⟩ := takeWhile_eq_filter
    (before_closed t (List.pairwise_map.mp hsorted))
  rw [List.filter_congr hbefore] at htake
  rw [List.filter_congr fun e he => congrArg (!·) (hbefore e he)] at hdrop
  exact ⟨hsorted, htake, hdrop⟩

theorem rilTimerAdd_kept (hkept : s.Kept timers pending) {ev : Nat}
    (hcareful : s.links.next (.event ev) = none) (tv now : Timeval) :
    ∃ s', rilTimerAdd s ev (some tv) now = some s' ∧
      s'.Kept (s.withTimer timers ev (timeradd now tv)) pending ∧
      s.Added timers pending ev (timeradd now tv) s' := by
  obtain ⟨hev, hev'⟩ := hkept.lists.not_mem_of_unlinked hcareful
  generalize ht : timeradd now tv = t
  generalize htimeout : Function.update s.timeout (.event ev) t = timeout
  have hself : timeout (.event ev) = t := by
    rw [← htimeout, Function.update_self]
  obtain ⟨hsorted, htake, hdrop⟩ := hkept.lists.parts hev htimeout
  obtain ⟨list, links, hplace, hadd, htimers, hpending, hsame⟩ := add_timer
    hkept.lists.timer_ring hkept.lists.pending_ring hkept.lists.disjoint hev
    hev' timeout t (Nat.lt_succ_of_le hkept.length_le)
  rw [State.withTimer, ← htake, ← hdrop]
  generalize hxs : timers.takeWhile (before timeout t) = xs at htimers ⊢
  generalize hys : timers.dropWhile (before timeout t) = ys at htimers ⊢
  have hcut : timers = xs ++ ys := by
    rw [← hxs, ← hys, List.takeWhile_append_dropWhile]
  have hmem (e : Nat) : e ∈ xs ++ ev :: ys ↔ e = ev ∨ e ∈ timers := by
    rw [hcut]
    simp only [List.mem_append, List.mem_cons]
    tauto
  obtain ⟨s', hs'⟩ : ∃ s', s' = { s with
      links := links
      timeout := timeout
      added := s.added + 1
      timer := Function.update s.timer ev (some s.added) } := ⟨_, rfl⟩
  have hlists : s'.Lists (xs ++ ev :: ys) pending := by
    subst hs'
    refine ⟨htimers, hpending, ?_, ?_⟩
    · intro e he
      rcases (hmem e).mp he with rfl | he
      · exact hev'
      · exact hkept.lists.disjoint e he
    · rw [← hxs, ← hys, ← hself]
      exact sorted_insert hsorted
  subst hs'
  refine ⟨_, ?_, ⟨hlists, hkept.accounted.add hev hev' hmem rfl rfl rfl, ?_, ?_,
    hkept.select, hkept.firing⟩, ?_⟩
  · rw [rilTimerAdd]
    simp only [Option.bind_eq_bind, hkept.lists.timer_ring.next_head,
      Option.bind_some, ht, htimeout, State.fuel, hplace, hadd]
    rfl
  · intro e he he'
    obtain ⟨hne, he⟩ := not_or.mp (mt (hmem e).mpr he)
    exact (hsame e hne he).trans (hkept.unlinked e he he')
  · have hlength := congrArg List.length hcut
    have hle := hkept.length_le
    simp only [List.length_append, List.length_cons] at hlength ⊢
    omega
  · refine ⟨?_, htimeout.symm, rfl, rfl, rfl⟩
    rw [State.withTimer, ← htake, ← hdrop, hxs, hys]
    exact hlists

/-- Events that change lists keep their numbers. -/
theorem State.Accounted.move {timers' pending' : List Nat}
    (haccounted : s.Accounted timers pending)
    (hmem : ∀ e, e ∈ timers ∨ e ∈ pending → e ∈ timers' ∨ e ∈ pending')
    (htimers : ∀ e ∈ timers', e ∈ timers) (hadded : s'.added = s.added)
    (hfired : s'.fired = s.fired) (htimer : s'.timer = s.timer) :
    s'.Accounted timers' pending' := by
  constructor
  · rw [hfired]
    exact haccounted.fired_nodup
  · rw [hfired, htimer]
    exact haccounted.once
  · rw [htimer]
    exact haccounted.unique
  · rw [hadded, hfired, htimer]
    exact haccounted.added_iff
  · intro e n h
    rw [htimer] at h
    exact hmem e (haccounted.listed e n h)
  · intro e he
    rw [htimer]
    exact haccounted.timers e (htimers e he)

theorem processTimeouts_kept (hkept : s.Kept timers pending)
    (hphase : s.phase = .select) (now : Timeval) :
    ∃ s', processTimeouts s now = some s' ∧ s'.timeout = s.timeout ∧
      s'.phase = .readReadies ∧
      s'.Kept (timers.filter fun ev => !before s.timeout now ev)
        (timers.filter (before s.timeout now)) := by
  obtain rfl := hkept.select hphase
  obtain ⟨links, hexpire, htimers, hpending, hsame⟩ := expire_eq s.timeout now
    hkept.lists.timer_ring hkept.lists.pending_ring hkept.lists.disjoint
    (Nat.lt_succ_of_le hkept.length_le)
  obtain ⟨htake, hdrop⟩ := takeWhile_eq_filter
    (before_closed now (List.pairwise_map.mp hkept.lists.sorted))
  rw [hdrop] at htimers
  rw [List.nil_append, htake] at hpending
  refine ⟨{ s with links := links, phase := .readReadies }, ?_, rfl, rfl,
    ⟨htimers, hpending, ?_, ?_⟩, ?_, ?_, ?_, (fun h => by cases h),
    (fun ev h => by cases h)⟩
  · rw [processTimeouts]
    simp only [Option.bind_eq_bind, hkept.lists.timer_ring.next_head,
      Option.bind_some, State.fuel, hexpire]
    rfl
  · intro e he he'
    rw [List.mem_filter] at he he'
    rw [he'.2] at he
    cases he.2
  · have hsorted := List.pairwise_map.mp hkept.lists.sorted
    exact List.pairwise_map.mpr (hsorted.filter _)
  · refine hkept.accounted.move ?_ (fun e he => (List.mem_filter.mp he).1) rfl
      rfl rfl
    intro e he
    have hmem := he.resolve_right List.not_mem_nil
    cases hbefore : before s.timeout now e with
    | true => exact .inr (List.mem_filter.mpr ⟨hmem, hbefore⟩)
    | false => exact .inl (List.mem_filter.mpr ⟨hmem, by rw [hbefore]; rfl⟩)
  · intro e he he'
    have hmem : e ∉ timers := by
      intro hmem
      cases hbefore : before s.timeout now e with
      | true => exact he' (List.mem_filter.mpr ⟨hmem, hbefore⟩)
      | false => exact he (List.mem_filter.mpr ⟨hmem, by rw [hbefore]; rfl⟩)
    rw [hsame e hmem List.not_mem_nil]
    exact hkept.unlinked e hmem List.not_mem_nil
  · exact (List.length_filter_le _ _).trans hkept.length_le

theorem addReadies_eq {links : Links Ptr}
    (htimers : links.Ring .timerList (timers.map .event))
    (hpending : links.Ring .pendingList (pending.map .event))
    (hdisjoint : ∀ e ∈ timers, e ∉ pending) {revs : List Nat}
    (hrevs : revs.Nodup) (hfree : ∀ rev ∈ revs, rev ∉ timers ∧ rev ∉ pending) :
    ∃ links', addReadies links revs = some links' ∧
      links'.Ring .timerList (timers.map .event) ∧
      links'.Ring .pendingList ((pending ++ revs).map .event) ∧
      ∀ e ∉ pending ++ revs,
        links'.next (.event e) = links.next (.event e) := by
  induction revs generalizing links pending with
  | nil =>
      refine ⟨links, rfl, htimers, ?_, fun e _ => rfl⟩
      rwa [List.append_nil]
  | cons rev revs ih =>
      obtain ⟨hrev, hrevs⟩ := List.nodup_cons.mp hrevs
      obtain ⟨hnot, hnot'⟩ := hfree rev List.mem_cons_self
      obtain ⟨links₁, hadd, htimers₁, hpending₁, hsame₁⟩ :=
        add_pending htimers hpending hnot hnot' hdisjoint
      have hdisjoint₁ : ∀ e ∈ timers, e ∉ pending ++ [rev] := by
        intro e he hmem
        rcases List.mem_append.mp hmem with hmem | hmem
        · exact hdisjoint e he hmem
        · exact hnot (List.mem_singleton.mp hmem ▸ he)
      obtain ⟨links', hrest, htimers', hpending', hsame'⟩ :=
        ih htimers₁ hpending₁ hdisjoint₁ hrevs fun e he => by
          obtain ⟨hfirst, hsecond⟩ := hfree e (List.mem_cons_of_mem rev he)
          have hne : e ≠ rev := fun h => hrev (h ▸ he)
          exact ⟨hfirst, by simp [hsecond, hne]⟩
      refine ⟨links', ?_, htimers', ?_, ?_⟩
      · simp only [addReadies, Option.bind_eq_bind, hadd, Option.bind_some,
          hrest]
      · rwa [List.append_assoc, List.singleton_append] at hpending'
      · intro e he
        simp only [List.mem_append, List.mem_cons, not_or] at he
        rw [hsame' e (by simp [he]), hsame₁ e he.2.1 he.1]

theorem processReadReadies_kept (hkept : s.Kept timers pending)
    {revs : List Nat} (hnodup : revs.Nodup)
    (hcareful : ∀ rev ∈ revs, s.links.next (.event rev) = none) :
    ∃ s', processReadReadies s revs = some s' ∧
      s'.Kept timers (pending ++ revs) := by
  have hfree := fun rev hrev =>
    hkept.lists.not_mem_of_unlinked (hcareful rev hrev)
  obtain ⟨links, hadd, htimers, hpending, hsame⟩ := addReadies_eq
    hkept.lists.timer_ring hkept.lists.pending_ring hkept.lists.disjoint
    hnodup hfree
  refine ⟨{ s with
      links := links
      phase := .firing
        (start .pendingList ((pending ++ revs).map .event)) },
    ?_, ⟨htimers, hpending, ?_, hkept.lists.sorted⟩, ?_, ?_,
    hkept.length_le, (fun h => by cases h), ?_⟩
  · rw [processReadReadies]
    simp only [Option.bind_eq_bind, hadd, Option.bind_some,
      hpending.next_head]
    rfl
  · intro e he hmem
    rcases List.mem_append.mp hmem with hmem | hmem
    · exact hkept.lists.disjoint e he hmem
    · exact (hfree e hmem).1 he
  · refine hkept.accounted.move ?_ (fun e he => he) rfl rfl rfl
    exact fun e he => he.imp id (List.mem_append_left revs)
  · intro e he he'
    have hpend : e ∉ pending := fun h => he' (List.mem_append_left revs h)
    rw [hsame e he']
    exact hkept.unlinked e he hpend
  · intro ev h
    exact (Phase.firing.inj h).symm

/-- A timer that is called is not counted as waiting any longer. -/
theorem State.Accounted.fire {ev : Nat} {rest : List Nat}
    (haccounted : s.Accounted timers (ev :: rest)) (hev : ev ∉ timers)
    (hadded : s'.added = s.added)
    (hfired : s'.fired = (s.timer ev).toList ++ s.fired)
    (htimer : s'.timer = Function.update s.timer ev none) :
    s'.Accounted timers rest := by
  have hcases {e n : Nat} (h : s'.timer e = some n) :
      e ≠ ev ∧ s.timer e = some n := by
    rw [htimer] at h
    by_cases he : e = ev
    · rw [he, Function.update_self] at h
      cases h
    · rw [Function.update_of_ne he] at h
      exact ⟨he, h⟩
  have hmem (n : Nat) :
      n ∈ s'.fired ↔ s.timer ev = some n ∨ n ∈ s.fired := by
    rw [hfired, List.mem_append, Option.mem_toList]
  constructor
  · rw [hfired]
    cases h : s.timer ev with
    | none => exact haccounted.fired_nodup
    | some n =>
        exact List.nodup_cons.mpr
          ⟨haccounted.once ev n h, haccounted.fired_nodup⟩
  · intro e n h
    obtain ⟨hne, h⟩ := hcases h
    rw [hmem, not_or]
    exact ⟨fun hev => hne (haccounted.unique e ev n h hev),
      haccounted.once e n h⟩
  · intro e e' n h h'
    exact haccounted.unique e e' n (hcases h).2 (hcases h').2
  · intro n
    rw [hadded, haccounted.added_iff, hmem]
    constructor
    · rintro (h | ⟨e, h⟩)
      · exact .inl (.inr h)
      · by_cases he : e = ev
        · exact .inl (.inl (he ▸ h))
        · exact .inr ⟨e, by rw [htimer, Function.update_of_ne he, h]⟩
    · rintro ((h | h) | ⟨e, h⟩)
      · exact .inr ⟨ev, h⟩
      · exact .inl h
      · exact .inr ⟨e, (hcases h).2⟩
  · intro e n h
    obtain ⟨hne, h⟩ := hcases h
    exact (haccounted.listed e n h).imp id fun hpend =>
      (List.mem_cons.mp hpend).resolve_left hne
  · intro e he
    have hne : e ≠ ev := fun h => hev (h ▸ he)
    rw [htimer, Function.update_of_ne hne]
    exact haccounted.timers e he

/-- The first pending event is called, or the loop is done. -/
theorem firePending_kept (hkept : s.Kept timers pending) {ev : Ptr}
    (hphase : s.phase = .firing ev) :
    ∃ s', firePending s ev = some s' ∧ s'.Kept timers pending.tail ∧
      s'.fired = ((pending.head?.bind s.timer).toList) ++ s.fired := by
  obtain rfl := hkept.firing ev hphase
  cases pending with
  | nil =>
      refine ⟨{ s with phase := .select }, rfl, ⟨⟨hkept.lists.timer_ring,
          hkept.lists.pending_ring, hkept.lists.disjoint,
          hkept.lists.sorted⟩,
        hkept.accounted.move (fun _ h => h) (fun _ h => h) rfl rfl rfl,
        hkept.unlinked, hkept.length_le, fun _ => rfl, ?_⟩, rfl⟩
      intro ev h
      cases h
  | cons ev rest =>
      have hnext := next_first hkept.lists.pending_ring
      have hev : ev ∉ timers :=
        fun h => hkept.lists.disjoint ev h List.mem_cons_self
      have hrest : ev ∉ rest := fun h =>
        (List.nodup_cons.mp (List.nodup_cons.mp
          hkept.lists.pending_ring.nodup).2).1 (mem_map_event.mpr h)
      obtain ⟨links, hremove, hpending, htimers, hnone, hsame⟩ := remove_first
        hkept.lists.pending_ring hkept.lists.timer_ring (by simp)
        (fun e => by simp) hkept.lists.disjoint
      refine ⟨{ s with
          links := links
          phase := .firing (start .pendingList (rest.map .event))
          timer := Function.update s.timer ev none
          fired := (s.timer ev).toList ++ s.fired }, ?_,
        ⟨⟨htimers, hpending, ?_, hkept.lists.sorted⟩,
          hkept.accounted.fire hev rfl rfl rfl, ?_, hkept.length_le,
          (fun h => by cases h), ?_⟩, rfl⟩
      · rw [List.map_cons, start, List.head?_cons, Option.getD_some,
          firePending]
        simp only [Option.bind_eq_bind, hnext, hremove, Option.bind_some]
        rfl
      · exact fun e he hmem =>
          hkept.lists.disjoint e he (List.mem_cons_of_mem ev hmem)
      · intro e he he'
        by_cases hne : e = ev
        · rw [hne]
          exact hnone
        · have hmem : e ∉ ev :: rest := by
            simp only [List.mem_cons, not_or]
            exact ⟨hne, he'⟩
          exact (hsame e hmem).trans (hkept.unlinked e he hmem)
      · intro ev h
        exact (Phase.firing.inj h).symm

theorem State.Kept.step (hkept : s.Kept timers pending) {event : Event}
    (hcareful : s.Careful event) (henabled : s.Enabled event) :
    ∃ s', s.step event = some s' ∧
      ∃ timers' pending', s'.Kept timers' pending' := by
  cases event with
  | timerAdd ev tv now =>
      cases tv with
      | none => exact ⟨s, rfl, timers, pending, hkept⟩
      | some tv =>
          obtain ⟨s', hadd, hkept', -⟩ :=
            rilTimerAdd_kept hkept hcareful tv now
          exact ⟨s', hadd, _, pending, hkept'⟩
  | timeouts now =>
      have hphase : s.phase = .select := henabled
      obtain ⟨s', htimeouts, -, -, hkept'⟩ :=
        processTimeouts_kept hkept hphase now
      refine ⟨s', ?_, _, _, hkept'⟩
      rw [State.step, hphase]
      exact htimeouts
  | readies revs =>
      have hphase : s.phase = .readReadies := henabled
      obtain ⟨s', hreadies, hkept'⟩ :=
        processReadReadies_kept hkept hcareful.1 hcareful.2
      refine ⟨s', ?_, _, _, hkept'⟩
      rw [State.step, hphase]
      exact hreadies
  | fire =>
      obtain ⟨ev, hphase⟩ := henabled
      obtain ⟨s', hfire, hkept', -⟩ := firePending_kept hkept hphase
      refine ⟨s', ?_, _, _, hkept'⟩
      rw [State.step, hphase]
      exact hfire

theorem enabled_of_step {event : Event} (hstep : s.step event = some s') :
    s.Enabled event := by
  unfold State.step at hstep
  cases event with
  | timerAdd ev tv now => trivial
  | timeouts now =>
      cases hphase : s.phase with
      | select => exact hphase
      | readReadies => simp [hphase] at hstep
      | firing ev => simp [hphase] at hstep
  | readies revs =>
      cases hphase : s.phase with
      | select => simp [hphase] at hstep
      | readReadies => exact hphase
      | firing ev => simp [hphase] at hstep
  | fire =>
      cases hphase : s.phase with
      | select => simp [hphase] at hstep
      | readReadies => simp [hphase] at hstep
      | firing ev => exact ⟨ev, hphase⟩

/-- No piece of an iteration gets stuck; a timer that is added is due its time
from now and stands in its place in the list; the timers whose timeout is
before the time become the pending events, earlier ones first; the ready
events come behind them; and the first pending event is called. -/
structure State.Iterates (s : State) (timers pending : List Nat) : Prop where
  runs (event : Event) (hcareful : s.Careful event)
    (henabled : s.Enabled event) : ∃ s', s.step event = some s'
  adds (ev : Nat) (tv now : Timeval) (s' : State)
    (hcareful : s.Careful (.timerAdd ev (some tv) now))
    (hstep : s.step (.timerAdd ev (some tv) now) = some s') :
    s.Added timers pending ev (timeradd now tv) s'
  moves (now : Timeval) (s' : State)
    (hstep : s.step (.timeouts now) = some s') :
    pending = [] ∧ s'.timeout = s.timeout ∧
      s'.Lists (timers.filter fun ev => !before s.timeout now ev)
        (timers.filter (before s.timeout now))
  ordered (now : Timeval) :
    ((timers.filter (before s.timeout now)).map
      fun ev => s.timeout (.event ev)).Pairwise (· ≤ ·)
  queues (revs : List Nat) (s' : State) (hcareful : s.Careful (.readies revs))
    (hstep : s.step (.readies revs) = some s') :
    s'.Lists timers (pending ++ revs)
  fires (s' : State) (hstep : s.step .fire = some s') :
    s'.Lists timers pending.tail ∧
      s'.fired = (pending.head?.bind s.timer).toList ++ s.fired

theorem State.Kept.iterates (hkept : s.Kept timers pending) :
    s.Iterates timers pending := by
  constructor
  · intro event hcareful henabled
    obtain ⟨s', hstep, -⟩ := hkept.step hcareful henabled
    exact ⟨s', hstep⟩
  · intro ev tv now s' hcareful hstep
    obtain ⟨after, hadd, -, hadded⟩ := rilTimerAdd_kept hkept hcareful tv now
    obtain rfl := Option.some_inj.mp (hadd.symm.trans hstep)
    exact hadded
  · intro now s' hstep
    have hphase : s.phase = .select := enabled_of_step hstep
    obtain ⟨after, htimeouts, hsame, -, hkept'⟩ :=
      processTimeouts_kept hkept hphase now
    rw [State.step, hphase] at hstep
    obtain rfl := Option.some_inj.mp (htimeouts.symm.trans hstep)
    exact ⟨hkept.select hphase, hsame, hkept'.lists⟩
  · intro now
    have hsorted := List.pairwise_map.mp hkept.lists.sorted
    exact List.pairwise_map.mpr (hsorted.filter _)
  · intro revs s' hcareful hstep
    have hphase : s.phase = .readReadies := enabled_of_step hstep
    obtain ⟨after, hreadies, hkept'⟩ :=
      processReadReadies_kept hkept hcareful.1 hcareful.2
    rw [State.step, hphase] at hstep
    obtain rfl := Option.some_inj.mp (hreadies.symm.trans hstep)
    exact hkept'.lists
  · intro s' hstep
    obtain ⟨ev, hphase⟩ := enabled_of_step hstep
    obtain ⟨after, hfire, hkept', hfired⟩ := firePending_kept hkept hphase
    rw [State.step, hphase] at hstep
    obtain rfl := Option.some_inj.mp (hfire.symm.trans hstep)
    exact ⟨hkept'.lists, hfired⟩

end Steps

/-- In every run in which only events are added that are in no list, both
lists are rings and the timers are sorted, a timer that is added comes into the
list, each one is called at most once and until then in a list, and the
iterations take exactly the timers that are due. -/
theorem reach_timers {s : State}
    (hreach : Reach State.step State.Careful .start s) :
    ∃ timers pending, s.Lists timers pending ∧ s.Accounted timers pending ∧
      s.Iterates timers pending := by
  have hkept : ∃ timers pending, s.Kept timers pending := by
    refine hreach.invariant (fun s => ∃ timers pending, s.Kept timers pending)
      ?_ ⟨[], [], start_kept⟩
    rintro s event s' ⟨timers, pending, hkept⟩ hcareful hstep
    obtain ⟨after, hafter, hkept'⟩ :=
      hkept.step hcareful (enabled_of_step hstep)
    rwa [Option.some_inj.mp (hafter.symm.trans hstep)] at hkept'
  obtain ⟨timers, pending, hkept⟩ := hkept
  exact ⟨timers, pending, hkept.lists, hkept.accounted, hkept.iterates⟩

namespace RilTimersWitness

/-- A timer of one second is added at time zero. -/
theorem one_timer :
    ∃ s, State.start.step (.timerAdd 5 (some ⟨1, 0⟩) ⟨0, 0⟩) = some s ∧
      s.Lists [5] [] ∧ s.timeout (.event 5) = ⟨1, 0⟩ ∧ s.timer 5 = some 0 := by
  obtain ⟨timers, pending, hlists, -, hiterates⟩ := reach_timers Reach.refl
  have hstart := start_kept.lists
  have htimers : timers = [] :=
    List.map_eq_nil_iff.mp (hlists.timer_ring.unique hstart.timer_ring)
  have hpending : pending = [] :=
    List.map_eq_nil_iff.mp (hlists.pending_ring.unique hstart.pending_ring)
  subst htimers hpending
  have hadded := hiterates.adds 5 ⟨1, 0⟩ ⟨0, 0⟩ _ rfl rfl
  exact ⟨_, rfl, hadded.lists, rfl, rfl⟩

end RilTimersWitness

end RilTimers

end MetaOS
