/-
hardware/ril/libril/ril_event.cpp: the events that are watched for input.  The
table, the set of descriptors given to `select`, its bound and the index kept
in each event are four views of the same thing.
-/
import Mathlib.Data.Finset.Card
import Mathlib.Data.List.FinRange
import Mathlib.Logic.Function.Basic
import Mathlib.Tactic
import MetaOS.EventRuns

namespace MetaOS

namespace RilWatch

open EventRuns

/-- Max number of fd's we watch at any one time. -/
def MAX_FD_EVENTS : Nat := 8

/-- A place in the table. -/
abbrev Index := Fin MAX_FD_EVENTS

/-- The fields of the events, which are numbered, and what is kept about those
that are watched.  `pending_list` has the events that the loop is to call. -/
structure State where
  fd : Nat → Int
  index : Nat → Int
  persist : Nat → Bool
  watchTable : Index → Option Nat
  readFds : Finset Int
  nfds : Int
  pendingList : List Nat

/-- After `ril_event_init`, with no event in use. -/
def State.start : State where
  fd _ := -1
  index _ := -1
  persist _ := false
  watchTable _ := none
  readFds := ∅
  nfds := 0
  pendingList := []

/-- The highest descriptor in the table, or 0. -/
def highest (fd : Nat → Int) (watchTable : Index → Option Nat) :
    (is : List Index) → (n : Int) → Int
  | [], n => n
  | i :: is, n =>
      match watchTable i with
      | some rev =>
          highest fd watchTable is (if n < fd rev then fd rev else n)
      | none => highest fd watchTable is n

def removeWatch (s : State) (ev : Nat) (index : Index) : State :=
  let watchTable := Function.update s.watchTable index none
  { s with
    watchTable := watchTable
    index := Function.update s.index ev (-1)
    readFds := s.readFds.erase (s.fd ev)
    nfds :=
      if s.fd ev + 1 = s.nfds then
        highest s.fd watchTable (List.finRange MAX_FD_EVENTS) 0 + 1
      else s.nfds }

/-- The loop of `processReadReadies`, with `n` events left. -/
def readReadies (rfds : Finset Int) : (is : List Index) → (n : Int) → State →
    State
  | [], _, s => s
  | i :: is, n, s =>
      if 0 < n then
        match s.watchTable i with
        | some rev =>
            if s.fd rev ∈ rfds then
              let s := { s with pendingList := s.pendingList ++ [rev] }
              let s := if s.persist rev = false then removeWatch s rev i else s
              readReadies rfds is (n - 1) s
            else readReadies rfds is n s
        | none => readReadies rfds is n s
      else s

def processReadReadies (s : State) (rfds : Finset Int) (n : Int) : State :=
  readReadies rfds (List.finRange MAX_FD_EVENTS) n s

def rilEventSet (s : State) (ev : Nat) (fd : Int) (persist : Bool) : State :=
  { s with
    fd := Function.update s.fd ev fd
    index := Function.update s.index ev (-1)
    persist := Function.update s.persist ev persist }

def rilEventAdd (s : State) (ev : Nat) : State :=
  match (List.finRange MAX_FD_EVENTS).find?
      fun i => s.watchTable i = none with
  | some i =>
      { s with
        watchTable := Function.update s.watchTable i (some ev)
        index := Function.update s.index ev i.val
        readFds := insert (s.fd ev) s.readFds
        nfds := if s.nfds ≤ s.fd ev then s.fd ev + 1 else s.nfds }
  | none => s

/-- The place that an event's index names, if there is one. -/
def State.place (s : State) (ev : Nat) : Option Index :=
  if h : 0 ≤ s.index ev ∧ s.index ev < MAX_FD_EVENTS then
    some ⟨(s.index ev).toNat, by omega⟩
  else none

def rilEventDel (s : State) (ev : Nat) : State :=
  match s.place ev with
  | some index => removeWatch s ev index
  | none => s

/-- The calls.  `select` has said which descriptors are ready, and how many;
`firePending` has emptied the list since the last iteration. -/
inductive Event where
  | set (ev : Nat) (fd : Int) (persist : Bool)
  | add (ev : Nat)
  | del (ev : Nat)
  | readies (rfds : Finset Int)

def State.step (s : State) : Event → Option State
  | .set ev fd persist => some (rilEventSet s ev fd persist)
  | .add ev => some (rilEventAdd s ev)
  | .del ev => some (rilEventDel s ev)
  | .readies rfds =>
      some (processReadReadies { s with pendingList := [] } rfds rfds.card)

def State.Watched (s : State) (ev : Nat) : Prop :=
  ∃ i, s.watchTable i = some ev

/-- Callers add an event that is not watched, with a descriptor of its own,
and remove one that is. -/
def State.Careful (s : State) : Event → Prop
  | .set ev _ _ => ¬ s.Watched ev
  | .add ev =>
      ¬ s.Watched ev ∧ 0 ≤ s.fd ev ∧ ∀ e, s.Watched e → s.fd e ≠ s.fd ev
  | .del ev => s.Watched ev
  | .readies _ => True

/-- The four views agree. -/
structure State.Agree (s : State) : Prop where
  readFds (fd : Int) : fd ∈ s.readFds ↔ ∃ e, s.Watched e ∧ s.fd e = fd
  nfds (e : Nat) (hwatched : s.Watched e) : s.fd e < s.nfds
  index (e : Nat) (hwatched : s.Watched e) :
    ∃ i : Index, s.index e = i.val ∧ s.watchTable i = some e
  other (e : Nat) (hother : ¬ s.Watched e) : s.index e = -1

/-- What the calls do to the watched events. -/
structure State.Serves (s : State) : Prop where
  adds (ev : Nat) (hcareful : s.Careful (.add ev))
    (hroom : ∃ i, s.watchTable i = none) (e : Nat) :
    (rilEventAdd s ev).Watched e ↔ s.Watched e ∨ e = ev
  dels (ev : Nat) (hcareful : s.Careful (.del ev)) (e : Nat) :
    (rilEventDel s ev).Watched e ↔ s.Watched e ∧ e ≠ ev
  stays (rfds : Finset Int) (e : Nat) :
    (processReadReadies s rfds rfds.card).Watched e ↔
      s.Watched e ∧ (s.fd e ∈ rfds → s.persist e = true)
  queues (rfds : Finset Int) : ∃ revs,
    (processReadReadies s rfds rfds.card).pendingList =
      s.pendingList ++ revs ∧
    revs.Nodup ∧ ∀ e, e ∈ revs ↔ s.Watched e ∧ s.fd e ∈ rfds

/-- The invariant: every event in the table has its own descriptor and the
index of its place, and nothing else is counted. -/
structure State.Kept (s : State) : Prop where
  slot (i : Index) (e : Nat) (htable : s.watchTable i = some e) :
    s.index e = i.val
  other (e : Nat) (hother : ¬ s.Watched e) : s.index e = -1
  readFds (fd : Int) : fd ∈ s.readFds ↔ ∃ e, s.Watched e ∧ s.fd e = fd
  nfds (e : Nat) (hwatched : s.Watched e) : s.fd e < s.nfds
  distinct (e e' : Nat) (hwatched : s.Watched e) (hwatched' : s.Watched e')
    (hfd : s.fd e = s.fd e') : e = e'

section Steps

variable {s : State} {ev : Nat} {i : Index}

theorem start_kept : State.start.Kept where
  slot _ _ htable := by cases htable
  other _ _ := rfl
  readFds fd := by simp [State.start, State.Watched]
  nfds e hwatched := by
    obtain ⟨i, htable⟩ := hwatched
    cases htable
  distinct e e' hwatched _ _ := by
    obtain ⟨i, htable⟩ := hwatched
    cases htable

theorem place_of_index (hindex : s.index ev = i.val) :
    s.place ev = some i := by
  have hi := i.isLt
  have hrange : 0 ≤ s.index ev ∧ s.index ev < MAX_FD_EVENTS := by omega
  rw [State.place, dif_pos hrange]
  simp [hindex]

theorem place_eq_none_iff :
    s.place ev = none ↔ ¬ (0 ≤ s.index ev ∧ s.index ev < MAX_FD_EVENTS) := by
  unfold State.place
  split
  next hrange =>
    exact iff_of_false (Option.some_ne_none _) (not_not.mpr hrange)
  next hrange => exact iff_of_true rfl hrange

/-- An event is in one place only. -/
theorem State.Kept.unique (hkept : s.Kept) {j : Index}
    (hi : s.watchTable i = some ev) (hj : s.watchTable j = some ev) :
    j = i := by
  have hindex := (hkept.slot j ev hj).symm.trans (hkept.slot i ev hi)
  exact Fin.ext (by omega)

theorem le_highest {fd : Nat → Int} {watchTable : Index → Option Nat}
    (is : List Index) (n : Int) : n ≤ highest fd watchTable is n := by
  induction is generalizing n with
  | nil => exact le_refl n
  | cons i is ih =>
      rw [highest]
      cases watchTable i with
      | none => exact ih n
      | some rev =>
          refine le_trans ?_ (ih _)
          split
          next hlt => exact hlt.le
          next => exact le_refl n

theorem fd_le_highest {fd : Nat → Int} {watchTable : Index → Option Nat}
    {e : Nat} (he : watchTable i = some e) {is : List Index} (hmem : i ∈ is)
    (n : Int) : fd e ≤ highest fd watchTable is n := by
  induction is generalizing n with
  | nil => cases hmem
  | cons j is ih =>
      rw [highest]
      rcases List.mem_cons.mp hmem with rfl | hmem
      · rw [he]
        refine le_trans ?_ (le_highest is _)
        split
        next => exact le_refl _
        next hle => exact not_lt.mp hle
      · cases watchTable j with
        | none => exact ih hmem n
        | some rev => exact ih hmem _

theorem removeWatch_watched (hkept : s.Kept)
    (htable : s.watchTable i = some ev) (e : Nat) :
    (removeWatch s ev i).Watched e ↔ s.Watched e ∧ e ≠ ev := by
  constructor
  · rintro ⟨j, hj⟩
    change Function.update s.watchTable i none j = some e at hj
    have hne : j ≠ i := by
      rintro rfl
      rw [Function.update_self] at hj
      cases hj
    rw [Function.update_of_ne hne] at hj
    refine ⟨⟨j, hj⟩, ?_⟩
    rintro rfl
    exact hne (hkept.unique htable hj)
  · rintro ⟨⟨j, hj⟩, hne⟩
    refine ⟨j, ?_⟩
    have hplace : j ≠ i := by
      rintro rfl
      exact hne (Option.some_inj.mp (hj.symm.trans htable))
    exact (Function.update_of_ne hplace _ _).trans hj

theorem removeWatch_kept (hkept : s.Kept)
    (htable : s.watchTable i = some ev) : (removeWatch s ev i).Kept := by
  have hwatched := removeWatch_watched hkept htable
  constructor
  · intro j e hj
    obtain ⟨-, hne⟩ := (hwatched e).mp ⟨j, hj⟩
    change Function.update s.watchTable i none j = some e at hj
    have hplace : j ≠ i := by
      rintro rfl
      rw [Function.update_self] at hj
      cases hj
    rw [Function.update_of_ne hplace] at hj
    exact (Function.update_of_ne hne _ _).trans (hkept.slot j e hj)
  · intro e hother
    change Function.update s.index ev (-1) e = -1
    by_cases he : e = ev
    · rw [he, Function.update_self]
    · rw [Function.update_of_ne he]
      exact hkept.other e fun h => hother ((hwatched e).mpr ⟨h, he⟩)
  · intro fd
    change fd ∈ s.readFds.erase (s.fd ev) ↔ _
    rw [Finset.mem_erase, hkept.readFds]
    constructor
    · rintro ⟨hne, e, he, rfl⟩
      exact ⟨e, (hwatched e).mpr ⟨he, fun h => hne (h ▸ rfl)⟩, rfl⟩
    · rintro ⟨e, he, rfl⟩
      obtain ⟨he, hne⟩ := (hwatched e).mp he
      exact ⟨fun hfd => hne (hkept.distinct e ev he ⟨i, htable⟩ hfd),
        e, he, rfl⟩
  · intro e he
    change s.fd e < if s.fd ev + 1 = s.nfds then _ else s.nfds
    split
    next =>
      obtain ⟨j, hj⟩ := he
      exact Int.lt_add_one_of_le
        (fd_le_highest hj (List.mem_finRange j) 0)
    next => exact hkept.nfds e ((hwatched e).mp he).1
  · intro e e' he he' hfd
    exact hkept.distinct e e' ((hwatched e).mp he).1 ((hwatched e').mp he').1
      hfd

/-- The event in a place, if it is ready. -/
def State.readyAt (s : State) (rfds : Finset Int) (i : Index) : Option Nat :=
  (s.watchTable i).filter fun rev => s.fd rev ∈ rfds

def State.queue (s : State) (rev : Nat) : State :=
  { s with pendingList := s.pendingList ++ [rev] }

theorem State.Kept.queue (hkept : s.Kept) (rev : Nat) : (s.queue rev).Kept :=
  ⟨hkept.slot, hkept.other, hkept.readFds, hkept.nfds, hkept.distinct⟩

/-- A round of the loop for an event that is ready. -/
def State.take (s : State) (rev : Nat) (i : Index) : State :=
  if s.persist rev = false then removeWatch (s.queue rev) rev i
  else s.queue rev

/-- What the loop leaves when it has found the events `revs` ready. -/
structure State.Took (s s' : State) (revs : List Nat) : Prop where
  kept : s'.Kept
  pending : s'.pendingList = s.pendingList ++ revs
  fd : s'.fd = s.fd
  persist : s'.persist = s.persist
  watched (e : Nat) :
    s'.Watched e ↔ s.Watched e ∧ (e ∈ revs → s.persist e = true)

theorem take_took (hkept : s.Kept) (htable : s.watchTable i = some ev) :
    s.Took (s.take ev i) [ev] := by
  unfold State.take
  cases hpersist : s.persist ev with
  | false =>
      rw [if_pos rfl]
      refine ⟨removeWatch_kept (hkept.queue ev) htable, rfl, rfl, rfl, ?_⟩
      intro e
      rw [removeWatch_watched (hkept.queue ev) htable]
      refine and_congr_right fun _ => ?_
      rw [List.mem_singleton]
      constructor
      · exact fun hne he => absurd he hne
      · rintro htrue rfl
        rw [htrue rfl] at hpersist
        cases hpersist
  | true =>
      rw [if_neg Bool.noConfusion]
      refine ⟨hkept.queue ev, rfl, rfl, rfl, fun e => ?_⟩
      refine (and_iff_left ?_).symm
      intro he
      rw [List.mem_singleton.mp he, hpersist]

/-- The other places are as they were. -/
theorem take_watchTable {j : Index} (hne : j ≠ i) :
    (s.take ev i).watchTable j = s.watchTable j := by
  unfold State.take
  split
  · exact Function.update_of_ne hne _ _
  · rfl

theorem take_fd : (s.take ev i).fd = s.fd := by
  unfold State.take
  split <;> rfl

theorem State.Took.trans {s s₁ s' : State} {revs revs' : List Nat}
    (hfirst : s.Took s₁ revs) (hrest : s₁.Took s' revs') :
    s.Took s' (revs ++ revs') := by
  refine ⟨hrest.kept, ?_, hrest.fd.trans hfirst.fd,
    hrest.persist.trans hfirst.persist, fun e => ?_⟩
  · rw [hrest.pending, hfirst.pending, List.append_assoc]
  · rw [hrest.watched, hfirst.watched, hfirst.persist, List.mem_append,
      or_imp, and_assoc]

theorem State.Kept.took_nil (hkept : s.Kept) : s.Took s [] :=
  ⟨hkept, (List.append_nil _).symm, rfl, rfl, fun _ => by simp⟩

/-- While `n` counts at least the ready events ahead, the loop takes all of
them, each from its own place. -/
theorem readReadies_took {rfds : Finset Int} {is : List Index} {n : Int}
    (hkept : s.Kept) (hnodup : is.Nodup)
    (hn : (is.filterMap (s.readyAt rfds)).length ≤ n) :
    s.Took (readReadies rfds is n s) (is.filterMap (s.readyAt rfds)) := by
  induction is generalizing s n with
  | nil => exact hkept.took_nil
  | cons i is ih =>
      obtain ⟨hi, hnodup⟩ := List.nodup_cons.mp hnodup
      rw [readReadies]
      by_cases hready : ∃ rev, s.watchTable i = some rev ∧ s.fd rev ∈ rfds
      · obtain ⟨rev, htable, hset⟩ := hready
        have hat : s.readyAt rfds i = some rev := by
          simp [State.readyAt, htable, hset]
        rw [List.filterMap_cons_some hat] at hn ⊢
        rw [List.length_cons] at hn
        have hsame : is.filterMap ((s.take rev i).readyAt rfds) =
            is.filterMap (s.readyAt rfds) := by
          refine List.filterMap_congr fun j hj => ?_
          have hne : j ≠ i := fun h => hi (h ▸ hj)
          rw [State.readyAt, State.readyAt, take_watchTable hne, take_fd]
        have hfirst := take_took hkept htable
        have hrest := ih (n := n - 1) hfirst.kept hnodup (by
          rw [hsame]
          push_cast at hn
          omega)
        rw [hsame] at hrest
        have hpos : 0 < n := by
          push_cast at hn
          omega
        rw [if_pos hpos, htable]
        dsimp only
        rw [if_pos hset]
        exact hfirst.trans hrest
      · have hat : s.readyAt rfds i = none := by
          cases htable : s.watchTable i with
          | none => simp [State.readyAt, htable]
          | some rev =>
              have hset : s.fd rev ∉ rfds :=
                fun h => hready ⟨rev, htable, h⟩
              simp [State.readyAt, htable, hset]
        rw [List.filterMap_cons_none hat] at hn ⊢
        by_cases hpos : 0 < n
        · rw [if_pos hpos]
          cases htable : s.watchTable i with
          | none => exact ih hkept hnodup hn
          | some rev =>
              dsimp only
              rw [if_neg fun h => hready ⟨rev, htable, h⟩]
              exact ih hkept hnodup hn
        · rw [if_neg hpos]
          have hnone : is.filterMap (s.readyAt rfds) = [] :=
            List.length_eq_zero_iff.mp (by omega)
          rw [hnone]
          exact hkept.took_nil

/-- The events that are ready, in the order of the table. -/
def State.ready (s : State) (rfds : Finset Int) : List Nat :=
  (List.finRange MAX_FD_EVENTS).filterMap (s.readyAt rfds)

theorem take_pending : (s.take ev i).pendingList = s.pendingList ++ [ev] := by
  unfold State.take
  split <;> rfl

/-- Whatever stands in the table, the loop queues the first `n` events that it
finds ready. -/
theorem readReadies_pending {rfds : Finset Int} {is : List Index} {n : Int}
    (hnodup : is.Nodup) :
    (readReadies rfds is n s).pendingList =
      s.pendingList ++ (is.filterMap (s.readyAt rfds)).take n.toNat := by
  induction is generalizing s n with
  | nil => simp [readReadies]
  | cons i is ih =>
      obtain ⟨hi, hnodup⟩ := List.nodup_cons.mp hnodup
      rw [readReadies]
      by_cases hpos : 0 < n
      · rw [if_pos hpos]
        by_cases hready : ∃ rev, s.watchTable i = some rev ∧ s.fd rev ∈ rfds
        · obtain ⟨rev, htable, hset⟩ := hready
          have hat : s.readyAt rfds i = some rev := by
            simp [State.readyAt, htable, hset]
          have hsame : is.filterMap ((s.take rev i).readyAt rfds) =
              is.filterMap (s.readyAt rfds) := by
            refine List.filterMap_congr fun j hj => ?_
            have hne : j ≠ i := fun h => hi (h ▸ hj)
            rw [State.readyAt, State.readyAt, take_watchTable hne, take_fd]
          have hcount : n.toNat = (n - 1).toNat + 1 := by omega
          have hrest := ih (s := s.take rev i) (n := n - 1) hnodup
          rw [take_pending, hsame, List.append_assoc] at hrest
          rw [List.filterMap_cons_some hat, hcount, List.take_succ_cons, htable]
          dsimp only
          rw [if_pos hset]
          exact hrest
        · have hat : s.readyAt rfds i = none := by
            cases htable : s.watchTable i with
            | none => simp [State.readyAt, htable]
            | some rev =>
                have hset : s.fd rev ∉ rfds :=
                  fun h => hready ⟨rev, htable, h⟩
                simp [State.readyAt, htable, hset]
          rw [List.filterMap_cons_none hat]
          cases htable : s.watchTable i with
          | none => exact ih hnodup
          | some rev =>
              dsimp only
              rw [if_neg fun h => hready ⟨rev, htable, h⟩]
              exact ih hnodup
      · have hzero : n.toNat = 0 := by omega
        rw [if_neg hpos, hzero, List.take_zero, List.append_nil]

theorem processReadReadies_pending (s : State) (rfds : Finset Int) (n : Int) :
    (processReadReadies s rfds n).pendingList =
      s.pendingList ++ (s.ready rfds).take n.toNat :=
  readReadies_pending (List.nodup_finRange _)

theorem readyAt_eq_some {rfds : Finset Int} :
    s.readyAt rfds i = some ev ↔
      s.watchTable i = some ev ∧ s.fd ev ∈ rfds := by
  rw [State.readyAt, Option.filter_eq_some_iff, decide_eq_true_eq]

theorem mem_ready {rfds : Finset Int} :
    ev ∈ s.ready rfds ↔ s.Watched ev ∧ s.fd ev ∈ rfds := by
  simp only [State.ready, List.mem_filterMap, List.mem_finRange, true_and,
    readyAt_eq_some, exists_and_right, State.Watched]

theorem State.Kept.ready_nodup (hkept : s.Kept) (rfds : Finset Int) :
    (s.ready rfds).Nodup := by
  refine (List.nodup_finRange _).filterMap fun i j e hi hj => ?_
  have hi := (readyAt_eq_some.mp hi).1
  have hj := (readyAt_eq_some.mp hj).1
  exact hkept.unique hj hi

/-- Ready events have different descriptors, all of them in the set, so
`select` has counted every one. -/
theorem State.Kept.length_ready_le (hkept : s.Kept) (rfds : Finset Int) :
    (s.ready rfds).length ≤ rfds.card := by
  rw [← List.toFinset_card_of_nodup (hkept.ready_nodup rfds)]
  refine Finset.card_le_card_of_injOn s.fd ?_ ?_
  · intro e he
    exact (mem_ready.mp (List.mem_toFinset.mp he)).2
  · intro e he e' he' hfd
    have he := (mem_ready.mp (List.mem_toFinset.mp he)).1
    have he' := (mem_ready.mp (List.mem_toFinset.mp he')).1
    exact hkept.distinct e e' he he' hfd

theorem processReadReadies_took (hkept : s.Kept) (rfds : Finset Int) :
    s.Took (processReadReadies s rfds rfds.card) (s.ready rfds) :=
  readReadies_took hkept (List.nodup_finRange _)
    (Int.ofNat_le.mpr (hkept.length_ready_le rfds))

theorem rilEventDel_eq (hkept : s.Kept)
    (htable : s.watchTable i = some ev) :
    rilEventDel s ev = removeWatch s ev i := by
  rw [rilEventDel, place_of_index (hkept.slot i ev htable)]

/-- The event is put in a free place. -/
def State.put (s : State) (ev : Nat) (i : Index) : State :=
  { s with
    watchTable := Function.update s.watchTable i (some ev)
    index := Function.update s.index ev i.val
    readFds := insert (s.fd ev) s.readFds
    nfds := if s.nfds ≤ s.fd ev then s.fd ev + 1 else s.nfds }

theorem rilEventAdd_cases (s : State) (ev : Nat) :
    (rilEventAdd s ev = s ∧ ∀ i, s.watchTable i ≠ none) ∨
      ∃ i, s.watchTable i = none ∧ rilEventAdd s ev = s.put ev i := by
  unfold rilEventAdd
  cases hfind : (List.finRange MAX_FD_EVENTS).find?
      fun i => s.watchTable i = none with
  | none =>
      refine .inl ⟨rfl, fun i hnone => ?_⟩
      have hall := List.find?_eq_none.mp hfind i (List.mem_finRange i)
      exact hall (decide_eq_true hnone)
  | some i =>
      have hfree := List.find?_some hfind
      exact .inr ⟨i, of_decide_eq_true hfree, rfl⟩

theorem put_watched (hfree : s.watchTable i = none) (e : Nat) :
    (s.put ev i).Watched e ↔ s.Watched e ∨ e = ev := by
  constructor
  · rintro ⟨j, hj⟩
    change Function.update s.watchTable i (some ev) j = some e at hj
    by_cases hplace : j = i
    · rw [hplace, Function.update_self] at hj
      exact .inr (Option.some_inj.mp hj).symm
    · rw [Function.update_of_ne hplace] at hj
      exact .inl ⟨j, hj⟩
  · rintro (⟨j, hj⟩ | rfl)
    · have hplace : j ≠ i := by
        rintro rfl
        rw [hfree] at hj
        cases hj
      exact ⟨j, (Function.update_of_ne hplace _ _).trans hj⟩
    · exact ⟨i, Function.update_self _ _ _⟩

theorem put_kept (hkept : s.Kept) (hfree : s.watchTable i = none)
    (hcareful : s.Careful (.add ev)) : (s.put ev i).Kept := by
  obtain ⟨hnot, -, hown⟩ := hcareful
  have hwatched := @put_watched s ev i hfree
  constructor
  · intro j e hj
    change Function.update s.watchTable i (some ev) j = some e at hj
    change Function.update s.index ev i.val e = j.val
    by_cases hplace : j = i
    · rw [hplace, Function.update_self] at hj
      rw [← Option.some_inj.mp hj, Function.update_self, hplace]
    · rw [Function.update_of_ne hplace] at hj
      have hne : e ≠ ev := fun h => hnot ⟨j, h ▸ hj⟩
      rw [Function.update_of_ne hne]
      exact hkept.slot j e hj
  · intro e hother
    rw [hwatched, not_or] at hother
    exact (Function.update_of_ne hother.2 _ _).trans
      (hkept.other e hother.1)
  · intro fd
    change fd ∈ insert (s.fd ev) s.readFds ↔ _
    rw [Finset.mem_insert, hkept.readFds]
    constructor
    · rintro (rfl | ⟨e, he, rfl⟩)
      · exact ⟨ev, (hwatched ev).mpr (.inr rfl), rfl⟩
      · exact ⟨e, (hwatched e).mpr (.inl he), rfl⟩
    · rintro ⟨e, he, rfl⟩
      rcases (hwatched e).mp he with hold | rfl
      · exact .inr ⟨e, hold, rfl⟩
      · exact .inl rfl
  · intro e he
    change s.fd e < if s.nfds ≤ s.fd ev then s.fd ev + 1 else s.nfds
    rcases (hwatched e).mp he with hold | rfl
    · have hlt := hkept.nfds e hold
      split <;> omega
    · split <;> omega
  · intro e e' he he' hfd
    change s.fd e = s.fd e' at hfd
    rcases (hwatched e).mp he with hold | rfl
    · rcases (hwatched e').mp he' with hold' | rfl
      · exact hkept.distinct e e' hold hold' hfd
      · exact absurd hfd (hown e hold)
    · rcases (hwatched e').mp he' with hold' | rfl
      · exact absurd hfd.symm (hown e' hold')
      · rfl

theorem rilEventAdd_kept (hkept : s.Kept) (hcareful : s.Careful (.add ev)) :
    (rilEventAdd s ev).Kept := by
  rcases rilEventAdd_cases s ev with ⟨hsame, -⟩ | ⟨i, hfree, hadd⟩
  · rwa [hsame]
  · rw [hadd]
    exact put_kept hkept hfree hcareful

theorem rilEventSet_kept (hkept : s.Kept) (hnot : ¬ s.Watched ev) (fd : Int)
    (persist : Bool) : (rilEventSet s ev fd persist).Kept := by
  have hne {e : Nat} (he : s.Watched e) : e ≠ ev := fun h => hnot (h ▸ he)
  have hfd {e : Nat} (he : s.Watched e) :
      (rilEventSet s ev fd persist).fd e = s.fd e :=
    Function.update_of_ne (hne he) _ _
  constructor
  · intro j e hj
    exact (Function.update_of_ne (hne ⟨j, hj⟩) _ _).trans (hkept.slot j e hj)
  · intro e hother
    change Function.update s.index ev (-1) e = -1
    by_cases he : e = ev
    · rw [he, Function.update_self]
    · rw [Function.update_of_ne he]
      exact hkept.other e hother
  · intro fd'
    refine (hkept.readFds fd').trans (exists_congr fun e => ?_)
    exact and_congr_right fun he => by rw [hfd he]
  · intro e he
    rw [hfd he]
    exact hkept.nfds e he
  · intro e e' he he' hsame
    rw [hfd he, hfd he'] at hsame
    exact hkept.distinct e e' he he' hsame

theorem State.Kept.step (hkept : s.Kept) {event : Event} {s' : State}
    (hcareful : s.Careful event) (hstep : s.step event = some s') :
    s'.Kept := by
  cases event with
  | set ev fd persist =>
      obtain rfl := Option.some_inj.mp hstep
      exact rilEventSet_kept hkept hcareful fd persist
  | add ev =>
      obtain rfl := Option.some_inj.mp hstep
      exact rilEventAdd_kept hkept hcareful
  | del ev =>
      obtain rfl := Option.some_inj.mp hstep
      obtain ⟨i, htable⟩ := hcareful
      rw [rilEventDel_eq hkept htable]
      exact removeWatch_kept hkept htable
  | readies rfds =>
      obtain rfl := Option.some_inj.mp hstep
      have hemptied : ({ s with pendingList := [] } : State).Kept :=
        ⟨hkept.slot, hkept.other, hkept.readFds, hkept.nfds, hkept.distinct⟩
      exact (processReadReadies_took hemptied rfds).kept

theorem State.Kept.agree (hkept : s.Kept) : s.Agree where
  readFds := hkept.readFds
  nfds := hkept.nfds
  index e hwatched := by
    obtain ⟨i, htable⟩ := hwatched
    exact ⟨i, hkept.slot i e htable, htable⟩
  other := hkept.other

theorem State.Kept.serves (hkept : s.Kept) : s.Serves := by
  constructor
  · rintro ev - ⟨j, hroom⟩ e
    rcases rilEventAdd_cases s ev with ⟨-, hfull⟩ | ⟨i, hfree, hadd⟩
    · exact absurd hroom (hfull j)
    · rw [hadd]
      exact put_watched hfree e
  · rintro ev ⟨i, htable⟩ e
    rw [rilEventDel_eq hkept htable]
    exact removeWatch_watched hkept htable e
  · intro rfds e
    rw [(processReadReadies_took hkept rfds).watched, mem_ready]
    exact and_congr_right fun he => by simp only [he, true_and]
  · intro rfds
    exact ⟨s.ready rfds, (processReadReadies_took hkept rfds).pending,
      hkept.ready_nodup rfds, fun e => mem_ready⟩

end Steps

/-- In every run in which events are added that are not watched, and removed
while they are, the table, the set, its bound and the indices agree; an
iteration queues each ready event once and keeps the persistent ones. -/
theorem reach_watched {s : State}
    (hreach : Reach State.step State.Careful .start s) :
    s.Agree ∧ s.Serves := by
  have hkept : s.Kept := hreach.invariant State.Kept
    (fun s event s' hkept hcareful hstep => hkept.step hcareful hstep)
    start_kept
  exact ⟨hkept.agree, hkept.serves⟩

namespace RilWatchWitness

theorem no_event {fd index : Nat → Int} {persist : Nat → Bool} {e : Nat} :
    ¬ ({ State.start with fd, index, persist } : State).Watched e := by
  rintro ⟨i, hi⟩
  cases hi

/-- Event 4 is watched for descriptor 7 and event 5 once for descriptor 9; both
are ready, and then event 4 is removed. -/
theorem two_watched :
    ∃ s, follow State.step .start [.set 4 7 true, .add 4, .set 5 9 false,
        .add 5, .readies {7, 9}, .del 4] = some s ∧
      s.Agree ∧ s.Serves := by
  have hset : Reach State.step State.Careful .start
      (rilEventSet .start 4 7 true) :=
    Reach.refl.tail (.set 4 7 true) no_event rfl
  have hcareful : (rilEventSet .start 4 7 true).Careful (.add 4) :=
    ⟨no_event, by decide, fun _ he => absurd he no_event⟩
  have hadd := hset.tail (.add 4) hcareful rfl
  have hfour : ∀ e, (rilEventAdd (rilEventSet .start 4 7 true) 4).Watched e ↔
      e = 4 := fun e =>
    ((reach_watched hset).2.adds 4 hcareful ⟨⟨0, by decide⟩, rfl⟩ e).trans
      (or_iff_right no_event)
  have hset' := hadd.tail (.set 5 9 false)
    (fun he => absurd ((hfour 5).mp he) (by decide)) rfl
  have hcareful' : (rilEventSet (rilEventAdd
      (rilEventSet .start 4 7 true) 4) 5 9 false).Careful (.add 5) := by
    refine ⟨fun he => absurd ((hfour 5).mp he) (by decide), by decide, ?_⟩
    intro e he
    rw [(hfour e).mp he]
    decide
  have hadd' := hset'.tail (.add 5) hcareful' rfl
  have hready := hadd'.tail (.readies {7, 9}) trivial rfl
  exact ⟨_, rfl,
    reach_watched (hready.tail (.del 4) ⟨⟨0, by decide⟩, by decide⟩ rfl)⟩

end RilWatchWitness

end RilWatch

end MetaOS
